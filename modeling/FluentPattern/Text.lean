/-!
# Text

A text is the list of its characters. Patterns are scanned, spliced and cut
character by character, and offsets that leave the library count the bytes of
the UTF-8 form, so both views stand here.

Main statements: `byteLength_append`, `slice?_eq_some_iff`, `readDecimal_decimal`.
-/

namespace FluentPattern

/-- A text, as the list of its characters. -/
abbrev Text := List Char

namespace Text

/-- The number of bytes of the UTF-8 form. -/
def byteLength (t : Text) : Nat :=
  t.foldr (fun c n => c.utf8Size + n) 0

@[simp] theorem byteLength_nil : byteLength [] = 0 :=
  rfl

@[simp] theorem byteLength_cons (c : Char) (t : Text) :
    byteLength (c :: t) = c.utf8Size + byteLength t :=
  rfl

/-- Bytes add up over concatenation. -/
@[simp] theorem byteLength_append (s t : Text) :
    byteLength (s ++ t) = byteLength s + byteLength t := by
  induction s with
  | nil => simp [byteLength]
  | cons c s ih =>
    simp only [byteLength, List.cons_append, List.foldr_cons] at ih ⊢
    omega

@[simp] theorem byteLength_eq_zero_iff {t : Text} : byteLength t = 0 ↔ t = [] := by
  cases t with
  | nil => simp
  | cons c t => simp [Nat.ne_of_gt c.utf8Size_pos]

/-- A text cut at a byte offset, if the offset is in range and falls between two characters. -/
def splitAt? : Nat → Text → Option (Text × Text)
  | 0, t => some ([], t)
  | _ + 1, [] => none
  | n + 1, c :: t =>
    if n + 1 < c.utf8Size then none
    else (splitAt? (n + 1 - c.utf8Size) t).map fun (front, back) => (c :: front, back)

/-- The part of a text between two byte offsets, if they are in range and in order and fall
between characters. -/
def slice? (t : Text) (start stop : Nat) : Option Text := do
  let (front, _) ← splitAt? stop t
  let (_, part) ← splitAt? start front
  pure part

theorem splitAt?_append (u v : Text) : splitAt? (byteLength u) (u ++ v) = some (u, v) := by
  induction u with
  | nil => rw [byteLength_nil, List.nil_append, splitAt?]
  | cons c u ih =>
    have hpos := c.utf8Size_pos
    obtain ⟨n, hn⟩ : ∃ n, byteLength (c :: u) = n + 1 :=
      Nat.exists_eq_add_one.2 (by rw [byteLength_cons]; omega)
    have hrest : n + 1 - c.utf8Size = byteLength u := by
      rw [← hn, byteLength_cons]
      omega
    rw [hn, List.cons_append, splitAt?, hrest, ih, if_neg]
    · rfl
    · rw [← hn, byteLength_cons]
      omega

theorem eq_of_splitAt? {n : Nat} {t u v : Text} (h : splitAt? n t = some (u, v)) :
    t = u ++ v ∧ n = byteLength u := by
  fun_induction splitAt? n t generalizing u with
  | case1 t =>
    obtain ⟨rfl, rfl⟩ := Prod.mk.inj (Option.some.inj h)
    exact ⟨rfl, rfl⟩
  | case2 n => cases h
  | case3 n c t hlt => cases h
  | case4 n c t hge ih =>
    obtain ⟨⟨front, back⟩, hsplit, hcut⟩ := Option.map_eq_some_iff.1 h
    obtain ⟨rfl, rfl⟩ := Prod.mk.inj hcut
    obtain ⟨rfl, hn⟩ := ih hsplit
    exact ⟨rfl, by rw [byteLength_cons]; omega⟩

/-- A part of a text is what stands between the bytes that are counted before it and the bytes
that are counted with it. -/
theorem slice?_eq_some_iff {t part : Text} {start stop : Nat} :
    t.slice? start stop = some part ↔ ∃ before after : Text, t = before ++ (part ++ after) ∧
      start = byteLength before ∧ stop = byteLength before + byteLength part := by
  constructor
  · intro h
    obtain ⟨⟨front, after⟩, hfront, h⟩ := Option.bind_eq_some_iff.1 h
    obtain ⟨⟨before, part'⟩, hbefore, h⟩ := Option.bind_eq_some_iff.1 h
    obtain rfl : part' = part := Option.some.inj h
    obtain ⟨rfl, rfl⟩ := eq_of_splitAt? hfront
    obtain ⟨rfl, rfl⟩ := eq_of_splitAt? hbefore
    exact ⟨before, after, List.append_assoc _ _ _, rfl, byteLength_append _ _⟩
  · rintro ⟨before, after, rfl, rfl, rfl⟩
    rw [slice?, ← byteLength_append, ← List.append_assoc, splitAt?_append]
    show (splitAt? (byteLength before) (before ++ part)).bind _ = _
    rw [splitAt?_append]
    rfl

/-- The decimal digits of a number, without leading zeros. -/
def decimal (n : Nat) : Text :=
  Nat.toDigits 10 n

/-- The number that decimal digits denote, leading zeros allowed. -/
def readDecimal (digits : Text) : Nat :=
  Nat.ofDigitChars 10 digits 0

/-- Writing and reading a number gives it back. -/
@[simp] theorem readDecimal_decimal (n : Nat) : readDecimal (decimal n) = n :=
  Nat.ofDigitChars_toDigits (by decide) (by decide)

/-- A written number holds digits only. -/
theorem isDigit_of_mem_decimal {c : Char} {n : Nat} (h : c ∈ decimal n) : c.isDigit = true :=
  Nat.isDigit_of_mem_toDigits (by decide) (by decide) h

/-- A written number is not empty. -/
theorem decimal_ne_nil (n : Nat) : decimal n ≠ [] :=
  Nat.toDigits_ne_nil

/-- The run of decimal digits at the front. -/
def digits (t : Text) : Text :=
  t.takeWhile Char.isDigit

/-- What follows the run of decimal digits at the front. -/
def afterDigits (t : Text) : Text :=
  t.dropWhile Char.isDigit

/-- The digits and what follows them make up the text. -/
theorem digits_append_afterDigits (t : Text) : t.digits ++ t.afterDigits = t :=
  List.takeWhile_append_dropWhile

/-- Dropping digits makes no text longer. -/
theorem length_afterDigits_le (t : Text) : t.afterDigits.length ≤ t.length :=
  (List.dropWhile_sublist _).length_le

end Text

/-- Whether a code point lies in one of some ranges, bounds included. -/
def inRanges (ranges : List (Nat × Nat)) (n : Nat) : Bool :=
  ranges.any fun range => range.1 ≤ n && n ≤ range.2

end FluentPattern
