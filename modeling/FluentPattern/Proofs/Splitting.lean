import FluentPattern.Proofs.Lexeme

/-!
# How a pattern falls apart

`Splits t ls` says that the text `t` falls apart from the left into the lexemes `ls`: a `\` takes
the character after it, and with a digit the whole run of digits. Every text falls apart in exactly
one way, and a renumbered text falls apart into the renumbered lexemes.

Renumbering and counting need no list of lexemes. `renumberPass` and `countPass` go over the
characters once, each with a loop of its own, and cut the text at the same places.

Main statements: `splits_iff`, `renumberPass_eq`, `countPass_eq`,
`exists_splits_shiftReferences` (renumbering and counting by the lexemes of a text).
-/

namespace FluentPattern

/-! ## Splitting -/

/-- The text falls apart from the left into the lexemes. -/
inductive Splits : Text → List Lexeme → Prop
  | nil : Splits [] []
  | plain {c : Char} {t : Text} {ls : List Lexeme} :
    c ≠ '\\' → Splits t ls → Splits (c :: t) (.plain c :: ls)
  | pair {c : Char} {t : Text} {ls : List Lexeme} :
    c.isDigit = false → Splits t ls → Splits ('\\' :: c :: t) (.pair c :: ls)
  | loneBackslash : Splits ['\\'] [.loneBackslash]
  /-- The run of digits is as long as it can be. -/
  | reference {ds t : Text} {ls : List Lexeme} :
    ds ≠ [] → (∀ c ∈ ds, c.isDigit = true) → t.startsWithDigit = false → Splits t ls →
      Splits ('\\' :: (ds ++ t)) (.reference ds :: ls)

theorem Splits.lexemes_eq {t : Text} {ls : List Lexeme} (h : Splits t ls) : lexemes t = ls := by
  induction h with
  | nil => exact lexemes_nil
  | plain hc _ ih => rw [lexemes_plain hc, ih]
  | pair hc _ ih => rw [lexemes_pair hc, ih]
  | loneBackslash => rw [lexemes]
  | reference hne hds ht _ ih => rw [lexemes_reference hne hds ht, ih]

theorem splits_lexemes (t : Text) : Splits t (lexemes t) := by
  fun_induction lexemes t with
  | case1 => exact .nil
  | case2 => exact .loneBackslash
  | case3 c rest hc ih =>
    have hds : ∀ x ∈ c :: Text.digits rest, x.isDigit = true :=
      List.forall_mem_cons.2 ⟨hc, List.all_eq_true.1 List.all_takeWhile⟩
    have hs := Splits.reference (List.cons_ne_nil _ _) hds
      (Text.startsWithDigit_afterDigits rest) ih
    rwa [List.cons_append, Text.digits_append_afterDigits] at hs
  | case4 c rest hc ih => exact .pair (Bool.eq_false_iff.2 hc) ih
  | case5 c rest h₁ h₂ ih =>
    refine .plain ?_ ih
    rintro rfl
    cases rest with
    | nil => exact h₁ rfl rfl
    | cons c rest => exact h₂ c rest rfl rfl

/-- Every text falls apart in exactly one way. -/
theorem splits_iff {t : Text} {ls : List Lexeme} : Splits t ls ↔ ls = lexemes t :=
  ⟨fun h => h.lexemes_eq.symm, fun h => h ▸ splits_lexemes t⟩

/-! ## In one pass -/

/-- The digits of a backreference moved by `offset`, or as they are if their number is too large.
The sum is taken in the natural numbers, as it is in `Lexeme.shift`: where it does not fit in 64
bits, nothing is said of a sum of fixed width. -/
def Text.movedDigits (offset : Nat) (digits : Text) : Text :=
  if digits.readDecimal ≤ Lexeme.largestGroup then decimal (digits.readDecimal + offset) else digits

/-- Write what is left of a pattern behind `out`, with its backreferences moved by `offset`. -/
def renumberPass (offset : Nat) (out : Text) : Text → Text
  | [] => out
  | c :: rest =>
    if c = '\\' then
      match rest with
      | [] => out ++ [c]
      | next :: more =>
        if next.isDigit then
          renumberPass offset (out ++ c :: Text.movedDigits offset (Text.digits (next :: more)))
            (Text.afterDigits (next :: more))
        else renumberPass offset (out ++ [c, next]) more
    else renumberPass offset (out ++ [c]) rest
termination_by t => t.length
decreasing_by
  · have := Text.length_afterDigits_le (next :: more)
    simp only [List.length_cons] at this ⊢
    omega
  · simp only [List.length_cons]
    omega
  · simp only [List.length_cons]
    omega

/-- Go on counting the backreferences in what is left of a pattern, where `count` came before. -/
def countPass (count : Nat) : Text → Nat
  | [] => count
  | c :: rest =>
    if c = '\\' then
      match rest with
      | [] => count
      | next :: more =>
        if next.isDigit then countPass (count + 1) (Text.afterDigits more)
        else countPass count more
    else countPass count rest
termination_by t => t.length
decreasing_by
  · have := Text.length_afterDigits_le more
    simp only [List.length_cons]
    omega
  · simp only [List.length_cons]
    omega
  · simp only [List.length_cons]
    omega

theorem Lexeme.text_shift_reference (offset : Nat) (ds : Text) :
    ((reference ds).shift offset).text = '\\' :: Text.movedDigits offset ds := by
  rw [shift, Text.movedDigits]
  split <;> rfl

theorem Text.digits_cons {c : Char} (hc : c.isDigit = true) (t : Text) :
    digits (c :: t) = c :: digits t :=
  List.takeWhile_cons_of_pos hc

theorem Text.afterDigits_cons {c : Char} (hc : c.isDigit = true) (t : Text) :
    afterDigits (c :: t) = afterDigits t :=
  List.dropWhile_cons_of_pos hc

/-- The run of digits behind a `\` is one lexeme with it. -/
theorem lexemes_digits {c : Char} (hc : c.isDigit = true) (t : Text) :
    lexemes ('\\' :: c :: t) =
      .reference (Text.digits (c :: t)) :: lexemes (Text.afterDigits (c :: t)) := by
  rw [lexemes, if_pos hc, Text.digits_cons hc, Text.afterDigits_cons hc]

/-- Renumbering in one pass moves the lexemes one by one. -/
theorem renumberPass_eq (offset : Nat) (out t : Text) :
    renumberPass offset out t = out ++ (lexemes t).flatMap fun l => (l.shift offset).text := by
  fun_induction renumberPass offset out t with
  | case1 out => rw [lexemes_nil, List.flatMap_nil, List.append_nil]
  | case2 out => rw [lexemes, List.flatMap_singleton]; rfl
  | case3 out next more hd ih =>
    rw [ih, lexemes_digits hd, List.flatMap_cons, Lexeme.text_shift_reference, List.append_assoc]
  | case4 out next more hd ih =>
    rw [ih, lexemes_pair (Bool.eq_false_iff.2 hd), List.flatMap_cons, List.append_assoc]
    rfl
  | case5 out c rest hc ih =>
    rw [ih, lexemes_plain hc, List.flatMap_cons, List.append_assoc]
    rfl

/-- Counting in one pass counts the lexemes that are backreferences. -/
theorem countPass_eq (count : Nat) (t : Text) :
    countPass count t = count + (lexemes t).countP Lexeme.isReference := by
  fun_induction countPass count t with
  | case1 count => rw [lexemes_nil, List.countP_nil, Nat.add_zero]
  | case2 count =>
    rw [lexemes, List.countP_cons_of_neg Bool.false_ne_true, List.countP_nil, Nat.add_zero]
  | case3 count next more hd ih =>
    rw [ih, lexemes_digits hd, List.countP_cons_of_pos rfl, Text.afterDigits_cons hd,
      Nat.add_assoc, Nat.add_comm 1]
  | case4 count next more hd ih =>
    rw [ih, lexemes_pair (Bool.eq_false_iff.2 hd), List.countP_cons_of_neg Bool.false_ne_true]
  | case5 count c rest hc ih =>
    rw [ih, lexemes_plain hc, List.countP_cons_of_neg Bool.false_ne_true]

/-! ## Renumbering by lexemes -/

/-- Whether every number of a backreference that can be read as one can be read when it is moved by
`offset`. -/
def Text.FitsMoved (offset : Nat) (t : Text) : Prop :=
  ∀ ds, .reference ds ∈ lexemes t → ds.readDecimal ≤ Lexeme.largestGroup →
    ds.readDecimal + offset ≤ Lexeme.largestGroup

theorem Text.FitsMoved.mono {t : Text} {d e : Nat} (h : t.FitsMoved e) (hde : d ≤ e) :
    t.FitsMoved d := by
  intro ds hds hle
  have := h ds hds hle
  omega

theorem Lexeme.isReference_shift (d : Nat) (l : Lexeme) :
    (l.shift d).isReference = l.isReference := by
  cases l with
  | reference ds =>
    rw [shift]
    split <;> rfl
  | _ => rfl

/-- Renumbering keeps the number of backreferences. -/
theorem countReferences_shiftReferences (d : Nat) (t : Text) :
    countReferences (shiftReferences d t) = countReferences t := by
  by_cases hd : d = 0
  · rw [hd, shiftReferences_zero]
  · rw [countReferences, countReferences, lexemes_shiftReferences hd, List.countP_map]
    exact List.countP_congr fun l _ => by rw [Function.comp_apply, Lexeme.isReference_shift]

/-- Every text falls apart into lexemes in exactly one way. Renumbering leaves the text alone if the
offset is zero; otherwise it writes the lexemes with each backreference moved, and the text that it
writes falls apart into these again. Counting counts the backreferences among the lexemes, so there
are as many after renumbering as before. Offsets add up if the numbers still can be read. -/
theorem exists_splits_shiftReferences {t : Text} {a b : Nat} (h : t.FitsMoved (a + b)) :
    ∃ ls, (∀ ms, Splits t ms ↔ ms = ls) ∧
      countReferences t = ls.countP Lexeme.isReference ∧
      countReferences t = countPass 0 t ∧
      (∀ d, (shiftReferences d t =
          if d = 0 then t else (ls.map (Lexeme.shift d)).flatMap Lexeme.text) ∧
        (shiftReferences d t = if d = 0 then t else renumberPass d [] t) ∧
        (∀ ms, Splits (shiftReferences d t) ms ↔
          ms = if d = 0 then ls else ls.map (Lexeme.shift d)) ∧
        countReferences (shiftReferences d t) = countReferences t) ∧
      shiftReferences b (shiftReferences a t) = shiftReferences (a + b) t := by
  refine ⟨lexemes t, fun ms => splits_iff, rfl, ?_, fun d => ⟨?_, ?_, fun ms => ?_,
    countReferences_shiftReferences d t⟩, ?_⟩
  · rw [countPass_eq, Nat.zero_add, countReferences]
  · rw [shiftReferences, List.flatMap_map]
  · rw [shiftReferences, renumberPass_eq, List.nil_append]
  · rw [splits_iff]
    split
    · rename_i hd
      rw [hd, shiftReferences_zero]
    · rename_i hd
      rw [lexemes_shiftReferences hd]
  · rw [Nat.add_comm a b]
    refine shiftReferences_shiftReferences fun ds hds hle => ?_
    have := h ds hds hle
    omega

/-- An escaped backslash, a number with zeros in front, one that is too large, and a `\` at the end:
the pattern is renumbered twice. -/
theorem exists_splits_shiftReferences_tooLarge :
    let t : Text := "\\\\1\\007é\\18446744073709551616\\".toList
    t.FitsMoved (2 + 3) ∧ countReferences t = 2 ∧
      shiftReferences 2 t = "\\\\1\\9é\\18446744073709551616\\".toList ∧
      shiftReferences 3 (shiftReferences 2 t) = "\\\\1\\12é\\18446744073709551616\\".toList := by
  intro t
  have hlexemes : lexemes t = [.pair '\\', .plain '1', .reference "007".toList, .plain 'é',
      .reference "18446744073709551616".toList, .loneBackslash] := by
    simp [t, lexemes, Text.digits, Text.afterDigits]
  have hfits : t.FitsMoved (2 + 3) := by
    intro ds hds
    rw [hlexemes] at hds
    simp only [List.mem_cons, Lexeme.reference.injEq, reduceCtorEq, List.not_mem_nil, or_false,
      false_or] at hds
    rcases hds with rfl | rfl <;> decide +kernel
  obtain ⟨ls, hsplits, hcount, -, hshift, htwice⟩ := exists_splits_shiftReferences hfits
  obtain rfl : lexemes t = ls := (hsplits _).1 (splits_lexemes t)
  refine ⟨hfits, ?_, ?_, ?_⟩
  · rw [hcount, hlexemes]
    rfl
  · rw [(hshift 2).1, hlexemes]
    rfl
  · rw [htwice, (hshift (2 + 3)).1, hlexemes]
    rfl

end FluentPattern
