import FluentPattern.Proofs.Lexeme

/-!
# Openings of capturing groups

A pattern is read lexeme by lexeme, and each `(` that opens a capturing group is
marked. Such a `(` has no `\` before it, stands outside classes and has no `?`
after it. Groups are numbered by their openings from the left.

A text is settled if it is read apart from whatever follows it, unless that starts with
a digit.

Main statements: `signs_shiftReferences`, `openings_shiftReferences` (renumbering
keeps all openings where they are), `groupAt?_append`.
-/

namespace FluentPattern

/-- A lexeme of a pattern with the mark of an opening. -/
structure Sign where
  /-- The lexeme. -/
  lexeme : Lexeme
  /-- Whether it opens a capturing group. -/
  opens : Bool
deriving DecidableEq

/-- The sign with its lexeme renumbered. -/
def Sign.shift (offset : Nat) (s : Sign) : Sign :=
  { s with lexeme := s.lexeme.shift offset }

/-- The signs of lexemes that start outside or inside a class. A class goes from a `[`
to the next `]`. -/
def signsFrom (inClass : Bool) : List Lexeme → List Sign
  | [] => []
  | .plain ']' :: ls => ⟨.plain ']', false⟩ :: signsFrom false ls
  | .plain '[' :: ls => ⟨.plain '[', false⟩ :: signsFrom true ls
  | .plain '(' :: ls =>
    ⟨.plain '(', !inClass && ls.head? != some (.plain '?')⟩ :: signsFrom inClass ls
  | l :: ls => ⟨l, false⟩ :: signsFrom inClass ls

/-- The signs of a pattern. -/
def signs (t : Text) : List Sign :=
  signsFrom false (lexemes t)

/-- The number of capturing groups that open in a pattern. -/
def openings (t : Text) : Nat :=
  (signs t).countP Sign.opens

/-- The number of the capturing group that opens at a place, if one does. -/
def groupAt? (ss : List Sign) (i : Nat) : Option Nat :=
  if ss[i]?.any Sign.opens then some ((ss.take (i + 1)).countP Sign.opens) else none

/-! ## Reading signs off the front -/

@[simp] theorem signs_nil : signs [] = [] := by
  simp [signs, signsFrom]

@[simp] theorem openings_nil : openings [] = 0 := by
  simp [openings]

theorem signsFrom_cons {l : Lexeme} (h₁ : l ≠ .plain ']') (h₂ : l ≠ .plain '[')
    (h₃ : l ≠ .plain '(') (inClass : Bool) (ls : List Lexeme) :
    signsFrom inClass (l :: ls) = ⟨l, false⟩ :: signsFrom inClass ls := by
  rw [signsFrom]
  · exact fun h => h₁ h
  · exact fun h => h₂ h
  · exact fun h => h₃ h

/-- The lexemes of the signs are the lexemes. -/
theorem map_lexeme_signsFrom (inClass : Bool) (ls : List Lexeme) :
    (signsFrom inClass ls).map Sign.lexeme = ls := by
  fun_induction signsFrom inClass ls with
  | case1 => rfl
  | _ => simp_all

theorem map_lexeme_signs (t : Text) : (signs t).map Sign.lexeme = lexemes t :=
  map_lexeme_signsFrom false (lexemes t)

theorem signs_cons {c : Char} (h₁ : c ≠ '\\') (h₂ : c ≠ '[') (h₃ : c ≠ '(') (t : Text) :
    signs (c :: t) = ⟨.plain c, false⟩ :: signs t := by
  unfold signs
  rw [lexemes_plain h₁]
  by_cases h : c = ']'
  · rw [h, signsFrom]
  · exact signsFrom_cons (by simpa using h) (by simpa using h₂) (by simpa using h₃) _ _

theorem signs_pair {c : Char} (hc : c.isDigit = false) (t : Text) :
    signs ('\\' :: c :: t) = ⟨.pair c, false⟩ :: signs t := by
  unfold signs
  rw [lexemes_pair hc]
  exact signsFrom_cons (by simp) (by simp) (by simp) _ _

theorem signs_reference {ds : Text} (hne : ds ≠ []) (hds : ∀ c ∈ ds, c.isDigit = true)
    {t : Text} (ht : t.startsWithDigit = false) :
    signs ('\\' :: (ds ++ t)) = ⟨.reference ds, false⟩ :: signs t := by
  unfold signs
  rw [lexemes_reference hne hds ht]
  exact signsFrom_cons (by simp) (by simp) (by simp) _ _

/-- A `(` before a `?` captures nothing. -/
theorem signs_special (t : Text) :
    signs ('(' :: '?' :: t) = ⟨.plain '(', false⟩ :: ⟨.plain '?', false⟩ :: signs t := by
  unfold signs
  rw [lexemes_plain (by decide), lexemes_plain (by decide), signsFrom,
    signsFrom_cons (by decide) (by decide) (by decide)]
  rfl

/-- Every other `(` opens a capturing group. -/
theorem signs_capture {t : Text} (ht : t.head? ≠ some '?') :
    signs ('(' :: t) = ⟨.plain '(', true⟩ :: signs t := by
  unfold signs
  rw [lexemes_plain (by decide), signsFrom]
  have hl : (lexemes t).head? ≠ some (.plain '?') := by
    intro h
    obtain ⟨ls, hls⟩ := List.head?_eq_some_iff.1 h
    have hs := text_lexemes t
    rw [hls] at hs
    rw [← hs] at ht
    exact ht rfl
  simp [hl]

/-- Inside a class nothing opens, up to its closing bracket. -/
theorem signsFrom_class {ls : List Lexeme} (h : Lexeme.plain ']' ∉ ls) (ms : List Lexeme) :
    signsFrom true (ls ++ .plain ']' :: ms) =
      ls.map (⟨·, false⟩) ++ ⟨.plain ']', false⟩ :: signsFrom false ms := by
  induction ls with
  | nil => rw [List.nil_append, signsFrom]; rfl
  | cons l ls ih =>
    have hl : l ≠ .plain ']' := fun e => h (e ▸ List.mem_cons_self)
    have hls : Lexeme.plain ']' ∉ ls := fun e => h (List.mem_cons_of_mem _ e)
    rw [List.cons_append, List.map_cons, List.cons_append, ← ih hls]
    by_cases h₂ : l = .plain '['
    · rw [h₂, signsFrom]
    by_cases h₃ : l = .plain '('
    · rw [h₃, signsFrom]
      rfl
    · exact signsFrom_cons hl h₂ h₃ _ _

theorem signs_class {s t : Text} (h : Lexeme.plain ']' ∉ lexemes s)
    (hs : lexemes (s ++ ']' :: t) = lexemes s ++ lexemes (']' :: t)) :
    signs ('[' :: (s ++ ']' :: t)) =
      ⟨.plain '[', false⟩ :: (lexemes s).map (⟨·, false⟩) ++ ⟨.plain ']', false⟩ :: signs t := by
  unfold signs
  rw [lexemes_plain (by decide), signsFrom, hs, lexemes_plain (by decide), signsFrom_class h]
  rfl

/-! ## Renumbering -/

theorem signsFrom_map_shift (d : Nat) (inClass : Bool) (ls : List Lexeme) :
    signsFrom inClass (ls.map (Lexeme.shift d)) = (signsFrom inClass ls).map (Sign.shift d) := by
  have plain_iff (l : Lexeme) (c : Char) : l.shift d = .plain c ↔ l = .plain c := by
    cases l with
    | reference ds =>
      unfold Lexeme.shift
      split <;> (try split) <;> simp_all
    | _ => rfl
  have head_iff (ls : List Lexeme) :
      (ls.map (Lexeme.shift d)).head? = some (.plain '?') ↔ ls.head? = some (.plain '?') := by
    cases ls with
    | nil => rfl
    | cons l ls => simp [plain_iff]
  induction ls generalizing inClass with
  | nil => rfl
  | cons l ls ih =>
    rw [List.map_cons]
    by_cases h₁ : l = .plain ']'
    · rw [h₁, Lexeme.shift, signsFrom, signsFrom, ih]
      · rfl
      · simp
    by_cases h₂ : l = .plain '['
    · rw [h₂, Lexeme.shift, signsFrom, signsFrom, ih]
      · rfl
      · simp
    by_cases h₃ : l = .plain '('
    · rw [h₃, Lexeme.shift, signsFrom, signsFrom, ih]
      · have hh : ((ls.map (Lexeme.shift d)).head? != some (.plain '?')) =
            (ls.head? != some (.plain '?')) := by
          rw [Bool.eq_iff_iff, bne_iff_ne, bne_iff_ne, ne_eq, ne_eq, head_iff]
        rw [hh]
        rfl
      · simp
    · rw [signsFrom_cons (mt (plain_iff l _).1 h₁) (mt (plain_iff l _).1 h₂)
        (mt (plain_iff l _).1 h₃), signsFrom_cons h₁ h₂ h₃, ih]
      rfl

/-- The signs of a renumbered pattern are its signs, renumbered. -/
theorem signs_shiftReferences {d : Nat} (hd : d ≠ 0) (t : Text) :
    signs (shiftReferences d t) = (signs t).map (Sign.shift d) := by
  unfold signs
  rw [lexemes_shiftReferences hd, signsFrom_map_shift]

/-- Renumbering neither adds nor drops a group. -/
@[simp] theorem openings_shiftReferences (d : Nat) (t : Text) :
    openings (shiftReferences d t) = openings t := by
  by_cases hd : d = 0
  · rw [hd, shiftReferences_zero]
  · unfold openings
    rw [signs_shiftReferences hd, List.countP_map]
    rfl

/-! ## Settled texts -/

/-- The text is read apart from what follows it unless that starts with a digit. -/
def Settled (s : Text) : Prop :=
  ∀ t, t.startsWithDigit = false → signs (s ++ t) = signs s ++ signs t

/-- Characters that are neither `\`, `[` nor `(`. -/
def Text.IsInert (s : Text) : Prop :=
  ∀ c ∈ s, c ≠ '\\' ∧ c ≠ '[' ∧ c ≠ '('

/-- Such characters are read one by one. -/
theorem signs_plains {s : Text} (hs : s.IsInert) (t : Text) :
    signs (s ++ t) = s.map (fun c => ⟨.plain c, false⟩) ++ signs t := by
  induction s with
  | nil => rfl
  | cons c s ih =>
    obtain ⟨h₁, h₂, h₃⟩ := hs c List.mem_cons_self
    rw [List.cons_append, signs_cons h₁ h₂ h₃, ih fun x hx => hs x (List.mem_cons_of_mem _ hx)]
    rfl

theorem openings_plains {s : Text} (hs : s.IsInert) : openings s = 0 := by
  have h := signs_plains hs []
  rw [List.append_nil, signs_nil, List.append_nil] at h
  rw [openings, h, List.countP_map, List.countP_eq_zero]
  exact fun c _ => Bool.false_ne_true

theorem Settled.lexemes_append {s t : Text} (hs : Settled s) (ht : t.startsWithDigit = false) :
    lexemes (s ++ t) = lexemes s ++ lexemes t := by
  rw [← map_lexeme_signs, hs t ht, List.map_append, map_lexeme_signs, map_lexeme_signs]

theorem Settled.shiftReferences_append {s t : Text} (hs : Settled s)
    (ht : t.startsWithDigit = false) (d : Nat) :
    shiftReferences d (s ++ t) = shiftReferences d s ++ shiftReferences d t :=
  FluentPattern.shiftReferences_append (hs.lexemes_append ht) d

theorem Settled.openings_append {s t : Text} (hs : Settled s) (ht : t.startsWithDigit = false) :
    openings (s ++ t) = openings s + openings t := by
  rw [openings, hs t ht, List.countP_append]
  rfl

/-! ## Numbers of groups -/

/-- The groups of a later part are numbered after those of the part before it. -/
theorem groupAt?_append (ss us : List Sign) (i : Nat) :
    groupAt? (ss ++ us) (ss.length + i) =
      (groupAt? us i).map (ss.countP Sign.opens + ·) := by
  unfold groupAt?
  rw [List.getElem?_append_right (Nat.le_add_right _ _), Nat.add_sub_cancel_left]
  split
  · rw [Option.map_some, Nat.add_assoc, List.take_length_add_append, List.countP_append]
  · rfl

/-- The groups of an earlier part keep their numbers. -/
theorem groupAt?_append_left {ss : List Sign} {i : Nat} (hi : i < ss.length) (us : List Sign) :
    groupAt? (ss ++ us) i = groupAt? ss i := by
  unfold groupAt?
  rw [List.getElem?_append_left hi, List.take_append_of_le_length hi]

end FluentPattern
