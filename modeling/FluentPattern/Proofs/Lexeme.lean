import FluentPattern.Backreference

/-!
# Lexemes of written and renumbered patterns

How a pattern falls apart into lexemes where pieces of it are joined, and what
renumbering does to its lexemes. A run of digits after a `\` goes on into the
text that follows, so that is the one thing to look at where two texts meet.

Main statements: `lexemes_shiftReferences` (renumbering moves the lexemes one by
one), `shiftReferences_shiftReferences` (offsets add up).
-/

namespace FluentPattern

/-- Whether a text starts with a decimal digit. -/
def Text.startsWithDigit (t : Text) : Bool :=
  t.head?.any Char.isDigit

@[simp] theorem Text.startsWithDigit_nil : Text.startsWithDigit [] = false :=
  rfl

@[simp] theorem Text.startsWithDigit_cons (c : Char) (t : Text) :
    Text.startsWithDigit (c :: t) = c.isDigit :=
  rfl

/-- A run of digits ends where the text goes on without a digit. -/
theorem Text.digits_append {ds : Text} (hds : ∀ c ∈ ds, c.isDigit = true) {t : Text}
    (ht : t.startsWithDigit = false) : Text.digits (ds ++ t) = ds := by
  have h : Text.digits t = [] := by
    cases t with
    | nil => rfl
    | cons c t =>
      rw [Text.startsWithDigit_cons] at ht
      simp [Text.digits, ht]
  rw [Text.digits, List.takeWhile_append_of_pos hds]
  exact (congrArg (ds ++ ·) h).trans (List.append_nil ds)

theorem Text.afterDigits_append {ds : Text} (hds : ∀ c ∈ ds, c.isDigit = true) {t : Text}
    (ht : t.startsWithDigit = false) : Text.afterDigits (ds ++ t) = t := by
  have h := Text.digits_append_afterDigits (ds ++ t)
  rw [Text.digits_append hds ht] at h
  exact List.append_cancel_left h

theorem Text.startsWithDigit_afterDigits (t : Text) :
    (Text.afterDigits t).startsWithDigit = false := by
  induction t with
  | nil => rfl
  | cons c t ih =>
    by_cases hc : c.isDigit = true
    · simpa [Text.afterDigits, hc] using ih
    · simp [Text.afterDigits, hc]

/-! ## Reading lexemes off the front -/

@[simp] theorem lexemes_nil : lexemes [] = [] := by
  rw [lexemes]

theorem lexemes_plain {c : Char} (hc : c ≠ '\\') (t : Text) :
    lexemes (c :: t) = .plain c :: lexemes t := by
  rw [lexemes]
  · rintro rfl
    exact absurd rfl hc
  · rintro _ _ rfl
    exact absurd rfl hc

theorem lexemes_pair {c : Char} (hc : c.isDigit = false) (t : Text) :
    lexemes ('\\' :: c :: t) = .pair c :: lexemes t := by
  rw [lexemes, if_neg (by simp [hc])]

theorem lexemes_reference {ds : Text} (hne : ds ≠ []) (hds : ∀ c ∈ ds, c.isDigit = true)
    {t : Text} (ht : t.startsWithDigit = false) :
    lexemes ('\\' :: (ds ++ t)) = .reference ds :: lexemes t := by
  obtain ⟨c, ds, rfl⟩ := List.exists_cons_of_ne_nil hne
  have hc := hds c List.mem_cons_self
  have hr : ∀ x ∈ ds, x.isDigit = true := fun x hx => hds x (List.mem_cons_of_mem _ hx)
  rw [List.cons_append, lexemes, if_pos hc, Text.digits_append hr ht, Text.afterDigits_append hr ht]

/-- Characters other than `\` are lexemes of their own. -/
theorem lexemes_plains {s : Text} (hs : ∀ c ∈ s, c ≠ '\\') (t : Text) :
    lexemes (s ++ t) = s.map .plain ++ lexemes t := by
  induction s with
  | nil => rfl
  | cons c s ih =>
    rw [List.cons_append, lexemes_plain (hs c List.mem_cons_self),
      ih fun x hx => hs x (List.mem_cons_of_mem _ hx)]
    rfl

/-! ## Renumbering, lexeme by lexeme -/

/-- A backreference whose number fits moves. -/
theorem Lexeme.shift_reference {ds : Text} (h : ds.readDecimal ≤ largestGroup) (d : Nat) :
    (reference ds).shift d = reference (Text.decimal (ds.readDecimal + d)) := by
  rw [shift, if_pos h]

/-- A backreference whose number does not fit stays as it is. -/
theorem Lexeme.shift_reference_of_not_le {ds : Text} (h : ¬ds.readDecimal ≤ largestGroup)
    (d : Nat) : (reference ds).shift d = reference ds := by
  rw [shift, if_neg h]

theorem Lexeme.head?_text_shift (d : Nat) (l : Lexeme) :
    (l.shift d).text.head? = l.text.head? := by
  cases l with
  | reference ds =>
    by_cases h : ds.readDecimal ≤ largestGroup
    · rw [shift_reference h]
      rfl
    · rw [shift_reference_of_not_le h]
  | _ => rfl

theorem Lexeme.text_ne_nil (l : Lexeme) : l.text ≠ [] := by
  cases l <;> simp [Lexeme.text]

/-- Renumbering never changes how a text starts. -/
theorem startsWithDigit_flatMap_shift (d : Nat) (t : Text) :
    Text.startsWithDigit ((lexemes t).flatMap fun l => (l.shift d).text) = t.startsWithDigit := by
  have ht : (lexemes t).flatMap Lexeme.text = t := text_lexemes t
  cases hl : lexemes t with
  | nil =>
    rw [hl] at ht
    rw [← ht]
    rfl
  | cons l ls =>
    rw [hl] at ht
    rw [← ht]
    rw [List.flatMap_cons, List.flatMap_cons, Text.startsWithDigit, Text.startsWithDigit,
      List.head?_append, List.head?_append, Lexeme.head?_text_shift]
    obtain ⟨c, cs, hc⟩ := List.exists_cons_of_ne_nil (Lexeme.text_ne_nil l)
    rw [hc]
    rfl

/-- The lexemes of a renumbered pattern are its lexemes, renumbered. -/
theorem lexemes_flatMap_shift (d : Nat) (t : Text) :
    lexemes ((lexemes t).flatMap fun l => (l.shift d).text) = (lexemes t).map (Lexeme.shift d) := by
  fun_induction lexemes t with
  | case1 => simp
  | case2 => simp [Lexeme.shift, Lexeme.text, lexemes]
  | case3 c rest hc ih =>
    have hd := startsWithDigit_flatMap_shift d (Text.afterDigits rest)
    rw [Text.startsWithDigit_afterDigits] at hd
    rw [List.flatMap_cons, List.map_cons, ← ih]
    by_cases hf : Text.readDecimal (c :: Text.digits rest) ≤ Lexeme.largestGroup
    · rw [Lexeme.shift_reference hf]
      exact lexemes_reference (Text.decimal_ne_nil _)
        (fun x hx => Text.isDigit_of_mem_decimal hx) hd
    · rw [Lexeme.shift_reference_of_not_le hf]
      refine lexemes_reference (List.cons_ne_nil _ _) (fun x hx => ?_) hd
      rcases List.mem_cons.1 hx with rfl | hx
      · exact hc
      · exact List.all_eq_true.1 List.all_takeWhile x hx
  | case4 c rest hc ih =>
    rw [List.flatMap_cons, List.map_cons, ← ih]
    exact lexemes_pair (by simpa using hc) _
  | case5 c rest h1 h2 ih =>
    rw [List.flatMap_cons, List.map_cons, ← ih]
    refine lexemes_plain ?_ _
    rintro rfl
    cases rest with
    | nil => exact h1 rfl rfl
    | cons c rest => exact h2 c rest rfl rfl

/-- The lexemes of a renumbered pattern are its lexemes, renumbered. -/
theorem lexemes_shiftReferences {d : Nat} (hd : d ≠ 0) (t : Text) :
    lexemes (shiftReferences d t) = (lexemes t).map (Lexeme.shift d) := by
  rw [shiftReferences, if_neg hd, lexemes_flatMap_shift]

theorem startsWithDigit_shiftReferences (d : Nat) (t : Text) :
    (shiftReferences d t).startsWithDigit = t.startsWithDigit := by
  unfold shiftReferences
  split
  · rfl
  · exact startsWithDigit_flatMap_shift d t

/-- Renumbering parts that meet between two lexemes renumbers the whole. -/
theorem shiftReferences_append {s t : Text} (h : lexemes (s ++ t) = lexemes s ++ lexemes t)
    (d : Nat) : shiftReferences d (s ++ t) = shiftReferences d s ++ shiftReferences d t := by
  unfold shiftReferences
  split
  · rfl
  · rw [h, List.flatMap_append]

/-- A text without backreferences stays as it is. -/
theorem shiftReferences_of_fixed {t : Text} (h : ∀ l ∈ lexemes t, l.isReference = false) (d : Nat) :
    shiftReferences d t = t := by
  unfold shiftReferences
  split
  · rfl
  · have hl : ∀ l ∈ lexemes t, (l.shift d).text = l.text := by
      intro l hl
      cases l with
      | reference ds => exact absurd (h _ hl) (by simp [Lexeme.isReference])
      | _ => rfl
    rw [List.flatMap, List.map_congr_left hl]
    exact text_lexemes t

@[simp] theorem shiftReferences_nil (d : Nat) : shiftReferences d [] = [] :=
  shiftReferences_of_fixed (by simp) d

/-- A part without backreferences stays as it is. -/
theorem shiftReferences_append_of_fixed {s t : Text}
    (h : lexemes (s ++ t) = lexemes s ++ lexemes t)
    (hs : ∀ l ∈ lexemes s, l.isReference = false) (d : Nat) :
    shiftReferences d (s ++ t) = s ++ shiftReferences d t := by
  rw [shiftReferences_append h, shiftReferences_of_fixed hs]

/-- A part without `\` stays as it is. -/
theorem shiftReferences_plains {s : Text} (hs : ∀ c ∈ s, c ≠ '\\') (t : Text) (d : Nat) :
    shiftReferences d (s ++ t) = s ++ shiftReferences d t := by
  have h := lexemes_plains hs []
  rw [List.append_nil, lexemes_nil, List.append_nil] at h
  refine shiftReferences_append_of_fixed (by rw [lexemes_plains hs, h]) ?_ d
  rw [h]
  intro l hl
  obtain ⟨c, -, rfl⟩ := List.mem_map.1 hl
  rfl

theorem shiftReferences_cons {c : Char} (hc : c ≠ '\\') (t : Text) (d : Nat) :
    shiftReferences d (c :: t) = c :: shiftReferences d t :=
  shiftReferences_plains (fun _ hx => List.mem_singleton.1 hx ▸ hc) t d

theorem shiftReferences_pair {c : Char} (hc : c.isDigit = false) (t : Text) (d : Nat) :
    shiftReferences d ('\\' :: c :: t) = '\\' :: c :: shiftReferences d t := by
  have h := lexemes_pair hc []
  rw [lexemes_nil] at h
  refine shiftReferences_append_of_fixed (s := ['\\', c]) ?_ ?_ d
  · rw [h]
    exact lexemes_pair hc t
  · rw [h]
    exact fun l hl => List.mem_singleton.1 hl ▸ rfl

/-- A backreference is written with the next number, if its number fits. -/
theorem shiftReferences_reference (n : Nat) {t : Text} (ht : t.startsWithDigit = false)
    (d : Nat) : shiftReferences d ('\\' :: (Text.decimal n ++ t)) =
      '\\' :: (Text.decimal (if n ≤ Lexeme.largestGroup then n + d else n) ++
        shiftReferences d t) := by
  have hds : ∀ c ∈ Text.decimal n, c.isDigit = true := fun c hc => Text.isDigit_of_mem_decimal hc
  have hl := lexemes_reference (Text.decimal_ne_nil n) hds ht
  by_cases hd : d = 0
  · simp [hd]
  · unfold shiftReferences
    rw [if_neg hd, if_neg hd, hl, List.flatMap_cons]
    by_cases hn : n ≤ Lexeme.largestGroup
    · rw [if_pos hn, Lexeme.shift_reference (by rwa [Text.readDecimal_decimal]),
        Text.readDecimal_decimal]
      rfl
    · rw [if_neg hn, Lexeme.shift_reference_of_not_le (by rwa [Text.readDecimal_decimal])]
      rfl

/-! ## Offsets add up -/

/-- Moving a lexeme twice moves it by the sum, if its number still fits after the
first move. -/
theorem Lexeme.shift_shift {a b : Nat} {l : Lexeme}
    (h : ∀ ds, l = .reference ds → ds.readDecimal ≤ largestGroup →
      ds.readDecimal + b ≤ largestGroup) : (l.shift b).shift a = l.shift (a + b) := by
  cases l with
  | reference ds =>
    by_cases hf : ds.readDecimal ≤ largestGroup
    · have hb := h ds rfl hf
      rw [← Text.readDecimal_decimal (ds.readDecimal + b)] at hb
      rw [shift_reference hf, shift_reference hf, shift_reference hb, Text.readDecimal_decimal,
        Nat.add_assoc, Nat.add_comm b a]
    · rw [shift_reference_of_not_le hf, shift_reference_of_not_le hf, shift_reference_of_not_le hf]
  | _ => rfl

/-- Moving a pattern twice moves it by the sum, if the numbers that fit still fit after
the first move. -/
theorem shiftReferences_shiftReferences {a b : Nat} {t : Text}
    (h : ∀ ds, Lexeme.reference ds ∈ lexemes t → ds.readDecimal ≤ Lexeme.largestGroup →
      ds.readDecimal + b ≤ Lexeme.largestGroup) :
    shiftReferences a (shiftReferences b t) = shiftReferences (a + b) t := by
  by_cases ha : a = 0
  · rw [ha, shiftReferences_zero, Nat.zero_add]
  by_cases hb : b = 0
  · rw [hb, shiftReferences_zero, Nat.add_zero]
  unfold shiftReferences
  rw [if_neg ha, if_neg hb, if_neg (by omega), lexemes_flatMap_shift, List.flatMap_map]
  unfold List.flatMap
  congr 1
  refine List.map_congr_left fun l hl => ?_
  rw [Lexeme.shift_shift]
  rintro ds rfl hf
  exact h ds hl hf

end FluentPattern
