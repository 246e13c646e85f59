import FluentPattern.Proofs.Sign
import FluentPattern.Proofs.Spelling
import FluentPattern.Proofs.Tree

/-!
# Signs of written patterns

Texts of the grammar are settled: a class in them is closed, every `\` has its
character, and no `(` waits for a `?`. So the groups that open in a group are its
own and those inside it. Renumbering a text of the grammar gives one with as many
branches.

Main statements: `Spells.settled`, `openings_group`, `Spells.shift`.
-/

namespace FluentPattern

theorem Text.isInert_decimal (n : Nat) : Text.IsInert (Text.decimal n) := by
  intro c hc
  have hd := Text.isDigit_of_mem_decimal hc
  refine ⟨?_, ?_, ?_⟩ <;> rintro rfl <;> exact absurd hd (by decide)

theorem Text.IsInert.append {s t : Text} (hs : s.IsInert) (ht : t.IsInert) :
    Text.IsInert (s ++ t) := by
  intro c hc
  rcases List.mem_append.1 hc with h | h
  · exact hs c h
  · exact ht c h

theorem Text.IsInert.cons {c : Char} (hc : c ≠ '\\' ∧ c ≠ '[' ∧ c ≠ '(') {t : Text}
    (ht : t.IsInert) : Text.IsInert (c :: t) := by
  intro x hx
  rcases List.mem_cons.1 hx with rfl | hx
  · exact hc
  · exact ht x hx

theorem Text.isInert_nil : Text.IsInert [] :=
  fun _ hc => absurd hc List.not_mem_nil

theorem Quantity.isInert_suffix (q : Option Quantity) : (Quantity.suffix q).IsInert := by
  cases q with
  | none => exact Text.isInert_nil
  | some q =>
    have hmost : Text.IsInert (q.most.elim [] Text.decimal) := by
      cases q.most with
      | none => exact Text.isInert_nil
      | some n => exact Text.isInert_decimal n
    have hmark : Text.IsInert (if q.greedy then [] else ['?']) := by
      cases q.greedy <;> simp [Text.IsInert]
    exact .cons (by decide) ((Text.isInert_decimal _).append (.cons (by decide)
      (hmost.append (.cons (by decide) hmark))))

theorem Text.isInert_inlineCode (fs : Flags) : Text.IsInert fs.inlineCode := by
  obtain ⟨i, m, g⟩ := fs
  intro c hc
  have hl : c = 'i' ∨ c = 'm' := by
    cases i <;> cases m <;> cases g <;>
      simp_all [Flags.inlineCode, Flags.toList, Flag.all, Flags.contains, Flag.isInline,
        Flag.letter]
  rcases hl with rfl | rfl <;> decide

/-- The opening of a group ends the reading before it; of the openings only that of a
capturing group counts. -/
theorem signs_opening (k : GroupKind) {t : Text} (ht : t.head? ≠ some '?') :
    signs (k.text ++ t) =
      k.text.map (fun c => ⟨.plain c, k == .capture && c == '('⟩) ++ signs t := by
  cases k with
  | capture => exact signs_capture ht
  | flagged fs =>
    have hs := signs_plains ((Text.isInert_inlineCode fs).append
      (.cons (by decide) Text.isInert_nil : Text.IsInert [':'])) t
    show signs ('(' :: '?' :: (fs.inlineCode ++ [':'] ++ t)) = _
    rw [signs_special, hs]
    simp [GroupKind.text]
  | _ =>
    refine (signs_special _).trans ?_
    rw [List.append_eq, List.singleton_append, signs_cons (by decide) (by decide) (by decide)]
    rfl

theorem signs_suffix (q : Option Quantity) (t : Text) :
    signs (')' :: (Quantity.suffix q ++ t)) =
      (')' :: Quantity.suffix q).map (fun c => ⟨.plain c, false⟩) ++ signs t :=
  signs_plains (Text.IsInert.cons (by decide) (Quantity.isInert_suffix q)) t

/-- A member of a class as it is read. -/
def Token.Member.lexeme : Token.Member → Lexeme
  | plain c => .plain c
  | escaped c => .pair c

theorem lexemes_membersText {ms : List Token.Member} (hm : ∀ m ∈ ms, m.IsWritable) (t : Text) :
    lexemes (Token.membersText ms ++ t) = ms.map Token.Member.lexeme ++ lexemes t := by
  unfold Token.membersText
  induction ms with
  | nil => rfl
  | cons m ms ih =>
    have ih := ih fun x hx => hm x (List.mem_cons_of_mem _ hx)
    have hw := hm m List.mem_cons_self
    rw [List.flatMap_cons, List.append_assoc]
    cases m with
    | plain c => exact (lexemes_plain hw.1 _).trans (congrArg (Lexeme.plain c :: ·) ih)
    | escaped c => exact (lexemes_pair hw _).trans (congrArg (Lexeme.pair c :: ·) ih)

theorem Token.Member.lexeme_ne {m : Token.Member} (hm : m.IsWritable) :
    m.lexeme ≠ .plain ']' := by
  cases m with
  | plain c =>
    intro h
    exact hm.2.1 (Lexeme.plain.inj h)
  | escaped c => exact Lexeme.noConfusion

/-- The lexemes between the brackets of a class. -/
def classLexemes (negated : Bool) (ms : List Token.Member) : List Lexeme :=
  (if negated then [.plain '^'] else []) ++ ms.map Token.Member.lexeme

/-- The signs of a class. -/
def classSigns (negated : Bool) (ms : List Token.Member) : List Sign :=
  ⟨.plain '[', false⟩ :: (classLexemes negated ms).map (⟨·, false⟩) ++ [⟨.plain ']', false⟩]

/-- Nothing opens in a class, and it is read apart from what follows it. -/
theorem signs_classText (negated : Bool) {ms : List Token.Member}
    (hm : ∀ m ∈ ms, m.IsWritable) (t : Text) :
    signs (classText negated ms t) = classSigns negated ms ++ signs t := by
  have hlex (u : Text) : lexemes ((if negated then ['^'] else []) ++ Token.membersText ms ++ u) =
      classLexemes negated ms ++ lexemes u := by
    cases negated with
    | false => exact lexemes_membersText hm u
    | true =>
      exact (lexemes_plain (c := '^') (by decide) _).trans
        (congrArg (Lexeme.plain '^' :: ·) (lexemes_membersText hm u))
  have hbody := hlex []
  rw [List.append_nil, lexemes_nil, List.append_nil] at hbody
  have hclose : Lexeme.plain ']' ∉ classLexemes negated ms := by
    intro h
    rcases List.mem_append.1 h with h | h
    · cases negated <;> simp at h
    · obtain ⟨m, hmem, he⟩ := List.mem_map.1 h
      exact Token.Member.lexeme_ne (hm m hmem) he
  rw [classText, ← List.append_assoc, signs_class, hbody]
  · simp [classSigns]
  · rwa [hbody]
  · rw [hbody, hlex]

/-- The signs of a group are those of its opening, of what is inside, and of its end. -/
theorem signs_group (k : GroupKind) (q : Option Quantity) {s : Text} {cs : Branches}
    (hs : Spells s cs) (hset : Settled s) (t : Text) :
    signs (k.text ++ (s ++ ')' :: (Quantity.suffix q ++ t))) =
      k.text.map (fun c => ⟨.plain c, k == .capture && c == '('⟩) ++ (signs s ++
        ((')' :: Quantity.suffix q).map (fun c => ⟨.plain c, false⟩) ++ signs t)) := by
  rw [signs_opening k (hs.head?_append_ne (by simp)), hset _ rfl, signs_suffix]

/-- A text of the grammar is read apart from what follows it unless that starts with a
digit. -/
theorem Spells.settled {t : Text} {bs : Branches} (h : Spells t bs) : Settled t := by
  intro rest hd
  induction h generalizing rest with
  | nil => simp
  | bar _ ih =>
    rw [List.cons_append, signs_cons (by decide) (by decide) (by decide), ih rest hd,
      signs_cons (by decide) (by decide) (by decide), List.cons_append]
  | @single c _ _ _ _ ha _ ih =>
    have hc : c ≠ '\\' ∧ c ≠ '[' ∧ c ≠ '(' := by
      refine ⟨?_, ?_, ?_⟩ <;> rintro rfl <;> simp [Atom.ofChar?] at ha
    rw [List.cons_append, signs_cons hc.1 hc.2.1 hc.2.2, ih rest hd, signs_cons hc.1 hc.2.1 hc.2.2,
      List.cons_append]
  | escape hc _ _ ih =>
    rw [List.cons_append, List.cons_append, signs_pair hc, ih rest hd, signs_pair hc,
      List.cons_append]
  | @reference n t _ _ ht _ ih =>
    have hds : ∀ c ∈ Text.decimal n, c.isDigit = true := fun c hc => Text.isDigit_of_mem_decimal hc
    have htr : (t ++ rest).startsWithDigit = false := by
      cases t with
      | nil => exact hd
      | cons c t => exact ht
    rw [List.cons_append, List.append_assoc, signs_reference (Text.decimal_ne_nil n) hds htr,
      ih rest hd, signs_reference (Text.decimal_ne_nil n) hds ht, List.cons_append]
  | bracket negated _ hm _ _ ih =>
    rw [classText_append, signs_classText negated hm, ih rest hd, signs_classText negated hm,
      List.append_assoc]
  | group k q _ hs _ ihs iht =>
    simp only [List.append_assoc, List.cons_append]
    rw [signs_group k q hs ihs, iht rest hd, signs_group k q hs ihs]
    simp only [List.append_assoc]

/-- The backreferences of a group are those inside it. -/
theorem Spells.mem_lexemes_group {k : GroupKind} {q : Option Quantity} {s : Text} {cs : Branches}
    (hs : Spells s cs) {t ds : Text}
    (h : Lexeme.reference ds ∈ lexemes (k.text ++ (s ++ ')' :: (Quantity.suffix q ++ t)))) :
    Lexeme.reference ds ∈ lexemes s ∨ Lexeme.reference ds ∈ lexemes t := by
  have plains (f : Char → Bool) (u : Text) :
      Lexeme.reference ds ∉ (u.map fun c => (⟨.plain c, f c⟩ : Sign)).map Sign.lexeme := by
    simp
  rw [← map_lexeme_signs, signs_group k q hs hs.settled] at h
  simp only [List.map_append, map_lexeme_signs, List.mem_append] at h
  rcases h with h | h | h | h
  · exact absurd h (plains _ _)
  · exact .inl h
  · exact absurd h (plains _ _)
  · exact .inr h

/-! ## Groups that open -/

theorem openings_opening (k : GroupKind) {t : Text} (ht : t.head? ≠ some '?') :
    openings (k.text ++ t) = (if k = .capture then 1 else 0) + openings t := by
  have hopen : (k.text.map fun c => (⟨.plain c, k == .capture && c == '('⟩ : Sign)).countP
      Sign.opens = if k = .capture then 1 else 0 := by
    cases k <;> simp [GroupKind.text, List.countP_map, Function.comp_def]
  rw [openings, signs_opening k ht, List.countP_append, hopen, openings]

theorem Spells.openings_group (k : GroupKind) (q : Option Quantity) {s : Text} {cs : Branches}
    (hs : Spells s cs) (t : Text) :
    openings (k.text ++ (s ++ ')' :: (Quantity.suffix q ++ t))) =
      (if k = .capture then 1 else 0) + openings s + openings t := by
  have hclose : ((')' :: Quantity.suffix q).map fun c => (⟨.plain c, false⟩ : Sign)).countP
      Sign.opens = 0 := by
    simp [List.countP_map, Function.comp_def]
  have hend : openings (')' :: (Quantity.suffix q ++ t)) = openings t := by
    rw [openings, signs_suffix, List.countP_append, hclose, Nat.zero_add, openings]
  rw [openings_opening k (hs.head?_append_ne (by simp)), hs.settled.openings_append rfl, hend]
  omega

/-- A bar opens nothing. -/
theorem Spells.openings_bar {s : Text} {cs : Branches} (hs : Spells s cs) (t : Text) :
    openings (s ++ '|' :: t) = openings s + openings t := by
  rw [hs.settled.openings_append rfl]
  congr 1
  rw [openings, signs_cons (by decide) (by decide) (by decide)]
  rfl

/-- Whether a token opens a group that captures. -/
def Token.isCapture : Token → Bool
  | opening .capture => true
  | _ => false

/-- The groups that open in a text of the grammar are those of its tree. -/
theorem Spells.openings_eq {t : Text} {bs : Branches} (h : Spells t bs) :
    openings t = bs.tokens.countP Token.isCapture := by
  induction h with
  | nil => exact openings_nil
  | bar ht ih =>
    rw [openings, signs_cons (by decide) (by decide) (by decide), Branches.tokens_cons ht.ne_nil]
    exact ih
  | @single c _ _ _ _ ha _ ih =>
    have hc : c ≠ '\\' ∧ c ≠ '[' ∧ c ≠ '(' := by
      refine ⟨?_, ?_, ?_⟩ <;> rintro rfl <;> simp [Atom.ofChar?] at ha
    rw [openings, signs_cons hc.1 hc.2.1 hc.2.2, Branches.tokens_cons_cons]
    exact ih
  | escape hc _ _ ih =>
    rw [openings, signs_pair hc, Branches.tokens_cons_cons]
    exact ih
  | @reference n _ _ _ ht _ ih =>
    rw [openings, signs_reference (Text.decimal_ne_nil n)
      (fun _ hc => Text.isDigit_of_mem_decimal hc) ht, Branches.tokens_cons_cons]
    exact ih
  | @bracket negated ms _ _ _ _ _ hm _ _ ih =>
    have hclass : (classSigns negated ms).countP Sign.opens = 0 := by
      simp [classSigns, List.countP_map, Function.comp_def]
    rw [openings, signs_classText negated hm, List.countP_append, hclass, Nat.zero_add,
      Branches.tokens_cons_cons]
    exact ih
  | @group k q s t cs _ _ _ hs _ ihs iht =>
    have hpiece : (Piece.times q (.group k cs)).tokens.countP Token.isCapture =
        (if k = .capture then 1 else 0) + cs.tokens.countP Token.isCapture := by
      cases q <;> cases k <;>
        simp [Piece.times, Piece.tokens, Token.isCapture, List.countP_cons, Nat.add_comm]
    rw [hs.openings_group k q t, ihs, iht, Branches.tokens_cons_cons, List.countP_append, hpiece]

/-! ## Renumbering -/

theorem shiftReferences_opening (k : GroupKind) (t : Text) (d : Nat) :
    shiftReferences d (k.text ++ t) = k.text ++ shiftReferences d t := by
  have hk : ∀ c ∈ k.text, c ≠ '\\' := by
    intro c hc
    cases k with
    | flagged fs =>
      rcases List.mem_cons.1 hc with rfl | hc
      · decide
      rcases List.mem_cons.1 hc with rfl | hc
      · decide
      rcases List.mem_append.1 hc with hc | hc
      · exact (Text.isInert_inlineCode fs c hc).1
      · rw [List.mem_singleton.1 hc]
        decide
    | _ =>
      rintro rfl
      exact absurd hc (by decide)
  exact shiftReferences_plains hk t d

theorem shiftReferences_suffix (q : Option Quantity) (t : Text) (d : Nat) :
    shiftReferences d (')' :: (Quantity.suffix q ++ t)) =
      ')' :: (Quantity.suffix q ++ shiftReferences d t) :=
  shiftReferences_plains (fun c hc => (Text.IsInert.cons (by decide)
    (Quantity.isInert_suffix q) c hc).1) t d

theorem isReference_of_mem_classSigns {negated : Bool} {ms : List Token.Member} {x : Sign}
    (hx : x ∈ classSigns negated ms) : x.lexeme.isReference = false := by
  unfold classSigns at hx
  rcases List.mem_append.1 hx with hx | hx
  · rcases List.mem_cons.1 hx with rfl | hx
    · rfl
    obtain ⟨l, hl, rfl⟩ := List.mem_map.1 hx
    rcases List.mem_append.1 hl with hl | hl
    · cases negated
      · exact absurd hl List.not_mem_nil
      · rw [List.mem_singleton.1 hl]
        rfl
    · obtain ⟨m, -, rfl⟩ := List.mem_map.1 hl
      cases m <;> rfl
  · rw [List.mem_singleton.1 hx]
    rfl

theorem shiftReferences_classText (negated : Bool) {ms : List Token.Member}
    (hm : ∀ m ∈ ms, m.IsWritable) (t : Text) (d : Nat) :
    shiftReferences d (classText negated ms t) = classText negated ms (shiftReferences d t) := by
  have hlex (u : Text) :
      lexemes (classText negated ms u) = (classSigns negated ms).map Sign.lexeme ++ lexemes u := by
    rw [← map_lexeme_signs, signs_classText negated hm, List.map_append, map_lexeme_signs]
  have hself := hlex []
  rw [lexemes_nil, List.append_nil] at hself
  have happ (u : Text) : classText negated ms u = classText negated ms [] ++ u := by
    rw [classText_append, List.nil_append]
  rw [happ t, happ (shiftReferences d t)]
  refine shiftReferences_append_of_fixed ?_ ?_ d
  · rw [← happ, hlex, hself]
  · rw [hself]
    intro l hl
    obtain ⟨x, hx, rfl⟩ := List.mem_map.1 hl
    exact isReference_of_mem_classSigns hx

/-- A backreference moved by `offset`; every other atom as it is. The sum is taken in the natural
numbers, as it is in `Lexeme.shift`: where it does not fit in 64 bits, nothing is said of a sum of
fixed width. -/
def Atom.shift (offset : Nat) : Atom → Atom
  | groupAgain n => groupAgain (if n ≤ Lexeme.largestGroup then n + offset else n)
  | a => a

theorem Atom.shift_of_ofChar? {c : Char} {a : Atom} (h : Atom.ofChar? c = some a) (d : Nat) :
    a.shift d = a := by
  unfold Atom.ofChar? at h
  split at h
  all_goals
    cases h
    try rfl

theorem Atom.shift_of_escaped {c : Char} {a : Atom} (h : Token.escaped c = .atom a) (d : Nat) :
    a.shift d = a := by
  cases a with
  | groupAgain n =>
    unfold Token.escaped at h
    grind
  | _ => rfl

/-- Renumbering a text of the grammar renumbers the backreferences in its tree. -/
theorem Spells.shift {t : Text} {bs : Branches} (h : Spells t bs) (d : Nat) :
    Spells (shiftReferences d t) (Branches.mapAtoms (Atom.shift d) bs) := by
  induction h with
  | nil =>
    rw [shiftReferences_nil]
    exact .nil
  | bar _ ih =>
    rw [shiftReferences_cons (by decide)]
    exact .bar ih
  | @single c _ _ _ _ ha _ ih =>
    have hc : c ≠ '\\' := by
      rintro rfl
      simp [Atom.ofChar?] at ha
    rw [shiftReferences_cons hc]
    rw [← Atom.shift_of_ofChar? ha d] at ha
    exact .single ha ih
  | escape hc ha _ ih =>
    rw [shiftReferences_pair hc]
    rw [← Atom.shift_of_escaped ha d] at ha
    exact .escape hc ha ih
  | reference n hd _ ih =>
    rw [shiftReferences_reference n hd]
    exact .reference _ (by rwa [startsWithDigit_shiftReferences]) ih
  | bracket negated hne hm hi _ ih =>
    rw [shiftReferences_classText negated hm]
    exact .bracket negated hne hm hi ih
  | @group k q _ _ cs _ _ hk hs _ ihs iht =>
    rw [shiftReferences_opening, hs.settled.shiftReferences_append rfl, shiftReferences_suffix]
    have hp : (Piece.times q (.group k cs)).mapAtoms (Atom.shift d) =
        Piece.times q (.group k (Branches.mapAtoms (Atom.shift d) cs)) := by
      cases q <;> rfl
    rw [Branches.mapAtoms, Branch.mapAtoms, hp]
    exact .group k q hk ihs iht

end FluentPattern
