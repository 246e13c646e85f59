import FluentPattern.Proofs.GroupCount
import FluentPattern.Proofs.Label

/-!
# Appending a pattern

A pattern that is appended to a host stands in a group with the quantity `{1,1}`. If both
stay with the basic engine, nothing but the size of the whole can be refused. In the
extended engine the quantity needs a pattern that it repeats, and a host or a pattern that
the basic engine took alone may repeat an anchor; so there are two patterns that compile and
do not compile once one is appended to the other.

Main statements: `Built.lateFault?_of_compiles`, `Built.referencesOpen_of_compiles` (what a
compiled pattern is not refused for), `Call.compile_append`.
-/

namespace FluentPattern

/-! ## What the extended engine repeats -/

section

variable {f : Atom → Atom}

mutual

theorem Piece.isBlank_mapAtoms : ∀ p : Piece, (p.mapAtoms f).isBlank = p.isBlank
  | .atom _ => rfl
  | .flags _ => rfl
  | .group .plain bs => Branches.isBlank_mapAtoms bs
  | .group (.flagged _) bs => Branches.isBlank_mapAtoms bs
  | .group .capture _ => rfl
  | .group .ahead _ => rfl
  | .group .notAhead _ => rfl
  | .repeated _ _ => rfl

theorem Branch.isBlank_mapAtoms : ∀ b : Branch, (Branch.mapAtoms f b).isBlank = b.isBlank
  | [] => rfl
  | p :: b => by
    rw [Branch.mapAtoms, Branch.isBlank, Branch.isBlank, p.isBlank_mapAtoms,
      Branch.isBlank_mapAtoms b]

theorem Branches.isBlank_mapAtoms : ∀ bs : Branches, (Branches.mapAtoms f bs).isBlank = bs.isBlank
  | [] => rfl
  | [b] => Branch.isBlank_mapAtoms b
  | _ :: _ :: _ => rfl

end

mutual

theorem Piece.isRepeatable_mapAtoms
    (hf : ∀ a, (Piece.atom (f a)).isRepeatable = (Piece.atom a).isRepeatable) :
    ∀ p : Piece, (p.mapAtoms f).isRepeatable = p.isRepeatable
  | .atom a => hf a
  | .flags _ => rfl
  | .group .plain bs => Branches.isRepeatable_mapAtoms hf bs
  | .group (.flagged _) bs => Branches.isRepeatable_mapAtoms hf bs
  | .group .capture _ => rfl
  | .group .ahead _ => rfl
  | .group .notAhead _ => rfl
  | .repeated _ _ => rfl

theorem Branch.isRepeatable_mapAtoms
    (hf : ∀ a, (Piece.atom (f a)).isRepeatable = (Piece.atom a).isRepeatable) :
    ∀ b : Branch, (Branch.mapAtoms f b).isRepeatable = b.isRepeatable
  | [] => rfl
  | p :: b => by
    rw [Branch.mapAtoms, Branch.isRepeatable, Branch.isRepeatable, p.isBlank_mapAtoms,
      p.isRepeatable_mapAtoms hf, Branch.isRepeatable_mapAtoms hf b, Branch.isBlank_mapAtoms b]

/-- Atoms that are anchors as before are repeated as before. -/
theorem Branches.isRepeatable_mapAtoms
    (hf : ∀ a, (Piece.atom (f a)).isRepeatable = (Piece.atom a).isRepeatable) :
    ∀ bs : Branches, (Branches.mapAtoms f bs).isRepeatable = bs.isRepeatable
  | [] => rfl
  | [b] => Branch.isRepeatable_mapAtoms hf b
  | _ :: _ :: _ => rfl

end

end

/-- A moved backreference is no anchor. -/
theorem Atom.isRepeatable_shift (d : Nat) (a : Atom) :
    (Piece.atom (a.shift d)).isRepeatable = (Piece.atom a).isRepeatable := by
  cases a <;> rfl

/-- What says nothing is not repeated. -/
theorem Branch.isRepeatable_of_isBlank : ∀ {b : Branch}, b.isBlank = true → b.isRepeatable = false
  | [], _ => rfl
  | p :: b, h => by
    rw [isBlank, Bool.and_eq_true] at h
    rw [isRepeatable, if_pos h.1]
    exact Branch.isRepeatable_of_isBlank h.2

/-- The flags around a pattern do not matter. -/
theorem Built.isRepeatable_scopedRow (p : Built) (b : Branch) :
    Branch.isRepeatable (p.scopedRow b) = Branch.isRepeatable b := by
  unfold scopedRow
  cases p.flags.inline? with
  | none => rfl
  | some fs =>
    show Branch.isRepeatable [.group (.flagged fs) [b]] = _
    rw [Branch.isRepeatable]
    show (if Branch.isBlank b then false else Branch.isRepeatable b || false) = _
    cases h : Branch.isBlank b with
    | true => exact (Branch.isRepeatable_of_isBlank h).symm
    | false => exact Bool.or_false _

/-- Whether the extended engine takes a quantity after a piece. -/
def Rules.repeatsExtended : Option Piece → Bool
  | none | some (.repeated _ _) => false
  | some p => p.isRepeatable

theorem Rules.extended_refuse_quantity (bytes depth : Nat) (before : Option Piece) (q : Quantity) :
    (extended bytes).refuse depth before (.quantity q) =
      if repeatsExtended before then none else some .nothingToRepeat := by
  rcases before with _ | _ | _ | _ | _ <;> rfl

/-- Whether the extended engine repeats what stands before a quantity. -/
def Place.repeats (pl : Place) : Bool :=
  match pl.token with
  | .quantity _ => Rules.repeatsExtended pl.before
  | _ => true

/-- Whether the extended engine repeats all that has a quantity in a row. -/
def Branch.quantitiesHold (b : Branch) : Bool :=
  (Branch.places 0 b).all Place.repeats

/-- A place of a pattern that is embedded after `d` groups and inside `n` more. -/
def Place.embedded (d n : Nat) (pl : Place) : Place :=
  (pl.mapAtoms (Atom.shift d)).deepen n

theorem Place.repeats_embedded (d n : Nat) (pl : Place) :
    (pl.embedded d n).repeats = pl.repeats := by
  obtain ⟨depth, before, token⟩ := pl
  cases token with
  | quantity q =>
    show Rules.repeatsExtended (before.map _) = Rules.repeatsExtended before
    cases before with
    | none => rfl
    | some p =>
      cases p with
      | repeated _ _ => rfl
      | group k bs => exact Piece.isRepeatable_mapAtoms (Atom.isRepeatable_shift d) (.group k bs)
      | atom a => exact Atom.isRepeatable_shift d a
      | flags fs => rfl
  | _ => rfl

/-- A place where something is not repeated is refused by the extended engine. -/
theorem Place.refuseAt_of_not_repeats {pl : Place} (h : pl.repeats = false) (bytes : Nat) :
    (Rules.extended bytes).refuseAt pl ≠ none := by
  obtain ⟨depth, before, token⟩ := pl
  cases token with
  | quantity q =>
    have hb : Rules.repeatsExtended before = false := h
    rw [Rules.refuseAt, Rules.extended_refuse_quantity, hb]
    exact Option.some_ne_none _
  | _ => cases h

/-- Where something is not repeated, the extended engine finds a fault in the tree. -/
theorem Branch.fault?_of_not_quantitiesHold {b : Branch} (h : b.quantitiesHold = false)
    (bytes : Nat) : Branch.fault? (.extended bytes) 0 b ≠ none := by
  intro hf
  rw [quantitiesHold, List.all_eq_false] at h
  obtain ⟨pl, hpl, hrepeats⟩ := h
  have hrefused := Place.refuseAt_of_not_repeats (eq_false_of_ne_true hrepeats) bytes
  exact hrefused (Branch.fault?_eq_none_iff.1 hf pl hpl)

/-! ## What a compiled pattern is not refused for -/

theorem Rules.lateFault?_of_basic {depth : Nat} {before : Option Piece} {t : Token}
    (h : Rules.basic.refuse depth before t = none) : t.lateFault? = none := by
  simp only [basic, grammar] at h
  cases t with
  | atom a => cases a <;> simp_all [Token.lateFault?, Atom.hasReversedRange]
  | quantity q => grind [Token.lateFault?]
  | _ => rfl

theorem Token.needsBacktracking_of_basic {depth : Nat} {before : Option Piece} {t : Token}
    (h : Rules.basic.refuse depth before t = none) : t.needsBacktracking = false := by
  cases t with
  | atom a =>
    cases a with
    | groupAgain n => cases h
    | _ => rfl
  | opening k =>
    cases k with
    | ahead | notAhead => cases h
    | _ => rfl
  | _ => rfl

/-- Whether a token is no backreference, or one to a group that is open already. -/
def Token.namesOpen (opened : Nat) : Token → Bool
  | atom (.groupAgain n) => n ≤ opened
  | _ => true

theorem referencesOpen_cons (t : Token) (ts : List Token) (opened : Nat) :
    referencesOpen opened (t :: ts) =
      (t.namesOpen opened && referencesOpen (opened + if t.isCapture then 1 else 0) ts) := by
  cases t with
  | atom a => cases a <;> rfl
  | opening k => cases k <;> rfl
  | _ => rfl

theorem referencesOpen_append (ts us : List Token) (opened : Nat) :
    referencesOpen opened (ts ++ us) =
      (referencesOpen opened ts && referencesOpen (opened + ts.countP Token.isCapture) us) := by
  induction ts generalizing opened with
  | nil => rfl
  | cons t ts ih =>
    rw [List.cons_append, referencesOpen_cons, ih, referencesOpen_cons, List.countP_cons,
      Bool.and_assoc, Nat.add_assoc, Nat.add_comm (if t.isCapture = true then 1 else 0)]

/-- Tokens without a backreference name no group that is missing. -/
theorem referencesOpen_of_forall {ts : List Token}
    (h : ∀ t ∈ ts, t.needsBacktracking = false) (opened : Nat) :
    referencesOpen opened ts = true := by
  induction ts generalizing opened with
  | nil => rfl
  | cons t ts ih =>
    have ht : t.namesOpen opened = true := by
      have hback := h t List.mem_cons_self
      unfold Token.namesOpen
      split
      · cases hback
      · rfl
    rw [referencesOpen_cons, ht, Bool.true_and]
    exact ih (fun x hx => h x (List.mem_cons_of_mem _ hx)) _

/-- Moved backreferences find their groups behind as many more groups. -/
theorem referencesOpen_map_shift {ts : List Token} {opened : Nat}
    (h : referencesOpen opened ts = true) (d : Nat) :
    referencesOpen (opened + d) (ts.map (Token.mapAtom (Atom.shift d))) = true := by
  induction ts generalizing opened with
  | nil => rfl
  | cons t ts ih =>
    rw [referencesOpen_cons, Bool.and_eq_true] at h
    have hcapture : (t.mapAtom (Atom.shift d)).isCapture = t.isCapture := by
      cases t <;> rfl
    have hopen : (t.mapAtom (Atom.shift d)).namesOpen (opened + d) = true := by
      cases t with
      | atom a =>
        cases a with
        | groupAgain n =>
          have hn : n ≤ opened := by simpa [Token.namesOpen] using h.1
          have hle : (if n ≤ Lexeme.largestGroup then n + d else n) ≤ opened + d := by
            split <;> omega
          simpa [Token.mapAtom, Atom.shift, Token.namesOpen] using hle
        | _ => rfl
      | _ => rfl
    rw [List.map_cons, referencesOpen_cons, hopen, hcapture, Bool.true_and, Nat.add_right_comm]
    exact ih h.2

theorem le_of_referencesOpen {ts : List Token} {opened n : Nat}
    (h : referencesOpen opened ts = true) (hn : .atom (.groupAgain n) ∈ ts) :
    n ≤ opened + ts.countP Token.isCapture := by
  induction ts generalizing opened with
  | nil => exact absurd hn List.not_mem_nil
  | cons t ts ih =>
    rw [referencesOpen_cons, Bool.and_eq_true] at h
    rw [List.countP_cons]
    rcases List.mem_cons.1 hn with rfl | hn
    · have hle : n ≤ opened := by simpa [Token.namesOpen] using h.1
      omega
    · have hle := ih h.2 hn
      omega

namespace Built

variable {p : Built} {b : Branch}

theorem mem_places_expressionRow {pl : Place} (h : pl ∈ Branch.places 0 b) :
    pl ∈ Branch.places 0 (p.expressionRow b) := by
  rw [expressionRow, Branch.places_append]
  exact List.mem_append_right _ h

theorem mem_tokens_expressionRow {t : Token} (h : t ∈ b.tokens) :
    t ∈ (p.expressionRow b).tokens := by
  rw [tokens_expressionRow]
  exact List.mem_append_right _ h

theorem of_mem_tokens_expressionRow {t : Token} (h : t ∈ (p.expressionRow b).tokens) :
    (∃ fs, t = .flags fs) ∨ t ∈ b.tokens := by
  rw [tokens_expressionRow, List.mem_append] at h
  refine h.imp_left fun h => ?_
  obtain ⟨fs, -, rfl⟩ := Option.map_eq_some_iff.1 (Option.mem_toList.1 h)
  exact ⟨fs, rfl⟩

theorem referencesOpen_expressionRow (p : Built) (b : Branch) (opened : Nat) :
    referencesOpen opened (p.expressionRow b).tokens = referencesOpen opened b.tokens := by
  rw [tokens_expressionRow]
  cases p.flags.inline? <;> rfl

/-- The flags in front of a row are never wrong by themselves. -/
theorem of_mem_places_expressionRow {pl : Place} (h : pl ∈ Branch.places 0 (p.expressionRow b)) :
    (∃ fs, pl = ⟨0, none, .flags fs⟩) ∨ pl ∈ Branch.places 0 b := by
  rw [expressionRow, Branch.places_append] at h
  rcases List.mem_append.1 h with h | h
  · cases hfs : p.flags.inline? with
    | none =>
      rw [hfs] at h
      exact absurd h List.not_mem_nil
    | some fs =>
      rw [hfs] at h
      exact .inl ⟨fs, List.mem_singleton.1 h⟩
  · exact .inr h

/-- In a compiled pattern of the basic engine no token is refused. -/
theorem refuseAt_basic_of_compiles (hb : Spells p.literal [b]) (he : p.extended = false)
    (hc : ∃ c, p.compile.value = .ok c) {pl : Place} (h : pl ∈ Branch.places 0 b) :
    Rules.basic.refuseAt pl = none :=
  Branch.fault?_eq_none_iff.1 ((compiles_basic_iff hb he).1 hc).1 pl (mem_places_expressionRow h)

theorem exists_place_or {t : Token} (h : t ∈ b.tokens) :
    t = .bar ∨ t = .closing ∨ ∃ pl ∈ Branch.places 0 b, pl.token = t := by
  cases hp : t.isPlaced with
  | true => exact .inr (.inr (Branch.exists_mem_places h hp 0))
  | false => cases t <;> simp_all [Token.isPlaced]

/-- In a compiled pattern no bound is too large and no range is in the wrong order. -/
theorem lateFault?_of_compiles (hb : Spells p.literal [b]) (hc : ∃ c, p.compile.value = .ok c)
    {t : Token} (ht : t ∈ b.tokens) : t.lateFault? = none := by
  cases he : p.extended with
  | true => exact ((compiles_extended_iff hb he).1 hc).2.2.1 t (mem_tokens_expressionRow ht)
  | false =>
    obtain rfl | rfl | ⟨pl, hpl, rfl⟩ := exists_place_or ht
    · rfl
    · rfl
    · exact Rules.lateFault?_of_basic (refuseAt_basic_of_compiles hb he hc hpl)

theorem needsBacktracking_of_compiles_basic (hb : Spells p.literal [b]) (he : p.extended = false)
    (hc : ∃ c, p.compile.value = .ok c) {t : Token} (ht : t ∈ b.tokens) :
    t.needsBacktracking = false := by
  obtain rfl | rfl | ⟨pl, hpl, rfl⟩ := exists_place_or ht
  · rfl
  · rfl
  · exact Token.needsBacktracking_of_basic (refuseAt_basic_of_compiles hb he hc hpl)

/-- In a compiled pattern every backreference names a group that opens before it. -/
theorem referencesOpen_of_compiles (hb : Spells p.literal [b])
    (hc : ∃ c, p.compile.value = .ok c) : referencesOpen 0 b.tokens = true := by
  cases he : p.extended with
  | true =>
    have h := ((compiles_extended_iff hb he).1 hc).2.1
    rwa [referencesOpen_expressionRow] at h
  | false =>
    exact referencesOpen_of_forall
      (fun t ht => needsBacktracking_of_compiles_basic hb he hc ht) 0

end Built

/-! ## Bytes -/

/-- Whether a token takes part in the numbering of groups. -/
def Token.isNumbered : Token → Bool
  | opening .capture => true
  | atom (.groupAgain _) => true
  | _ => false

theorem Token.isNumbered_of_ofChar? {c : Char} {a : Atom} (h : Atom.ofChar? c = some a) :
    isNumbered (.atom a) = false := by
  cases a with
  | groupAgain n =>
    unfold Atom.ofChar? at h
    split at h <;> cases h
  | _ => rfl

theorem Token.isNumbered_of_escaped {c : Char} {a : Atom} (h : escaped c = .atom a) :
    isNumbered (.atom a) = false := by
  cases a with
  | groupAgain n =>
    unfold escaped at h
    grind
  | _ => rfl

/-- A group that captures has its parentheses, and a backreference its sign and a digit. -/
theorem Spells.two_mul_countP_le {t : Text} {bs : Branches} (h : Spells t bs) :
    2 * bs.tokens.countP Token.isNumbered ≤ t.length := by
  have atom {a : Atom} {b : Branch} {bs : Branches} : (Branches.tokens ((.atom a :: b) :: bs)) =
      .atom a :: Branches.tokens (b :: bs) := Branches.tokens_cons_cons _ b bs
  induction h with
  | nil => exact Nat.zero_le _
  | bar ht ih =>
    rw [Branches.tokens_cons ht.ne_nil, List.length_cons]
    exact Nat.le_succ_of_le ih
  | single ha _ ih =>
    rw [atom, List.countP_cons_of_neg (by simp [Token.isNumbered_of_ofChar? ha]), List.length_cons]
    exact Nat.le_succ_of_le ih
  | escape _ ha _ ih =>
    rw [atom, List.countP_cons_of_neg (by simp [Token.isNumbered_of_escaped ha]), List.length_cons,
      List.length_cons]
    omega
  | reference n _ _ ih =>
    have hpos := List.length_pos_iff.2 (Text.decimal_ne_nil n)
    rw [atom, List.countP_cons_of_pos rfl, List.length_cons, List.length_append]
    omega
  | bracket negated _ _ _ _ ih =>
    rw [atom, List.countP_cons_of_neg (by simp [Token.isNumbered])]
    simp only [classText, List.length_cons, List.length_append]
    omega
  | @group k q s t cs _ _ _ _ _ ihs iht =>
    have hopen : 1 ≤ k.text.length := by
      obtain ⟨t, ht⟩ := k.exists_text
      rw [ht]
      exact Nat.le_add_left 1 _
    rw [Branches.tokens_cons_cons, List.countP_append]
    simp only [List.length_cons, List.length_append]
    have hpiece : (Piece.times q (.group k cs)).tokens.countP Token.isNumbered ≤
        1 + cs.tokens.countP Token.isNumbered := by
      cases q <;> cases k <;>
        simp [Piece.times, Piece.tokens, Token.isNumbered, List.countP_cons, Nat.add_comm]
    omega

theorem countP_isCapture_lt {ts : List Token} {n : Nat} (h : .atom (.groupAgain n) ∈ ts) :
    ts.countP Token.isCapture < ts.countP Token.isNumbered := by
  have hmono (us : List Token) : us.countP Token.isCapture ≤ us.countP Token.isNumbered :=
    List.countP_mono_left fun t _ ht => by
      cases t with
      | opening k => cases k <;> first | rfl | cases ht
      | _ => cases ht
  obtain ⟨before, after, rfl⟩ := List.append_of_mem h
  have hb := hmono before
  have ha := hmono after
  simp only [List.countP_append, List.countP_cons, Token.isCapture, Token.isNumbered] at hb ha ⊢
  simp only [if_true, Bool.false_eq_true, if_false]
  omega

theorem Text.length_le_byteLength (t : Text) : t.length ≤ t.byteLength := by
  induction t with
  | nil => exact Nat.zero_le _
  | cons c t ih =>
    have hc := c.utf8Size_pos
    simp only [byteLength, List.foldr_cons, List.length_cons] at ih ⊢
    omega

/-! ## The tree of an appended pattern -/

/-- The places of an embedded pattern are those of its tree, in one more group if it has
flags. -/
theorem Built.places_scopedRow (p : Built) (depth d : Nat) (row : Branch) :
    ∃ before : List Place, ∃ n, (∀ pl ∈ before, ∃ fs, pl.token = .opening (.flagged fs)) ∧
      Branch.places depth (p.scopedRow (Branch.mapAtoms (Atom.shift d) row)) =
        before ++ (Branch.places 0 row).map (Place.embedded d n) := by
  have hplaces (n : Nat) : Branch.places n (Branch.mapAtoms (Atom.shift d) row) =
      (Branch.places 0 row).map (Place.embedded d n) := by
    have h := Branch.places_add n (Branch.mapAtoms (Atom.shift d) row) 0
    rw [Nat.zero_add] at h
    rw [h, Branch.places_mapAtoms, List.map_map]
    rfl
  unfold scopedRow
  cases p.flags.inline? with
  | none => exact ⟨[], depth, by simp, hplaces depth⟩
  | some fs =>
    refine ⟨[⟨depth, none, .opening (.flagged fs)⟩], depth + 1, by simp, ?_⟩
    rw [← hplaces, Branch.places, Piece.places, Branches.places_singleton]
    simp [Branch.places]

theorem Built.tokens_scopedRow (p : Built) (row : Branch) :
    ∃ before after : List Token, (∀ t ∈ before, ∃ fs, t = .opening (.flagged fs)) ∧
      (∀ t ∈ after, t = .closing) ∧ (p.scopedRow row).tokens = before ++ (row.tokens ++ after) := by
  unfold scopedRow
  cases p.flags.inline? with
  | none => exact ⟨[], [], by simp, by simp, by simp⟩
  | some fs =>
    refine ⟨[.opening (.flagged fs)], [.closing], by simp, by simp, ?_⟩
    simp [Branch.tokens, Piece.tokens]

namespace Builder

variable (b other : Builder)

/-- The unit that an appended pattern becomes. -/
def appended (p : Built) : Segment :=
  (b.waiting.setExact 1).segmentOf (.pattern (p.embedded b.groups))

/-- An appended pattern is one more unit behind all that the host would write. -/
theorem build_append :
    (b.append other).value.build.value =
      ⟨b.build.value.literal ++ (b.appended other.build.value).text, b.flags,
        b.groups + other.build.value.groups, b.extended || other.build.value.extended⟩ := by
  have happ : (b.append other).value = ((b.exactly 1).value.like other).value := rfl
  have hidle : (b.exactly 1).value.pending.content = none := by
    rw [value_exactly]
    exact b.content_waiting
  rw [happ, value_build, value_like_of_none _ _ hidle, value_build b, value_exactly]
  simp [written, heldSegments, Fragment.segment?_eq, keptGroups, capturesNothing,
    Fragment.hasContent]
  rfl

/-- The piece that an appended pattern becomes. -/
def appendedPiece (p : Built) (row : Branch) : Piece :=
  .group (if b.waiting.capture then .capture else .plain)
    [[.repeated ⟨1, some 1, !b.waiting.reluctant⟩
      (.group .plain [p.scopedRow (Branch.mapAtoms (Atom.shift b.groups) row)])]]

variable {b other} {hostRow row : Branch}

theorem spells_append (hhost : Spells b.build.value.literal [hostRow])
    (hrow : Spells other.build.value.literal [row]) :
    Spells (b.append other).value.build.value.literal
      [hostRow ++ [b.appendedPiece other.build.value row]] := by
  have hunit : Spells (b.appended other.build.value).text
      [[b.appendedPiece other.build.value row]] := by
    have hs := (b.waiting.setExact 1).spells_append
      (c := .pattern (other.build.value.embedded b.groups))
      (Built.spells_embedded hrow b.groups) .nil
    rw [List.append_nil] at hs
    exact hs
  rw [build_append]
  refine hhost.append hunit ?_
  simp only [appended, Segment.text, Fragment.segmentOf]
  split <;> rfl

/-- Around the places of an appended pattern there are groups that open, and the quantity
of the whole. -/
theorem places_appendedPiece (b : Builder) (p : Built) (row : Branch) :
    ∃ before : List Place, ∃ n, (∀ pl ∈ before, ∃ k, pl.token = .opening k ∧
        k ≠ .ahead ∧ k ≠ .notAhead) ∧
      Branch.places 0 [b.appendedPiece p row] =
        before ++ ((Branch.places 0 row).map (Place.embedded b.groups n) ++
          [⟨1, some (.group .plain [p.scopedRow (Branch.mapAtoms (Atom.shift b.groups) row)]),
            .quantity ⟨1, some 1, !b.waiting.reluctant⟩⟩]) := by
  obtain ⟨before, n, hbefore, hplaces⟩ := p.places_scopedRow 2 b.groups row
  refine ⟨⟨0, none, .opening (if b.waiting.capture then .capture else .plain)⟩ ::
    ⟨1, none, .opening .plain⟩ :: before, n, fun pl hpl => ?_, ?_⟩
  · rcases List.mem_cons.1 hpl with rfl | hpl
    · refine ⟨_, rfl, ?_, ?_⟩ <;> split <;> simp
    rcases List.mem_cons.1 hpl with rfl | hpl
    · exact ⟨_, rfl, by simp, by simp⟩
    · obtain ⟨fs, hfs⟩ := hbefore pl hpl
      exact ⟨_, hfs, by simp, by simp⟩
  · simp [appendedPiece, Branch.places, Piece.places, Branches.places, hplaces]

theorem tokens_appendedPiece (b : Builder) (p : Built) (row : Branch) :
    ∃ before after : List Token,
      before.countP Token.isCapture = (if b.waiting.capture then 1 else 0) ∧
      (∀ t ∈ before ++ after, t.needsBacktracking = false ∧ t.lateFault? = none) ∧
      Branch.tokens [b.appendedPiece p row] =
        before ++ (row.tokens.map (Token.mapAtom (Atom.shift b.groups)) ++ after) := by
  obtain ⟨before, after, hbefore, hafter, htokens⟩ :=
    p.tokens_scopedRow (Branch.mapAtoms (Atom.shift b.groups) row)
  refine ⟨.opening (if b.waiting.capture then .capture else .plain) :: .opening .plain :: before,
    after ++ [.closing, .quantity ⟨1, some 1, !b.waiting.reluctant⟩, .closing], ?_, ?_, ?_⟩
  · have h0 : before.countP Token.isCapture = 0 := by
      refine List.countP_eq_zero.2 fun t ht => ?_
      obtain ⟨fs, rfl⟩ := hbefore t ht
      exact Bool.false_ne_true
    cases b.waiting.capture <;> simp [List.countP_cons, Token.isCapture, h0]
  · intro t ht
    simp only [List.cons_append, List.mem_cons, List.mem_append, List.not_mem_nil, or_false] at ht
    rcases ht with rfl | rfl | ht | ht | rfl | rfl | rfl
    · cases b.waiting.capture <;> exact ⟨rfl, rfl⟩
    · exact ⟨rfl, rfl⟩
    · obtain ⟨fs, rfl⟩ := hbefore t ht
      exact ⟨rfl, rfl⟩
    · obtain rfl := hafter t ht
      exact ⟨rfl, rfl⟩
    · exact ⟨rfl, rfl⟩
    · exact ⟨rfl, rfl⟩
    · exact ⟨rfl, rfl⟩
  · simp [appendedPiece, Branch.tokens, Piece.tokens, htokens, Branch.tokens_mapAtoms]

/-- Whether all that has a quantity is repeated is decided in the host, in the pattern, and
by the pattern as a whole. -/
theorem quantitiesHold_append (p : Built) :
    (hostRow ++ [b.appendedPiece p row]).quantitiesHold =
      (hostRow.quantitiesHold && (row.quantitiesHold && Branch.isRepeatable row)) := by
  obtain ⟨before, n, hbefore, hplaces⟩ := b.places_appendedPiece p row
  have hfirst : before.all Place.repeats = true := by
    refine List.all_eq_true.2 fun pl hpl => ?_
    obtain ⟨k, hk, -⟩ := hbefore pl hpl
    simp [Place.repeats, hk]
  have hbody : ((Branch.places 0 row).map (Place.embedded b.groups n)).all Place.repeats =
      row.quantitiesHold := by
    rw [List.all_map, Branch.quantitiesHold]
    exact congrArg (List.all _) (funext (Place.repeats_embedded b.groups n))
  have hwhole (q : Quantity) : Place.repeats ⟨1, some (.group .plain
      [p.scopedRow (Branch.mapAtoms (Atom.shift b.groups) row)]), .quantity q⟩ =
        Branch.isRepeatable row := by
    show Branch.isRepeatable _ = _
    rw [Built.isRepeatable_scopedRow, Branch.isRepeatable_mapAtoms (Atom.isRepeatable_shift _)]
  rw [Branch.quantitiesHold, Branch.places_append, List.all_append, hplaces, List.all_append,
    List.all_append, hfirst, hbody, List.all_cons, hwhole]
  simp [Branch.quantitiesHold]

end Builder

/-! ## What the engines say of an appended pattern -/

/-- What the basic engine takes alone it takes where it is embedded. -/
theorem Rules.basic_refuseAt_embedded {pl : Place} (h : Rules.basic.refuseAt pl = none)
    (d n : Nat) : Rules.basic.refuseAt (pl.embedded d n) = none := by
  obtain ⟨depth, before, token⟩ := pl
  cases token with
  | atom a =>
    cases a with
    | groupAgain m => cases h
    | _ => exact h
  | quantity q =>
    have hcan : canRepeat (before.map (Piece.mapAtoms (Atom.shift d))) = canRepeat before := by
      cases before with
      | none => rfl
      | some p => cases p <;> rfl
    simp only [refuseAt, basic, grammar, Place.embedded, Place.mapAtoms, Place.deepen,
      Token.mapAtom, hcan] at h ⊢
    exact h
  | looseBrace => simp [refuseAt, basic, grammar] at h
  | fault f => cases h
  | opening k => cases k <;> exact h
  | _ => rfl

/-- What the extended engine refuses of a token that can be read and names no group beyond
the size of the pattern: groups that are too many, and quantities on what is not repeated. -/
theorem Rules.refuseAt_extended {bytes : Nat} {pl : Place} (hf : ∀ f, pl.token ≠ .fault f)
    (hn : ∀ n, pl.token = .atom (.groupAgain n) → n < bytes / 2) :
    (extended bytes).refuseAt pl = none ∨ (extended bytes).refuseAt pl = some .tooDeep ∨
      (extended bytes).refuseAt pl = some .nothingToRepeat ∧ pl.repeats = false := by
  obtain ⟨depth, before, token⟩ := pl
  cases token with
  | atom a =>
    cases a with
    | groupAgain n => exact .inl (if_neg (Nat.not_le.2 (hn n rfl)))
    | _ => exact .inl rfl
  | quantity q =>
    rw [refuseAt, extended_refuse_quantity, Place.repeats]
    cases repeatsExtended before with
    | true => exact .inl rfl
    | false => exact .inr (.inr ⟨rfl, rfl⟩)
  | opening k =>
    show (if _ then _ else _) = none ∨ (if _ then _ else _) = some Fault.tooDeep ∨ _
    split
    · exact .inr (.inl rfl)
    · exact .inl rfl
  | flags fs =>
    show (if _ then _ else _) = none ∨ (if _ then _ else _) = some Fault.tooDeep ∨ _
    split
    · exact .inr (.inl rfl)
    · exact .inl rfl
  | fault f => exact absurd rfl (hf f)
  | _ => exact .inl rfl

/-- Where the basic engine finds no fault in the tree, only the size can be refused. -/
theorem Built.compile_of_basic {p : Built} {b : Branch} (hb : Spells p.literal [b])
    (he : p.extended = false) (h : Branch.fault? .basic 0 (p.expressionRow b) = none) :
    (∃ c, p.compile.value = .ok c) ∨
      ∃ e, p.compile.value = .error e ∧ (e.fault = .tooDeep ∨ e.fault = .tooLarge) := by
  have hengine : p.engine = .basic := by rw [engine, he]; rfl
  cases hv : p.compile.value with
  | ok c => exact .inl ⟨c, rfl⟩
  | error e =>
    refine .inr ⟨e, rfl, ?_⟩
    obtain ⟨f, hf, rfl⟩ := compile_eq_error_iff.1 hv
    rw [hengine, readFor, readBasic_expression hb, h] at hf
    dsimp only at hf
    split at hf
    · exact .inl (Except.error.inj hf).symm
    · split at hf
      · exact .inr (Except.error.inj hf).symm
      · cases hf

theorem Built.compile_of_extended {p : Built} {b : Branch} (hb : Spells p.literal [b])
    (he : p.extended = true) {f : Fault}
    (h : Branch.fault? (.extended (Text.byteLength p.expression.text)) 0 (p.expressionRow b) =
      some f) : p.compile.value = .error ⟨.extended, f⟩ := by
  have hengine : p.engine = .extended := by rw [engine, he]; rfl
  refine compile_eq_error_iff.2 ⟨f, ?_, by rw [hengine]⟩
  rw [hengine, readFor, readExtended_expression hb, h]

theorem Built.quantitiesHold_expressionRow (p : Built) (b : Branch) :
    (p.expressionRow b).quantitiesHold = b.quantitiesHold := by
  rw [Branch.quantitiesHold, expressionRow, Branch.places_append, List.all_append]
  cases p.flags.inline? <;> rfl

namespace Builder

variable {b other : Builder} {hostRow row : Branch}

theorem mem_places_append {p q : Built} {pl : Place}
    (h : pl ∈ Branch.places 0 (q.expressionRow (hostRow ++ [b.appendedPiece p row]))) :
    (∃ fs, pl = ⟨0, none, .flags fs⟩) ∨ pl ∈ Branch.places 0 hostRow ∨
      (∃ k, pl.token = .opening k ∧ k ≠ .ahead ∧ k ≠ .notAhead) ∨
        (∃ pl' ∈ Branch.places 0 row, ∃ n, pl = pl'.embedded b.groups n) ∨
          ∃ bs greedy, pl = ⟨1, some (.group .plain bs), .quantity ⟨1, some 1, greedy⟩⟩ := by
  rcases Built.of_mem_places_expressionRow h with h | h
  · exact .inl h
  obtain ⟨before, n, hbefore, hplaces⟩ := b.places_appendedPiece p row
  rw [Branch.places_append, hplaces] at h
  simp only [List.mem_append, List.mem_map, List.mem_singleton] at h
  rcases h with h | h | ⟨pl', hpl, rfl⟩ | rfl
  · exact .inr (.inl h)
  · exact .inr (.inr (.inl (hbefore pl h)))
  · exact .inr (.inr (.inr (.inl ⟨pl', hpl, n, rfl⟩)))
  · exact .inr (.inr (.inr (.inr ⟨_, _, rfl⟩)))

section

variable (hhost : Spells b.build.value.literal [hostRow])
  (hrow : Spells other.build.value.literal [row])
  (hc : ∃ c, b.build.value.compile.value = .ok c)
  (hc' : ∃ c, other.build.value.compile.value = .ok c)
include hhost hrow hc hc'

/-- Two patterns of the basic engine have no fault together. -/
theorem fault?_basic_append (hb : b.build.value.extended = false)
    (ho : other.build.value.extended = false) (q : Built) :
    Branch.fault? .basic 0
      (q.expressionRow (hostRow ++ [b.appendedPiece other.build.value row])) = none := by
  refine Branch.fault?_eq_none_iff.2 fun pl hpl => ?_
  obtain ⟨fs, rfl⟩ | h | ⟨k, hk, h₁, h₂⟩ | ⟨pl', hpl', n, rfl⟩ | ⟨bs, greedy, rfl⟩ :=
    mem_places_append hpl
  · rfl
  · exact Built.refuseAt_basic_of_compiles hhost hb hc h
  · rw [Rules.refuseAt, hk]
    cases k with
    | ahead => exact absurd rfl h₁
    | notAhead => exact absurd rfl h₂
    | _ => rfl
  · exact Rules.basic_refuseAt_embedded
      (Built.refuseAt_basic_of_compiles hrow ho hc' hpl') b.groups n
  · rfl

/-- The bounds and the ranges of an appended pattern are those of the two patterns. -/
theorem lateFault?_append {t : Token}
    (ht : t ∈ (hostRow ++ [b.appendedPiece other.build.value row]).tokens) :
    t.lateFault? = none := by
  obtain ⟨before, after, -, hside, htokens⟩ := b.tokens_appendedPiece other.build.value row
  rw [Branch.tokens_append, htokens] at ht
  simp only [List.mem_append, List.mem_map] at ht
  rcases ht with ht | ht | ⟨u, hu, rfl⟩ | ht
  · exact Built.lateFault?_of_compiles hhost hc ht
  · exact (hside t (List.mem_append_left _ ht)).2
  · have hlate := Built.lateFault?_of_compiles hrow hc' hu
    cases u with
    | atom a => cases a <;> exact hlate
    | _ => exact hlate
  · exact (hside t (List.mem_append_right _ ht)).2

/-- The backreferences of an appended pattern find their groups behind those of the host. -/
theorem referencesOpen_append (hb : b.IsCounted) :
    referencesOpen 0 (hostRow ++ [b.appendedPiece other.build.value row]).tokens = true := by
  obtain ⟨before, after, hcaptures, hside, htokens⟩ :=
    b.tokens_appendedPiece other.build.value row
  have hgroups : hostRow.tokens.countP Token.isCapture + before.countP Token.isCapture =
      b.groups := by
    have hopen := hhost.openings_eq
    rw [hb.openings_literal, value_build, Branches.tokens_singleton] at hopen
    rw [← hopen, hcaptures]
    exact (hb.keptGroups_eq ▸ hb.groups_eq_of_written.symm :)
  rw [Branch.tokens_append, htokens, FluentPattern.referencesOpen_append,
    FluentPattern.referencesOpen_append, FluentPattern.referencesOpen_append,
    Built.referencesOpen_of_compiles hhost hc,
    referencesOpen_of_forall fun t ht => (hside t (List.mem_append_left _ ht)).1,
    referencesOpen_of_forall fun t ht => (hside t (List.mem_append_right _ ht)).1,
    Nat.zero_add, hgroups]
  have hmoved := referencesOpen_map_shift (Built.referencesOpen_of_compiles hrow hc') b.groups
  rw [Nat.zero_add] at hmoved
  rw [hmoved]
  rfl

/-- An appended pattern has twice as many bytes as it has groups that its backreferences may
name. -/
theorem lt_of_groupAgain_mem_append (hb : b.IsCounted) {n : Nat}
    (hn : .atom (.groupAgain n) ∈
      (hostRow ++ [b.appendedPiece other.build.value row]).tokens) :
    n < Text.byteLength (b.append other).value.build.value.expression.text / 2 := by
  have hle := le_of_referencesOpen (referencesOpen_append hhost hrow hc hc' hb) hn
  have hnumbered := (spells_append hhost hrow).two_mul_countP_le
  rw [Branches.tokens_singleton] at hnumbered
  have hlt : List.countP Token.isCapture
      (hostRow ++ [b.appendedPiece other.build.value row]).tokens <
        List.countP Token.isNumbered
          (hostRow ++ [b.appendedPiece other.build.value row]).tokens :=
    countP_isCapture_lt hn
  have hbytes := Text.length_le_byteLength (b.append other).value.build.value.literal
  have htotal : Text.byteLength (b.append other).value.build.value.literal ≤
      Text.byteLength (b.append other).value.build.value.expression.text := by
    rw [Built.expression, Text.byteLength_append]
    exact Nat.le_add_left _ _
  omega

/-- What the extended engine finds in the tree of an appended pattern: nothing, groups that
are too many, or a quantity on what it does not repeat. -/
theorem fault?_extended_append (hb : b.IsCounted) :
    let q := (b.append other).value.build.value
    let tree := hostRow ++ [b.appendedPiece other.build.value row]
    Branch.fault? (.extended (Text.byteLength q.expression.text)) 0 (q.expressionRow tree) = none ∨
      Branch.fault? (.extended (Text.byteLength q.expression.text)) 0 (q.expressionRow tree) =
          some .tooDeep ∨
        Branch.fault? (.extended (Text.byteLength q.expression.text)) 0 (q.expressionRow tree) =
            some .nothingToRepeat ∧ (q.expressionRow tree).quantitiesHold = false := by
  intro q tree
  cases hf : Branch.fault? (.extended (Text.byteLength q.expression.text)) 0
    (q.expressionRow tree) with
  | none => exact .inl rfl
  | some f =>
    obtain ⟨pl, hpl, hr⟩ := Branch.exists_refuseAt hf
    have htok := Branch.mem_tokens_of_mem_places hpl
    have hfault (g : Fault) : pl.token ≠ .fault g := fun hg =>
      Branch.fault_notMem_tokens g _ (hg ▸ htok)
    have hgroup (n : Nat) (hn : pl.token = .atom (.groupAgain n)) :
        n < Text.byteLength q.expression.text / 2 := by
      refine lt_of_groupAgain_mem_append hhost hrow hc hc' hb ?_
      rw [hn] at htok
      rcases Built.of_mem_tokens_expressionRow htok with ⟨fs, hfs⟩ | h
      · cases hfs
      · exact h
    rcases Rules.refuseAt_extended hfault hgroup with h | h | ⟨h, hrepeats⟩
    · rw [h] at hr
      cases hr
    · exact .inr (.inl (hr.symm.trans h))
    · refine .inr (.inr ⟨hr.symm.trans h, ?_⟩)
      rw [Branch.quantitiesHold, List.all_eq_false]
      exact ⟨pl, hpl, by simp [hrepeats]⟩

end

end Builder

theorem Call.spells_build {calls : List Call} {row : Branch}
    (h : readPattern .grammar (Call.build calls).value.literal = .ok [row]) :
    Spells (Call.build calls).value.literal [row] := by
  obtain ⟨b, hb⟩ := (Call.isFormed_builder calls).isRow_literal
  have heq := hb.readPattern.symm.trans h
  obtain rfl : b = row := by simpa using heq
  exact hb

theorem Call.build_append (host calls : List Call) :
    (Call.build (host ++ [.pattern .append calls])).value =
      ((Call.builder host).append (Call.builder calls)).value.build.value := by
  rw [Call.build, Logged.value_bind, Call.value_applyAll_append, Call.applyAll, Logged.value_bind,
    Call.applyAll, Logged.value_pure, Call.apply, Logged.value_bind]
  rfl

/-- What the extended engine takes of a built pattern of its own: a tree without a fault, whose
backreferences name open groups, and whose bounds and ranges are in order. -/
theorem Call.compiles_of_extended {calls : List Call} {b : Branch}
    (hb : Spells (Call.build calls).value.literal [b])
    (he : (Call.build calls).value.extended = true)
    (hf : Branch.fault? (.extended (Text.byteLength (Call.build calls).value.expression.text)) 0
      ((Call.build calls).value.expressionRow b) = none)
    (hopen : referencesOpen 0 b.tokens = true) (hlate : ∀ t ∈ b.tokens, t.lateFault? = none) :
    ∃ c, (Call.build calls).value.compile.value = .ok c := by
  refine (Built.compiles_extended_iff hb he).2 ⟨hf, ?_, fun t ht => ?_, fun hplain => ?_⟩
  · rwa [Built.referencesOpen_expressionRow]
  · rcases Built.of_mem_tokens_expressionRow ht with ⟨fs, rfl⟩ | ht
    · rfl
    · exact hlate t ht
  -- The label is exact, so that a pattern of the extended engine does need backtracking.
  · have hany := Call.any_needsBacktracking_expression calls
    rw [Built.tokens_expression_eq hb, hplain, he] at hany
    cases hany

/-- Appending a pattern that compiles to a host that compiles. In the basic engine the result
compiles unless it is too large or too deep. In the extended engine it does, unless it is
too deep, if that engine repeats all that has a quantity in the host and in the pattern, and
the pattern as a whole; and if not, it never does. -/
theorem Call.compile_append (host calls : List Call) {hostRow row : Branch}
    (hhost : readPattern .grammar (Call.build host).value.literal = .ok [hostRow])
    (hrow : readPattern .grammar (Call.build calls).value.literal = .ok [row])
    (hc : ∃ c, (Call.build host).value.compile.value = .ok c)
    (hc' : ∃ c, (Call.build calls).value.compile.value = .ok c) :
    let q := (Call.build (host ++ [.pattern .append calls])).value
    (q.extended = false → (∃ c, q.compile.value = .ok c) ∨
      ∃ e, q.compile.value = .error e ∧ (e.fault = .tooDeep ∨ e.fault = .tooLarge)) ∧
    (q.extended = true →
      ((hostRow.quantitiesHold && (row.quantitiesHold && Branch.isRepeatable row)) = true →
        (∃ c, q.compile.value = .ok c) ∨ q.compile.value = .error ⟨.extended, .tooDeep⟩) ∧
      ((hostRow.quantitiesHold && (row.quantitiesHold && Branch.isRepeatable row)) = false →
        q.compile.value = .error ⟨.extended, .nothingToRepeat⟩ ∨
          q.compile.value = .error ⟨.extended, .tooDeep⟩)) := by
  intro q
  have hq : q = ((Call.builder host).append (Call.builder calls)).value.build.value :=
    Call.build_append host calls
  have hcount := Call.isCounted_builder host
  have hhost : Spells (Call.builder host).build.value.literal [hostRow] :=
    Call.spells_build hhost
  have hrow : Spells (Call.builder calls).build.value.literal [row] := Call.spells_build hrow
  have htree : Spells q.literal
      [hostRow ++ [(Call.builder host).appendedPiece (Call.build calls).value row]] :=
    hq ▸ Builder.spells_append hhost hrow
  have hextended : q.extended = ((Call.build host).value.extended ||
      (Call.build calls).value.extended) := by
    rw [hq, Builder.build_append]
    exact congrArg (· || _) (Builder.extended_value_build _).symm
  refine ⟨fun he => ?_, fun he => ?_⟩
  · rw [hextended, Bool.or_eq_false_iff] at he
    refine Built.compile_of_basic htree (by rw [hextended, he.1, he.2]; rfl) ?_
    exact Builder.fault?_basic_append hhost hrow hc hc' he.1 he.2 q
  have hfault := Builder.fault?_extended_append hhost hrow hc hc' hcount
  dsimp only at hfault
  rw [← hq] at hfault
  have hquantities := q.quantitiesHold_expressionRow
    (hostRow ++ [(Call.builder host).appendedPiece (Call.build calls).value row])
  rw [Builder.quantitiesHold_append] at hquantities
  rw [← hquantities]
  refine ⟨fun hholds => ?_, fun hholds => ?_⟩
  · obtain hf | hf | ⟨-, hnot⟩ := hfault
    · refine .inl (Call.compiles_of_extended htree he hf ?_ fun t ht => ?_)
      · exact Builder.referencesOpen_append hhost hrow hc hc' hcount
      · exact Builder.lateFault?_append hhost hrow hc hc' ht
    · exact .inr (Built.compile_of_extended htree he hf)
    · exact absurd (hholds.symm.trans hnot) Bool.noConfusion
  · obtain hf | hf | ⟨hf, -⟩ := hfault
    · exact absurd hf (Branch.fault?_of_not_quantitiesHold hholds _)
    · exact .inr (Built.compile_of_extended htree he hf)
    · exact .inl (Built.compile_of_extended htree he hf)

/-- A text that is appended to a lookahead may follow it. -/
theorem Call.compile_append_afterLookahead :
    let p := (Call.build ([.pattern .ahead [.text .text ['a']]] ++
      [.pattern .append [.text .text ['b']]])).value
    (∃ c, p.compile.value = .ok c) ∨ p.compile.value = .error ⟨.extended, .tooDeep⟩ := by
  have hhost : Spells (Call.build [.pattern .ahead [.text .text ['a']]]).value.literal
      [[.group .ahead [[.group .plain [[.group .plain [[.atom (.char 'a')]]]]]]]] :=
    .group .ahead none trivial (.group .plain none trivial
      (.group .plain none trivial (.single rfl .nil) .nil) .nil) .nil
  have hrow : Spells (Call.build [.text .text ['b']]).value.literal
      [[.group .plain [[.group .plain [[.atom (.char 'b')]]]]]] :=
    .group .plain none trivial (.group .plain none trivial (.single rfl .nil) .nil) .nil
  exact ((Call.compile_append _ _ hhost.readPattern hrow.readPattern
    (Built.compiles_of_fault? (by decide +kernel))
    (Built.compiles_of_fault? (by decide +kernel))).2 rfl).1 rfl

/-- The empty host and a lookahead compile, and the lookahead appended to the host does
not. -/
theorem Call.not_compile_append_lookahead :
    (∃ c, (Call.build []).value.compile.value = .ok c) ∧
      (∃ c, (Call.build [.pattern .ahead [.text .once ['a']]]).value.compile.value = .ok c) ∧
        (Call.build [.pattern .append [.pattern .ahead [.text .once ['a']]]]).value.compile.value =
          .error ⟨.extended, .nothingToRepeat⟩ :=
  ⟨Built.compiles_of_fault? (by decide +kernel), Built.compiles_of_fault? (by decide +kernel),
    Built.compile_of_fault? (by decide +kernel)⟩

end FluentPattern
