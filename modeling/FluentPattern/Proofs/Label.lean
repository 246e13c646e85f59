import FluentPattern.Proofs.Finished
import FluentPattern.Proofs.Structure

/-!
# The label of a built pattern

A builder notes that its pattern needs the extended engine where a backreference, a
lookahead or a pattern that needs it comes in, and it never looks at what it has written.
Nothing that was noted is dropped, so the note is what the written tokens ask for. None
of them names group zero.

Main statements: `Builder.IsLabelled.apply` (every move keeps this),
`Call.isLabelled_builder`, `Call.extended_build` (the label is exact).
-/

namespace FluentPattern

/-! ## What tokens ask for -/

/-- What a token asks of the engine: nothing, backtracking, or a group that no pattern
has. -/
def Token.demand : Token → Nat
  | atom (.groupAgain 0) => 2
  | atom (.groupAgain _) => 1
  | opening .ahead => 1
  | opening .notAhead => 1
  | _ => 0

/-- The most that one of some tokens asks for. -/
def demandOf (ts : List Token) : Nat :=
  (ts.map Token.demand).foldr max 0

@[simp] theorem demandOf_nil : demandOf [] = 0 :=
  rfl

@[simp] theorem demandOf_cons (t : Token) (ts : List Token) :
    demandOf (t :: ts) = max t.demand (demandOf ts) :=
  rfl

@[simp] theorem demandOf_append (ts us : List Token) :
    demandOf (ts ++ us) = max (demandOf ts) (demandOf us) := by
  induction ts with
  | nil => simp
  | cons t ts ih => rw [List.cons_append, demandOf_cons, ih, demandOf_cons, Nat.max_assoc]

theorem demand_le_demandOf {t : Token} {ts : List Token} (h : t ∈ ts) :
    t.demand ≤ demandOf ts := by
  induction ts with
  | nil => exact absurd h List.not_mem_nil
  | cons u ts ih =>
    rw [demandOf_cons]
    rcases List.mem_cons.1 h with rfl | h
    · exact Nat.le_max_left _ _
    · exact Nat.le_trans (ih h) (Nat.le_max_right _ _)

theorem Token.needsBacktracking_eq (t : Token) : t.needsBacktracking = decide (0 < t.demand) := by
  unfold needsBacktracking demand
  split <;> split <;> simp_all

/-- Some token needs backtracking if something is asked for. -/
theorem any_needsBacktracking (ts : List Token) :
    ts.any Token.needsBacktracking = decide (0 < demandOf ts) := by
  induction ts with
  | nil => rfl
  | cons t ts ih =>
    rw [List.any_cons, ih, t.needsBacktracking_eq, demandOf_cons, ← Bool.decide_or]
    exact decide_eq_decide.2 (by omega)

/-- A backreference that is moved still asks for as much, unless it names group zero. -/
theorem Token.demand_mapAtom_shift {t : Token} (h : t.demand ≤ 1) (d : Nat) :
    (t.mapAtom (Atom.shift d)).demand = t.demand := by
  unfold mapAtom
  split
  · rename_i a
    cases a with
    | groupAgain n =>
      cases n with
      | zero => simp [demand] at h
      | succ n =>
        rw [Atom.shift]
        split
        · rw [Nat.add_right_comm]
          rfl
        · rfl
    | _ => rfl
  · rfl

theorem demandOf_map_shift {ts : List Token} (h : demandOf ts ≤ 1) (d : Nat) :
    demandOf (ts.map (Token.mapAtom (Atom.shift d))) = demandOf ts := by
  induction ts with
  | nil => rfl
  | cons t ts ih =>
    rw [demandOf_cons, Nat.max_le] at h
    rw [List.map_cons, demandOf_cons, demandOf_cons, ih h.2, t.demand_mapAtom_shift h.1]

/-! ## What texts ask for -/

/-- What a text asks of the engine. -/
def Text.demand (t : Text) : Nat :=
  demandOf (tokens t)

theorem Spells.demand_eq {t : Text} {bs : Branches} (h : Spells t bs) :
    t.demand = demandOf bs.tokens := by
  rw [Text.demand, h.tokens_eq]

theorem Spells.demand_row {t : Text} {b : Branch} (h : Spells t [b]) :
    t.demand = demandOf b.tokens := by
  rw [h.demand_eq, Branches.tokens_singleton]

theorem Spells.demand_of_eq {t : Text} {b : Branch} (h : Spells t [b]) {n : Nat}
    (hn : demandOf b.tokens = n) : t.demand = n :=
  h.demand_row.trans hn

theorem Piece.demandOf_tokens_times (q : Option Quantity) (p : Piece) :
    demandOf (Piece.times q p).tokens = demandOf p.tokens := by
  cases q with
  | none => rfl
  | some q => simp [Piece.times, Piece.tokens, Token.demand]

/-- A group asks for what its opening does and what is inside it. -/
theorem Piece.demandOf_tokens_group (k : GroupKind) (bs : Branches) :
    demandOf (Piece.group k bs).tokens = max (Token.opening k).demand (demandOf bs.tokens) := by
  simp [Piece.tokens, Token.demand]

namespace Text.IsRow

variable {t : Text} (ht : t.IsRow)
include ht

theorem demand_group {k : GroupKind} (hk : k.IsWritable) (q : Option Quantity) :
    Text.demand (k.text ++ (t ++ ')' :: (Quantity.suffix q ++ []))) =
      max (Token.opening k).demand t.demand := by
  obtain ⟨b, hb⟩ := ht
  rw [(Spells.group k q hk hb .nil).demand_row, hb.demand_eq, Branch.tokens, demandOf_append,
    Piece.demandOf_tokens_times, Piece.demandOf_tokens_group]
  exact Nat.max_zero _

theorem demand_wrapped_append (q : Option Quantity) :
    Text.demand (t.wrapped ++ Quantity.suffix q) = t.demand := by
  have hg := ht.demand_group (k := .plain) trivial q
  rw [List.append_nil] at hg
  simpa [Text.wrapped, GroupKind.text, Token.demand] using hg

theorem demand_wrapped : Text.demand t.wrapped = t.demand := by
  have h := ht.demand_wrapped_append none
  rwa [Quantity.suffix, List.append_nil] at h

theorem demand_shift (h : t.demand ≤ 1) (d : Nat) :
    Text.demand (shiftReferences d t) = t.demand := by
  obtain ⟨b, hb⟩ := ht
  rw [hb.demand_eq] at h ⊢
  rw [(hb.shift d).demand_eq, Branches.tokens_mapAtoms, demandOf_map_shift h]

end Text.IsRow

/-- The flags around a literal ask for nothing. -/
theorem Built.demand_scopedLiteral {p : Built} (hp : p.literal.IsRow) :
    Text.demand p.scopedLiteral = p.literal.demand := by
  rcases scopedLiteral_eq p.flags with h | ⟨fs, hw, h⟩
  · rw [h p rfl]
  · rw [h p rfl, hp.demand_group hw none]
    exact Nat.zero_max _

theorem Built.demand_embedded {p : Built} (hp : p.literal.IsRow) (h : p.literal.demand ≤ 1)
    (offset : Nat) : Text.demand (p.embedded offset) = p.literal.demand := by
  rw [embedded, hp.scopedLiteral.demand_shift _ offset, demand_scopedLiteral hp]
  rwa [demand_scopedLiteral hp]

/-! ## Contents -/

theorem Content.IsGiven.demand {c : Content} (h : c.IsGiven) : Text.demand c.literal = 0 := by
  cases h with
  | @text t _ =>
    have chars : ∀ t : Text, demandOf (Branch.tokens (t.map fun c => .atom (.char c))) = 0 := by
      intro t
      induction t with
      | nil => rfl
      | cons c t ih => exact ih
    exact (spells_escapeOutside t).demand_of_eq (chars t)
  | anyChar => exact Spells.demand_of_eq (.single rfl .nil) rfl
  | oneOf hm =>
    obtain ⟨ms, items, hne, hw, rfl, hi⟩ := hm.exists_members
    exact Spells.demand_of_eq (.bracket false hne hw hi .nil) rfl
  | noneOf hm =>
    obtain ⟨ms, items, hne, hw, rfl, hi⟩ := hm.exists_members
    exact Spells.demand_of_eq (.bracket true hne hw hi .nil) rfl

theorem demand_groupAgain {n : Nat} (hn : n ≠ 0) :
    Text.demand (Content.groupAgain n).literal = 1 := by
  have hs := Spells.reference n (t := []) rfl .nil
  rw [List.append_nil] at hs
  obtain ⟨n, rfl⟩ := Nat.exists_eq_succ_of_ne_zero hn
  exact hs.demand_row

theorem demand_named {literal : Text} (h : literal = ['\\', 's'] ∨ literal = ['\\', 'S']) :
    literal.demand = 0 := by
  rcases h with rfl | rfl
  · exact Spells.demand_of_eq (.escape rfl rfl .nil) rfl
  · exact Spells.demand_of_eq (.escape rfl rfl .nil) rfl

/-! ## Segments -/

/-- What a segment asks of the engine. -/
def Segment.demand (s : Segment) : Nat :=
  max (Token.opening s.opening.kind).demand ((s.alternatives.map Text.demand).foldr max 0)

theorem demandOf_tokens_of_forall₂ {ts : List Text} {bs : Branches}
    (h : List.Forall₂ (fun t b => Spells t [b]) ts bs) :
    demandOf bs.tokens = (ts.map Text.demand).foldr max 0 := by
  induction h with
  | nil => rfl
  | @cons t b ts bs hb _ ih =>
    rw [List.map_cons, List.foldr_cons, ← ih, hb.demand_row]
    cases bs with
    | nil => simp [Branches.tokens]
    | cons c bs => simp [Branches.tokens_cons, Token.demand]

/-- The most that one of some segments asks for. -/
def segmentsDemand (ss : List Segment) : Nat :=
  (ss.map Segment.demand).foldr max 0

@[simp] theorem segmentsDemand_nil : segmentsDemand [] = 0 :=
  rfl

@[simp] theorem segmentsDemand_append (ss us : List Segment) :
    segmentsDemand (ss ++ us) = max (segmentsDemand ss) (segmentsDemand us) := by
  unfold segmentsDemand
  induction ss with
  | nil => simp
  | cons s ss ih => rw [List.cons_append, List.map_cons, List.foldr_cons, ih, List.map_cons,
      List.foldr_cons, Nat.max_assoc]

@[simp] theorem segmentsDemand_singleton (s : Segment) : segmentsDemand [s] = s.demand := by
  simp [segmentsDemand]

/-- What written segments ask for is what the segments do. -/
theorem demand_flatMap_text {ss : List Segment} (h : ∀ s ∈ ss, s.IsFormed) :
    Text.demand (ss.flatMap Segment.text) = segmentsDemand ss := by
  induction ss with
  | nil => exact congrArg demandOf tokens_nil
  | cons s ss ih =>
    have ih := ih fun x hx => h x (List.mem_cons_of_mem _ hx)
    obtain ⟨bs, hbs, hspell⟩ := (h s List.mem_cons_self).spells
    obtain ⟨ps, hps, -⟩ := exists_spells_flatMap_text fun x hx => h x (List.mem_cons_of_mem _ hx)
    rw [List.flatMap_cons, (hspell hps).demand_row, Branch.tokens, demandOf_append,
      Piece.demandOf_tokens_group, demandOf_tokens_of_forall₂ hbs, ← hps.demand_row, ih]
    rfl

@[simp] theorem Segment.demand_group (t : Text) : (Segment.group t).demand = t.demand := by
  simp [Segment.demand, Segment.group, Opening.kind, Token.demand]

theorem Fragment.demand_segmentOf (f : Fragment) {c : Content} (hc : c.literal.IsRow) :
    (f.segmentOf c).demand = Text.demand c.literal := by
  have h := hc.demand_wrapped_append f.quantity?
  rw [← f.quantity_append_reluctance, ← List.append_assoc] at h
  rw [Segment.demand, segmentOf, List.map_singleton, h]
  cases f.capture <;> simp [Opening.kind, Token.demand]

/-- The segments that calls add by themselves ask for nothing. -/
theorem Segment.demand_of_mem_units {s : Segment} (hs : s ∈ Segment.units) : s.demand = 0 := by
  have digits (negated : Bool) :
      Text.demand (classText negated [.plain '0', .plain '-', .plain '9'] []) = 0 :=
    Spells.demand_of_eq (.bracket negated (by decide) (by simp [Token.Member.IsWritable]) rfl .nil)
      rfl
  simp only [Segment.units, List.mem_cons, List.not_mem_nil, or_false] at hs
  rcases hs with rfl | rfl | rfl | rfl | rfl | rfl
  · rw [demand_group]
    exact Spells.demand_of_eq (.single rfl .nil) rfl
  · rw [demand_group]
    exact Spells.demand_of_eq (.single rfl .nil) rfl
  · have hrn : Text.demand ['\\', 'r', '\\', 'n'] = 0 :=
      Spells.demand_of_eq (.escape rfl rfl (.escape rfl rfl .nil)) rfl
    have hr : Text.demand ['\\', 'r'] = 0 := Spells.demand_of_eq (.escape rfl rfl .nil) rfl
    have hn : Text.demand ['\\', 'n'] = 0 := Spells.demand_of_eq (.escape rfl rfl .nil) rfl
    simp [Segment.demand, hrn, hr, hn, Opening.kind, Token.demand]
  · rw [demand_group]
    exact Spells.demand_of_eq (.escape rfl rfl .nil) rfl
  · rw [demand_group]
    exact digits false
  · rw [demand_group]
    exact digits true

/-- One more alternative brings what it asks for to the segments. -/
theorem segmentsDemand_addAlternative (ss : List Segment) (t : Text) :
    segmentsDemand (addAlternative ss t) = max (segmentsDemand ss) t.demand := by
  have hpush (s : Segment) : (s.push t).demand = max s.demand t.demand := by
    obtain ⟨o, as⟩ := s
    simp only [Segment.push, Segment.demand, List.map_append, List.foldr_append, List.map_singleton]
    induction as with
    | nil => simp
    | cons a as ih => simp only [List.map_cons, List.foldr_cons] at ih ⊢; omega
  unfold addAlternative
  split
  · rename_i last hl
    have hss : ss.dropLast ++ [last] = ss := List.dropLast_append_getLast? last hl
    conv_rhs => rw [← hss]
    simp only [segmentsDemand_append, segmentsDemand_singleton, hpush, Nat.max_assoc]
  · rename_i hl
    rw [List.getLast?_eq_none_iff.1 hl]
    simp

/-! ## The label of a builder -/

/-- What the segments, the held alternative and the content in progress ask for. -/
def Builder.demand (b : Builder) : Nat :=
  max (segmentsDemand b.segments)
    (max (b.held.elim 0 Text.demand) (b.pending.content.elim 0 fun c => Text.demand c.literal))

/-- That is what all that the builder would write now asks for. -/
theorem Builder.IsFormed.demand_eq {b : Builder} (hb : b.IsFormed) :
    b.demand = segmentsDemand b.written := by
  have hheld : segmentsDemand b.heldSegments = b.held.elim 0 Text.demand := by
    unfold Builder.heldSegments
    cases h : b.held with
    | none => rfl
    | some t => simp [(hb.held t h).demand_wrapped]
  have hcontent : segmentsDemand b.pending.segment?.toList =
      b.pending.content.elim 0 fun c => Text.demand c.literal := by
    rw [Fragment.segment?_eq]
    cases h : b.pending.content with
    | none => rfl
    | some c => simp [b.pending.demand_segmentOf (hb.content c h)]
  simp only [Builder.demand, Builder.written, segmentsDemand_append, hheld, hcontent, Nat.max_assoc]

/-- A builder of rows whose note says what they ask for. -/
structure Builder.IsLabelled (b : Builder) : Prop where
  isFormed : b.IsFormed
  demand_eq : b.demand = b.extended.toNat

theorem Builder.extended_value_build (b : Builder) : b.build.value.extended = b.extended := by
  rw [value_build]

theorem Bool.toNat_or_eq_max (a b : Bool) : (a || b).toNat = max a.toNat b.toNat := by
  cases a <;> cases b <;> rfl

namespace Builder.IsLabelled

variable {b other : Builder}

theorem empty : Builder.empty.IsLabelled :=
  ⟨.empty, rfl⟩

theorem demand_le (hb : b.IsLabelled) : b.demand ≤ 1 :=
  hb.demand_eq ▸ b.extended.toNat_le

theorem segmentsDemand_written (hb : b.IsLabelled) :
    segmentsDemand b.written = b.extended.toNat :=
  hb.isFormed.demand_eq.symm.trans hb.demand_eq

/-- A finished pattern asks for what its label says. -/
theorem demand_literal (hb : b.IsLabelled) :
    Text.demand b.build.value.literal = b.extended.toNat := by
  rw [value_build]
  exact (demand_flatMap_text hb.isFormed.written).trans hb.segmentsDemand_written

theorem demand_embedded (hb : b.IsLabelled) (offset : Nat) :
    Text.demand (b.build.value.embedded offset) = b.extended.toNat := by
  rw [Built.demand_embedded hb.isFormed.isRow_literal _ offset, hb.demand_literal]
  exact hb.demand_literal ▸ b.extended.toNat_le

/-- With all that is in progress written, a builder keeps its label. -/
theorem of_segments {ss : List Segment} {groups : Nat} {flags : Flags} {f : Fragment}
    {extended : Bool} (hform : Builder.IsFormed ⟨ss, groups, flags, f, none, extended⟩)
    (hc : f.content = none) (hd : segmentsDemand ss = extended.toNat) :
    Builder.IsLabelled ⟨ss, groups, flags, f, none, extended⟩ := by
  refine ⟨hform, Eq.trans ?_ hd⟩
  simp [Builder.demand, hc]

theorem addSegment (hb : b.IsLabelled) {s : Segment} (hs : s.IsFormed) (h0 : s.demand = 0) :
    (b.addSegment s).value.IsLabelled := by
  have hform := hb.isFormed.addSegment hs
  rw [value_addSegment_eq] at hform ⊢
  refine of_segments hform b.content_waiting ?_
  rw [segmentsDemand_append, segmentsDemand_singleton, h0, Nat.max_zero]
  exact hb.segmentsDemand_written

/-- A content comes with what it asks for. -/
theorem demand_setContent (hb : b.IsLabelled) (hc : b.pending.content = none) (c : Content)
    (groups : Nat) (e : Bool) :
    Builder.demand { b with pending := { b.pending with content := some c }, groups := groups,
                            extended := e } = max b.extended.toNat (Text.demand c.literal) := by
  have hd := hb.demand_eq
  simp only [Builder.demand, hc, Option.elim_none, Option.elim_some, Nat.max_zero] at hd ⊢
  rw [← Nat.max_assoc, hd]

/-- A content that asks for nothing leaves the label as it is, accepted or not. -/
theorem demand_withContent (hb : b.IsLabelled) {c : Content} (h0 : Text.demand c.literal = 0) :
    (b.withContent c).value.demand = b.extended.toNat := by
  rw [value_withContent, Fragment.setContent]
  cases hc : b.pending.content with
  | some d =>
    rw [Option.some_or, ← hc]
    exact hb.demand_eq
  | none =>
    rw [Option.none_or]
    refine (hb.demand_setContent hc c b.groups b.extended).trans ?_
    rw [h0, Nat.max_zero]

theorem demand_groupAgain (hb : b.IsLabelled) {group : Nat} (hg : group ≠ 0) :
    (b.groupAgain group).value.demand = (b.groupAgain group).value.extended.toNat := by
  rw [value_groupAgain b hg, Fragment.setContent]
  cases hc : b.pending.content with
  | some d =>
    rw [Option.some_or, ← hc]
    simpa [Builder.demand, hc] using hb.demand_eq
  | none =>
    rw [Option.none_or]
    refine (hb.demand_setContent hc _ b.groups _).trans ?_
    rw [FluentPattern.demand_groupAgain hg]
    cases b.extended <;> rfl

/-- Renumbering the content keeps what it asks for. -/
theorem demand_captured (hb : b.IsLabelled) : b.captured.demand = b.captured.extended.toNat := by
  unfold Builder.captured
  split
  · exact hb.demand_eq
  · have hshift :
        (b.pending.content.map (Content.shift 1)).elim 0 (fun c => Text.demand c.literal) =
          b.pending.content.elim 0 fun c => Text.demand c.literal := by
      cases hc : b.pending.content with
      | none => rfl
      | some c =>
        cases c with
        | pattern t =>
          have hle := hb.demand_le
          simp only [Builder.demand, hc, Option.elim_some, Nat.max_le] at hle
          exact (hb.isFormed.content _ hc).demand_shift hle.2.2 1
        | _ => rfl
    refine Eq.trans ?_ hb.demand_eq
    simp only [Builder.demand, Fragment.setCapture, Fragment.shiftGroups, hshift]

theorem demand_dropRun (hb : b.IsLabelled) : b.dropRun.demand = b.dropRun.extended.toNat := by
  have hd := hb.demand_eq
  unfold Builder.dropRun
  cases h : b.pending.isOpenAnyRun with
  | false => exact hd
  | true =>
    have h0 : Text.demand Content.anyChar.literal = 0 := Content.IsGiven.anyChar.demand
    simpa [Builder.demand, (Fragment.of_isOpenAnyRun h).1, h0] using hd

/-- Every move keeps the label. -/
theorem apply (hb : b.IsLabelled) {m : Move} (hm : m.Allowed Builder.IsLabelled) :
    (m.apply b).IsLabelled := by
  have hform : (m.apply b).IsFormed := hb.isFormed.apply (hm.mono fun _ h => h.isFormed)
  cases m with
  | flag f => exact ⟨hform, hb.demand_eq⟩
  | segment s =>
    exact hb.addSegment (Segment.isFormed_of_mem_units hm) (Segment.demand_of_mem_units hm)
  | exactly n =>
    rw [Move.apply, value_exactly] at hform ⊢
    exact of_segments hform b.content_waiting hb.segmentsDemand_written
  | atLeast n =>
    rw [Move.apply, value_atLeast] at hform ⊢
    exact of_segments hform b.content_waiting hb.segmentsDemand_written
  | atMost n =>
    rw [Move.apply, value_atMost] at hform ⊢
    exact of_segments hform b.content_waiting hb.segmentsDemand_written
  | content c =>
    refine ⟨hform, (hb.demand_withContent hm.demand).trans ?_⟩
    rw [Move.apply, value_withContent]
  | groupAgain group => exact ⟨hform, hb.demand_groupAgain hm⟩
  | unit literal =>
    rw [Move.apply, value_unit] at hform ⊢
    split at hform
    · rename_i hq
      rw [if_pos hq]
      refine ⟨hform, (hb.demand_withContent (c := .pattern literal) (demand_named hm)).trans ?_⟩
      rw [value_withContent]
    · rename_i hq
      rw [if_neg hq]
      exact hb.addSegment (Segment.isFormed_singleton (isRow_named hm))
        ((Segment.demand_group literal).trans (demand_named hm))
  | like other =>
    have ho : other.IsLabelled := hm
    refine ⟨hform, ?_⟩
    cases hc : b.pending.content with
    | some c =>
      rw [Move.apply, value_like_of_some b other hc]
      exact hb.demand_eq
    | none =>
      rw [Move.apply, value_like_of_none b other hc, hb.demand_setContent hc, extended_value_build,
        Bool.toNat_or_eq_max]
      exact congrArg (max _) (ho.demand_embedded b.groups)
  | reluctantly => exact ⟨hform, hb.demand_eq⟩
  | captured => exact ⟨hform, hb.demand_captured⟩
  | either other =>
    have ho : other.IsLabelled := hm
    refine ⟨hform, ?_⟩
    rw [Move.apply, value_either]
    simp [Builder.demand, content_keptFragment, ho.demand_embedded, hb.segmentsDemand_written,
      Bool.toNat_or_eq_max, extended_value_build]
  | or other =>
    have ho : other.IsLabelled := hm
    rw [Move.apply, value_or_pattern] at hform ⊢
    refine of_segments hform rfl ?_
    rw [segmentsDemand_addAlternative, (ho.isFormed.isRow_embedded _).demand_wrapped,
      ho.demand_embedded, hb.segmentsDemand_written, Bool.toNat_or_eq_max, extended_value_build]
  | look opening other =>
    have ho : other.IsLabelled := hm.2
    have hopen : (Token.opening opening.kind).demand = 1 := by
      rcases hm.1 with rfl | rfl <;> rfl
    have hle := other.extended.toNat_le
    have hle' := b.extended.toNat_le
    rw [Move.apply, value_look] at hform ⊢
    refine of_segments hform b.content_keptFragment ?_
    rw [segmentsDemand_append, segmentsDemand_singleton, hb.segmentsDemand_written, Segment.demand,
      hopen]
    simp only [List.map_singleton, List.foldr_cons, List.foldr_nil, ho.demand_embedded,
      Bool.toNat_true]
    omega
  | dropRun => exact ⟨hform, hb.demand_dropRun⟩

end Builder.IsLabelled

/-- Every builder that calls give is labelled with what it asks for. -/
theorem Call.isLabelled_builder (calls : List Call) : (Call.builder calls).IsLabelled :=
  Call.holds_builder Builder.IsLabelled.empty (fun _ _ hb hm => hb.apply hm) calls

/-! ## Built patterns -/

/-- The faults of patterns that are not the basic engine's to read: what it has no meaning
for, and what is left open or closed once too often. -/
def Fault.foreign : List Fault :=
  [.noBackreferences, .noLookahead, .unclosedGroup, .unopenedGroup, .unclosedClass]

/-- Of a token that can be read and needs no backtracking the basic engine finds other
faults only. -/
theorem Rules.notMem_foreign_of_basic {depth : Nat} {before : Option Piece} {t : Token} {f : Fault}
    (h : Rules.basic.refuse depth before t = some f) (hf : ∀ g, t ≠ .fault g)
    (ht : t.needsBacktracking = false) : f ∉ Fault.foreign := by
  have hother (g : Fault) (hg : g = .nothingToRepeat ∨ g = .malformedBounds ∨ g = .rangeReversed ∨
      g = .boundTooLarge ∨ g = .boundsReversed) : g ∉ Fault.foreign := by
    rcases hg with rfl | rfl | rfl | rfl | rfl <;> decide
  refine hother f ?_
  simp only [basic, grammar] at h
  cases t with
  | fault g => exact absurd rfl (hf g)
  | quantity q => grind
  | looseBrace => grind
  | atom a =>
    cases a with
    | groupAgain n => cases ht
    | _ => grind
  | opening k =>
    cases k with
    | ahead | notAhead => cases ht
    | _ => cases h
  | _ => cases h

/-- Where the basic engine refuses a pattern without backreferences and lookaheads, it is
not for a foreign fault. -/
theorem Built.notMem_foreign {p : Built} {b : Branch} (hb : Spells p.literal [b])
    (he : p.engine = .basic) (ht : ∀ t ∈ tokens p.literal, t.needsBacktracking = false)
    {e : CompileError} (h : p.compile.value = .error e) : e.fault ∉ Fault.foreign := by
  obtain ⟨f, hf, rfl⟩ := compile_eq_error_iff.1 h
  rw [he, readFor, readBasic_expression hb] at hf
  cases hfault : Branch.fault? .basic 0 (p.expressionRow b) with
  | some g =>
    rw [hfault] at hf
    obtain rfl := Except.error.inj hf
    obtain ⟨pl, hpl, hr⟩ := Branch.exists_refuseAt hfault
    have htok := Branch.mem_tokens_of_mem_places hpl
    refine Rules.notMem_foreign_of_basic hr (fun g hg => ?_) ?_
    · exact Branch.fault_notMem_tokens g _ (hg ▸ htok)
    · rw [← tokens_expression_eq hb, tokens_expression] at htok
      rcases List.mem_append.1 htok with h | h
      · obtain ⟨fs, -, hfs⟩ := Option.map_eq_some_iff.1 (Option.mem_toList.1 h)
        rw [← hfs]
        rfl
      · exact ht _ h
  | none =>
    simp only [hfault] at hf
    split at hf
    · cases hf
      simp [Fault.foreign]
    · split at hf
      · cases hf
        simp [Fault.foreign]
      · cases hf

/-- A built pattern needs backtracking exactly if its label says so. -/
theorem Call.any_needsBacktracking_build (calls : List Call) :
    (tokens (Call.build calls).value.literal).any Token.needsBacktracking =
      (Call.build calls).value.extended := by
  have hd := (Call.isLabelled_builder calls).demand_literal
  have he : (Call.build calls).value.extended = (Call.builder calls).extended :=
    Builder.extended_value_build _
  rw [any_needsBacktracking, he]
  refine (congrArg (fun n => decide (0 < n)) hd).trans ?_
  cases (Call.builder calls).extended <;> rfl

/-- The flags in front of a built pattern change nothing in that. -/
theorem Call.any_needsBacktracking_expression (calls : List Call) :
    (tokens (Call.build calls).value.expression.text).any Token.needsBacktracking =
      (Call.build calls).value.extended := by
  have hflags : (((Call.build calls).value.flags.inline?.map Token.flags).toList).any
      Token.needsBacktracking = false := by
    cases (Call.build calls).value.flags.inline? <;> rfl
  rw [Built.tokens_expression, List.any_append, hflags, Call.any_needsBacktracking_build,
    Bool.false_or]

/-- The label of a built pattern is exact: it says that the extended engine is needed if
and only if the literal has a backreference or a lookahead. So the pattern is compiled by
the basic engine exactly if that knows all its tokens, and then no group or class is left
open, and nothing is foreign to the engine. -/
theorem Call.extended_build (calls : List Call) :
    let p := (Call.build calls).value
    p.extended = (tokens p.literal).any Token.needsBacktracking ∧
      (p.expression.engine = .basic ↔
        ∀ t ∈ tokens p.expression.text, t.needsBacktracking = false) ∧
      (p.expression.engine = .basic → ∀ e, p.compile.value = .error e →
        e.fault ∉ Fault.foreign) := by
  intro p
  have hlabel : p.extended = (tokens p.literal).any Token.needsBacktracking :=
    (Call.any_needsBacktracking_build calls).symm
  have hbasic : p.expression.engine = .basic ↔
      ∀ t ∈ tokens p.literal, t.needsBacktracking = false := by
    have hany : (∀ t ∈ tokens p.literal, t.needsBacktracking = false) ↔ p.extended = false := by
      simp [hlabel]
    rw [hany]
    show p.engine = .basic ↔ _
    rw [Built.engine]
    cases p.extended <;> simp
  obtain ⟨b, hb⟩ := (Call.isFormed_builder calls).isRow_literal
  refine ⟨hlabel, hbasic.trans ?_, fun he e h => Built.notMem_foreign hb he (hbasic.1 he) h⟩
  rw [Built.tokens_expression]
  refine ⟨fun h t ht => ?_, fun h t ht => h t (List.mem_append_right _ ht)⟩
  rcases List.mem_append.1 ht with ht | ht
  · obtain ⟨fs, -, rfl⟩ := Option.map_eq_some_iff.1 (Option.mem_toList.1 ht)
    rfl
  · exact h t ht

/-- A range in the wrong order is refused by the basic engine, and for no foreign fault. -/
theorem Call.extended_build_reversedRange :
    let p := (Call.build [.range false 'z' 'a']).value
    p.expression.engine = .basic ∧ p.compile.value = .error ⟨.basic, .rangeReversed⟩ ∧
      Fault.rangeReversed ∉ Fault.foreign := by
  intro p
  have he : p.compile.value = .error ⟨.basic, .rangeReversed⟩ :=
    Built.compile_of_fault? (by decide +kernel)
  exact ⟨rfl, he, (Call.extended_build [.range false 'z' 'a']).2.2 rfl _ he⟩

end FluentPattern
