import FluentPattern.Proofs.Row

/-!
# The structure of built patterns

In every builder that calls give, the alternatives of the segments, the held
alternative and the content in progress are rows of pieces. So a built pattern is
read as one group for each segment, whatever texts, members and patterns the calls
were given.

Main statements: `Builder.IsFormed.apply` (every move keeps this),
`Call.isFormed_builder`, `Call.exists_readPattern_build`.
-/

namespace FluentPattern

/-! ## The quantity of a fragment -/

/-- The quantity of a fragment, if it has a bound. -/
def Fragment.quantity? (f : Fragment) : Option Quantity :=
  if f.hasQuantity then some ⟨f.min.getD 0, f.max, !f.reluctant⟩ else none

theorem Fragment.quantity_append_reluctance (f : Fragment) :
    f.quantity ++ f.reluctance = Quantity.suffix f.quantity? := by
  obtain ⟨min, max, content, reluctant, capture⟩ := f
  cases min <;> cases max <;> cases reluctant <;>
    simp [Fragment.quantity, Fragment.reluctance, Fragment.quantity?, Fragment.hasQuantity,
      Quantity.suffix, Quantity.text, show Text.decimal 0 = ['0'] from rfl]

/-- A fragment whose content is a row is one more piece: a group around the group that has
its quantity. -/
theorem Fragment.spells_append (f : Fragment) {c : Content} {b : Branch}
    (hc : Spells c.literal [b]) {t : Text} {row : Branch} {cs : Branches}
    (ht : Spells t (row :: cs)) :
    Spells ((f.segmentOf c).text ++ t)
      ((.group (if f.capture then .capture else .plain)
        [[Piece.times f.quantity? (.group .plain [b])]] :: row) :: cs) := by
  have hunit := hc.wrapped_append f.quantity?
  rw [← f.quantity_append_reluctance, ← List.append_assoc] at hunit
  have hs := Segment.spells_append (s := f.segmentOf c) (List.cons_ne_nil _ _)
    (.cons hunit .nil) ht
  cases hcapture : f.capture <;> simpa [segmentOf, hcapture, Opening.kind] using hs

theorem Fragment.isFormed_segmentOf (f : Fragment) {c : Content} (hc : Text.IsRow c.literal) :
    (f.segmentOf c).IsFormed := by
  refine Segment.isFormed_singleton ?_
  rw [List.append_assoc, f.quantity_append_reluctance]
  exact hc.wrapped_append _

/-! ## Builders of rows -/

/-- A builder that holds rows only. -/
structure Builder.IsFormed (b : Builder) : Prop where
  segments : ∀ s ∈ b.segments, s.IsFormed
  held : ∀ t ∈ b.held, Text.IsRow t
  content : ∀ c ∈ b.pending.content, Text.IsRow c.literal

namespace Builder.IsFormed

variable {b other : Builder}

theorem empty : Builder.empty.IsFormed :=
  ⟨fun _ h => absurd h List.not_mem_nil, fun _ h => absurd h (by simp [Builder.empty]),
    fun _ h => absurd h (by simp [Builder.empty])⟩

theorem heldSegments (hb : b.IsFormed) : ∀ s ∈ b.heldSegments, s.IsFormed := by
  intro s hs
  obtain ⟨t, ht, rfl⟩ := Option.map_eq_some_iff.1 (Option.mem_toList.1 hs)
  exact Segment.isFormed_singleton (hb.held t ht).wrapped

/-- All that a formed builder would write is formed. -/
theorem written (hb : b.IsFormed) : ∀ s ∈ b.written, s.IsFormed := by
  intro s hs
  rcases List.mem_append.1 hs with hs | hs
  · rcases List.mem_append.1 hs with hs | hs
    · exact hb.segments s hs
    · exact hb.heldSegments s hs
  · obtain ⟨c, hc, rfl⟩ := Option.map_eq_some_iff.1 (Option.mem_toList.1 hs)
    exact b.pending.isFormed_segmentOf (hb.content c hc)

theorem exists_spells_literal (hb : b.IsFormed) :
    ∃ ps, Spells b.build.value.literal [ps] ∧ List.Forall₂ Segment.IsReadAs b.written ps := by
  rw [value_build]
  exact exists_spells_flatMap_text hb.written

theorem isRow_literal (hb : b.IsFormed) : Text.IsRow b.build.value.literal := by
  obtain ⟨ps, hps, -⟩ := hb.exists_spells_literal
  exact ⟨ps, hps⟩

theorem isRow_scopedLiteral (hb : b.IsFormed) : Text.IsRow b.build.value.scopedLiteral :=
  hb.isRow_literal.scopedLiteral

theorem isRow_embedded (hb : b.IsFormed) (offset : Nat) :
    Text.IsRow (b.build.value.embedded offset) :=
  hb.isRow_scopedLiteral.shift offset

theorem setContent (hb : b.IsFormed) {c : Content} (hc : Text.IsRow c.literal) :
    ∀ d ∈ (b.pending.setContent c).content, Text.IsRow d.literal := by
  intro d hd
  rcases Option.or_eq_some_iff.1 hd with hd | ⟨-, hd⟩
  · exact hb.content d hd
  · exact Option.some.inj hd ▸ hc

end Builder.IsFormed

theorem Segment.isFormed_of_mem_units {s : Segment} (hs : s ∈ Segment.units) : s.IsFormed := by
  have digits (negated : Bool) :
      Text.IsRow (classText negated [.plain '0', .plain '-', .plain '9'] []) :=
    ⟨_, .bracket negated (by decide) (by simp [Token.Member.IsWritable]) rfl .nil⟩
  simp only [Segment.units, List.mem_cons, List.not_mem_nil, or_false] at hs
  rcases hs with rfl | rfl | rfl | rfl | rfl | rfl
  · exact isFormed_singleton ⟨_, .single rfl .nil⟩
  · exact isFormed_singleton ⟨_, .single rfl .nil⟩
  · refine ⟨by simp, fun a ha => ?_⟩
    simp only [List.mem_cons, List.not_mem_nil, or_false] at ha
    rcases ha with rfl | rfl | rfl
    · exact ⟨_, .escape rfl rfl (.escape rfl rfl .nil)⟩
    · exact ⟨_, .escape rfl rfl .nil⟩
    · exact ⟨_, .escape rfl rfl .nil⟩
  · exact isFormed_singleton ⟨_, .escape rfl rfl .nil⟩
  · exact isFormed_singleton (digits false)
  · exact isFormed_singleton (digits true)

theorem isFormed_addAlternative {ss : List Segment} (h : ∀ s ∈ ss, s.IsFormed) {a : Text}
    (ha : a.IsRow) : ∀ s ∈ addAlternative ss a, s.IsFormed := by
  intro s hs
  unfold addAlternative at hs
  split at hs
  · rename_i last hl
    rcases List.mem_append.1 hs with hs | hs
    · exact h s (List.dropLast_subset ss hs)
    · rw [List.mem_singleton.1 hs]
      exact (h last (List.mem_of_getLast? hl)).push ha
  · rw [List.mem_singleton.1 hs]
    exact Segment.isFormed_singleton ha

/-! ## Every move keeps rows -/

namespace Builder.IsFormed

variable {b other : Builder}

theorem append_unit (hb : b.IsFormed) {s : Segment} (hs : s.IsFormed) :
    ∀ x ∈ b.written ++ [s], x.IsFormed := by
  intro x hx
  rcases List.mem_append.1 hx with hx | hx
  · exact hb.written x hx
  · exact List.mem_singleton.1 hx ▸ hs

/-- With all that is in progress written, a fragment without content is formed. -/
theorem of_written (hb : b.IsFormed) {f : Fragment} (hf : f.content = none) {groups : Nat}
    {extended : Bool} : Builder.IsFormed ⟨b.written, groups, b.flags, f, none, extended⟩ :=
  ⟨hb.written, fun _ h => absurd h (by simp), fun _ h => absurd h (by simp [hf])⟩

theorem addSegment (hb : b.IsFormed) {s : Segment} (hs : s.IsFormed) :
    (b.addSegment s).value.IsFormed := by
  rw [value_addSegment_eq]
  exact ⟨hb.append_unit hs, fun _ h => absurd h (by simp),
    fun _ h => absurd h (by simp [content_waiting])⟩

theorem withContent (hb : b.IsFormed) {c : Content} (hc : Text.IsRow c.literal) :
    (b.withContent c).value.IsFormed := by
  rw [value_withContent]
  exact ⟨hb.segments, hb.held, hb.setContent hc⟩

/-- Every move keeps a builder of rows one. -/
theorem apply (hb : b.IsFormed) {m : Move} (hm : m.Allowed Builder.IsFormed) :
    (m.apply b).IsFormed := by
  have kept : ∀ c ∈ b.keptFragment.content, Text.IsRow c.literal :=
    fun c hc => absurd hc (by simp [content_keptFragment])
  cases m with
  | flag f => exact ⟨hb.segments, hb.held, hb.content⟩
  | segment s => exact hb.addSegment (Segment.isFormed_of_mem_units hm)
  | exactly n =>
    rw [Move.apply, value_exactly]
    exact hb.of_written (f := b.waiting.setExact n) b.content_waiting
  | atLeast n =>
    rw [Move.apply, value_atLeast]
    exact hb.of_written (f := b.waiting.setMin n) b.content_waiting
  | atMost n =>
    rw [Move.apply, value_atMost]
    exact hb.of_written (f := b.waiting.setMax n) b.content_waiting
  | content c => exact hb.withContent hm.isRow
  | groupAgain group =>
    rw [Move.apply, value_groupAgain b hm]
    exact ⟨hb.segments, hb.held, hb.setContent (isRow_groupAgain group)⟩
  | unit literal =>
    rw [Move.apply, value_unit]
    split
    · exact hb.withContent (isRow_named hm)
    · exact hb.addSegment (Segment.isFormed_singleton (isRow_named hm))
  | like other =>
    cases hc : b.pending.content with
    | some c =>
      rw [Move.apply, value_like_of_some b other hc]
      exact hb
    | none =>
      rw [Move.apply, value_like_of_none b other hc]
      exact ⟨hb.segments, hb.held, fun c h => Option.some.inj h ▸ isRow_embedded hm _⟩
  | reluctantly => exact ⟨hb.segments, hb.held, hb.content⟩
  | captured =>
    show b.captured.IsFormed
    unfold Builder.captured
    split
    · exact hb
    · refine ⟨hb.segments, hb.held, fun c h => ?_⟩
      obtain ⟨d, hd, rfl⟩ := Option.map_eq_some_iff.1 h
      have hrow := hb.content d hd
      cases d with
      | pattern t => exact hrow.shift 1
      | _ => exact hrow
  | either other =>
    rw [Move.apply, value_either]
    exact ⟨hb.written, fun t h => Option.some.inj h ▸ isRow_embedded hm _, kept⟩
  | or other =>
    rw [Move.apply, value_or_pattern]
    exact ⟨isFormed_addAlternative hb.written (isRow_embedded hm _).wrapped,
      fun _ h => absurd h (by simp), fun _ h => absurd h (by simp)⟩
  | look opening other =>
    rw [Move.apply, value_look]
    exact ⟨hb.append_unit (Segment.isFormed_singleton (isRow_embedded hm.2 _)),
      fun _ h => absurd h (by simp), kept⟩
  | dropRun =>
    show b.dropRun.IsFormed
    unfold Builder.dropRun
    split
    · exact ⟨hb.segments, hb.held, fun _ h => absurd h (by simp)⟩
    · exact hb

end Builder.IsFormed

/-- Every builder that calls give holds rows only. -/
theorem Call.isFormed_builder (calls : List Call) : (Call.builder calls).IsFormed :=
  Call.holds_builder Builder.IsFormed.empty (fun _ _ hb hm => hb.apply hm) calls

/-- The literal of every pattern that calls give is derived from the grammar, and the
reader finds one group for each segment that the builder holds once all is finished,
with the branches of its alternatives. -/
theorem Call.exists_readPattern_build (calls : List Call) :
    ∃ ps, Spells (Call.build calls).value.literal [ps] ∧
      readPattern .grammar (Call.build calls).value.literal = .ok [ps] ∧
      List.Forall₂ Segment.IsReadAs (Call.builder calls).flush.value.segments ps := by
  obtain ⟨ps, hps, hall⟩ := (Call.isFormed_builder calls).exists_spells_literal
  refine ⟨ps, hps, hps.readPattern, ?_⟩
  rw [Builder.value_flush]
  exact hall

end FluentPattern
