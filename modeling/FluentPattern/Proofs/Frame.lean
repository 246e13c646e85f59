import FluentPattern.Proofs.Gap

/-!
# Builders around an embedded pattern

A frame is a builder without a pattern that it has embedded: it says where the pattern
stands and by which offsets it was renumbered, but not which pattern it is. A move on a
builder with the pattern is a move on the frame, whatever the pattern, so what stands
around the pattern depends on the number of its groups only. In a frame the offsets add
up to the number of groups that open before the pattern.

Main statements: `Frame.exists_apply` (a move on the frame),
`Frame.exists_surrounding` (the finished pattern around the place),
`Slot.exists_frame` (the frame of a pattern that was just embedded).
-/

namespace FluentPattern

/-! ## Builders after other segments -/

/-- Whether a builder is another one with some segments in front, both with what is held
written out, and with the extended engine if `e` says so. -/
structure Builder.Follows (ss : List Segment) (e : Bool) (b c : Builder) : Prop where
  segments : c.segments ++ c.heldSegments = ss ++ (b.segments ++ b.heldSegments)
  groups : c.groups = b.groups
  flags : c.flags = b.flags
  pending : c.pending = b.pending
  extended : c.extended = (b.extended || e)

namespace Builder.Follows

variable {ss : List Segment} {e : Bool} {b c : Builder} (h : Builder.Follows ss e b c)
include h

theorem written : c.written = ss ++ b.written := by
  rw [Builder.written, h.segments, h.pending, Builder.written]
  simp only [List.append_assoc]

theorem capturesNothing : c.capturesNothing = b.capturesNothing := by
  rw [Builder.capturesNothing, h.pending]
  rfl

theorem waiting : c.waiting = b.waiting := by
  rw [Builder.waiting, h.pending]
  rfl

theorem keptGroups : c.keptGroups = b.keptGroups := by
  rw [Builder.keptGroups, h.capturesNothing, h.groups]
  rfl

theorem keptFragment : c.keptFragment = b.keptFragment := by
  rw [Builder.keptFragment, h.capturesNothing, h.waiting]
  rfl

end Builder.Follows

/-- An alternative for the last of some segments does not concern the segments before. -/
theorem append_addAlternative {us : List Segment} (hus : us ≠ []) (ss : List Segment) (t : Text) :
    addAlternative (ss ++ us) t = ss ++ addAlternative us t := by
  obtain ⟨vs, v, rfl⟩ := List.eq_nil_or_concat us |>.resolve_left hus
  rw [List.concat_eq_append, ← List.append_assoc, addAlternative, addAlternative,
    List.getLast?_concat, List.getLast?_concat, List.dropLast_concat, List.dropLast_concat]
  exact List.append_assoc _ _ _

namespace Builder.Follows

variable {ss : List Segment} {e : Bool} {b c : Builder}

theorem of_segments {us vs : List Segment} (hs : vs = ss ++ us) {groups : Nat} {flags : Flags}
    {f : Fragment} {x y : Bool} (he : y = (x || e)) :
    Builder.Follows ss e ⟨us, groups, flags, f, none, x⟩ ⟨vs, groups, flags, f, none, y⟩ :=
  ⟨by simp [heldSegments, hs], rfl, rfl, rfl, he⟩

/-- A move does not concern the segments in front, but an alternative needs a segment
behind them. -/
theorem apply (h : Builder.Follows ss e b c) {P : Builder → Prop} {m : Move} (hm : m.Allowed P)
    (hor : ∀ other, m = .or other → b.written ≠ []) :
    Builder.Follows ss e (m.apply b) (m.apply c) := by
  have hs (us : List Segment) : c.written ++ us = ss ++ (b.written ++ us) := by
    rw [h.written, List.append_assoc]
  have he (x : Bool) : (c.extended || x) = (b.extended || x || e) := by
    rw [h.extended, Bool.or_assoc, Bool.or_assoc, Bool.or_comm e]
  have hadd (s : Segment) : Builder.Follows ss e (b.addSegment s).value (c.addSegment s).value := by
    rw [value_addSegment_eq, value_addSegment_eq, h.waiting, h.groups, h.flags]
    exact of_segments (hs _) h.extended
  have hcontent (d : Content) :
      Builder.Follows ss e (b.withContent d).value (c.withContent d).value := by
    rw [value_withContent, value_withContent]
    exact ⟨h.segments, h.groups, h.flags, congrArg (Fragment.setContent · d) h.pending, h.extended⟩
  cases m with
  | flag f =>
    exact ⟨h.segments, h.groups, congrArg (Flags.insert · f) h.flags, h.pending, h.extended⟩
  | segment s => exact hadd s
  | exactly n =>
    rw [Move.apply, Move.apply, value_exactly, value_exactly, h.waiting, h.groups, h.flags]
    exact of_segments h.written h.extended
  | atLeast n =>
    rw [Move.apply, Move.apply, value_atLeast, value_atLeast, h.waiting, h.groups, h.flags]
    exact of_segments h.written h.extended
  | atMost n =>
    rw [Move.apply, Move.apply, value_atMost, value_atMost, h.waiting, h.groups, h.flags]
    exact of_segments h.written h.extended
  | content d => exact hcontent d
  | groupAgain group =>
    rw [Move.apply, Move.apply, value_groupAgain b hm, value_groupAgain c hm]
    refine ⟨h.segments, h.groups, h.flags, congrArg (Fragment.setContent · _) h.pending, ?_⟩
    rw [h.pending]
    exact he _
  | unit literal =>
    rw [Move.apply, Move.apply, value_unit, value_unit, h.pending]
    split
    · exact hcontent _
    · exact hadd _
  | like other =>
    cases hb : b.pending.content with
    | some d =>
      rw [Move.apply, Move.apply, value_like_of_some b other hb,
        value_like_of_some c other (h.pending ▸ hb)]
      exact h
    | none =>
      rw [Move.apply, Move.apply, value_like_of_none b other hb,
        value_like_of_none c other (h.pending ▸ hb), h.pending, h.groups]
      exact ⟨h.segments, rfl, h.flags, rfl, he _⟩
  | reluctantly =>
    exact ⟨h.segments, h.groups, h.flags, congrArg Fragment.setReluctant h.pending, h.extended⟩
  | captured =>
    show Builder.Follows ss e b.captured c.captured
    unfold Builder.captured
    rw [h.pending]
    split
    · exact h
    · exact ⟨h.segments, congrArg (· + 1) h.groups, h.flags, rfl, h.extended⟩
  | either other =>
    rw [Move.apply, Move.apply, value_either, value_either, h.keptGroups, h.keptFragment]
    exact ⟨hs _, rfl, h.flags, rfl, he _⟩
  | or other =>
    rw [Move.apply, Move.apply, value_or_pattern, value_or_pattern, h.written, h.keptGroups,
      h.flags]
    exact of_segments (append_addAlternative (hor other rfl) _ _) (he _)
  | look opening other =>
    rw [Move.apply, Move.apply, value_look, value_look, h.keptGroups, h.keptFragment, h.flags]
    exact of_segments (hs _) rfl
  | dropRun =>
    show Builder.Follows ss e b.dropRun c.dropRun
    unfold Builder.dropRun
    rw [h.pending]
    split
    · exact ⟨h.segments, h.groups, h.flags, rfl, h.extended⟩
    · exact h

end Builder.Follows

/-- A move behind a segment with a gap leaves what fills the gap as it is. It changes what stands
behind the segment, or else gives the segment one more alternative. -/
theorem Builder.Follows.exists_apply_gap {P : Builder → Prop} (front : List Segment) (gap : Gap)
    (rest : Builder) {m : Move} (hm : m.Allowed P) :
    ∃ (gap' : Gap) (rest' : Builder), (gap' = gap ∨ ∃ alternative, gap' = gap.push alternative) ∧
      ∀ t e b, Builder.Follows (front ++ [gap.fill t]) e rest b →
        Builder.Follows (front ++ [gap'.fill t]) e rest' (m.apply b) := by
  by_cases hor : ∃ other, m = .or other ∧ rest.written = []
  · obtain ⟨other, rfl, hw⟩ := hor
    refine ⟨gap.push (other.build.value.embedded rest.keptGroups).wrapped,
      ⟨[], rest.keptGroups + other.build.value.groups, rest.flags, {}, none,
        rest.extended || other.build.value.extended⟩, .inr ⟨_, rfl⟩, fun t e b h => ?_⟩
    rw [Move.apply, Builder.value_or_pattern, h.written, hw, h.keptGroups, h.flags]
    refine Builder.Follows.of_segments ?_ ?_
    · rw [Gap.fill_push, List.append_nil, List.append_nil, addAlternative, List.getLast?_concat,
        List.dropLast_concat]
    · rw [h.extended, Bool.or_assoc, Bool.or_assoc, Bool.or_comm e]
  · refine ⟨gap, m.apply rest, .inl rfl, fun t e b h => ?_⟩
    exact Builder.Follows.apply h hm fun other ho hw => hor ⟨other, ho, hw⟩

/-! ## Frames -/

/-- A builder without a pattern that it has embedded. -/
inductive Frame where
  /-- The pattern is the content in progress after some segments. -/
  | pending (front : List Segment) (offsets : List Nat) (rest : Builder)
  /-- The pattern stands in the gap of a segment after some others. -/
  | written (front : List Segment) (gap : Gap) (offsets : List Nat) (rest : Builder)

/-- The builder with a content, whatever it has. -/
def Builder.filled (b : Builder) (c : Content) : Builder :=
  { b with pending := { b.pending with content := some c } }

/-- The gap for a content of the fragment. -/
def Fragment.gap (f : Fragment) : Gap :=
  .wrapped (if f.capture then .capture else .group) [] (f.quantity ++ f.reluctance)

namespace Frame

/-- Whether a builder is the frame with a pattern in it. -/
def Holds (t : Text) (e : Bool) : Frame → Builder → Prop
  | pending front offsets rest =>
    Builder.Follows front e (rest.filled (.pattern (shiftAll offsets t)))
  | written front gap offsets rest =>
    Builder.Follows (front ++ [gap.fill (shiftAll offsets t)]) e rest

/-- The offsets of the frame add up to the number of groups that open before the
pattern. -/
def IsNumbered : Frame → Prop
  | pending front offsets rest =>
    rest.segments = [] ∧ rest.held = none ∧ (∀ s ∈ front, s.IsFormed) ∧
      offsets.sum = (front.map Segment.groupCount).sum + rest.pending.gap.groupCount
  | written front gap offsets _ =>
    (∀ s ∈ front, s.IsFormed) ∧ gap.IsFormed ∧
      offsets.sum = (front.map Segment.groupCount).sum + gap.groupCount

end Frame

/-- Whether a move first writes all that is in progress. -/
def Move.Flushes (b : Builder) : Move → Prop
  | segment _ | exactly _ | atLeast _ | atMost _ | either _ | or _ | look _ _ => True
  | unit _ => b.pending.hasContent = true
  | _ => False

namespace Builder

variable (b : Builder)

theorem written_flush : b.flush.value.written = b.written := by
  rw [value_flush]
  exact written_of_idle rfl b.content_waiting

theorem waiting_flush : b.flush.value.waiting = b.waiting := by
  rw [value_flush]
  exact waiting_of_idle b.content_waiting

theorem capturesNothing_flush : b.flush.value.capturesNothing = b.capturesNothing := by
  rw [← capture_waiting, waiting_flush, capture_waiting]

theorem keptGroups_flush : b.flush.value.keptGroups = b.keptGroups := by
  rw [keptGroups, capturesNothing_flush, value_flush]
  rfl

theorem keptFragment_flush : b.flush.value.keptFragment = b.keptFragment := by
  rw [keptFragment, capturesNothing_flush, waiting_flush]
  rfl

/-- A pattern is finished as it is after all that is in progress is written. -/
theorem value_build_flush : b.flush.value.build.value = b.build.value := by
  rw [value_build, value_build, written_flush, keptGroups_flush, value_flush]

end Builder

/-- Such a move does the same after all is written. -/
theorem Move.apply_flush {b : Builder} {m : Move} (h : m.Flushes b) :
    m.apply b.flush.value = m.apply b := by
  have hw := b.written_flush
  have hwait := b.waiting_flush
  have hk := b.keptGroups_flush
  have hf := b.keptFragment_flush
  have hadd (s : Segment) : (b.flush.value.addSegment s).value = (b.addSegment s).value := by
    rw [Builder.value_addSegment_eq, Builder.value_addSegment_eq, hw, hwait, Builder.value_flush]
  cases m with
  | segment s => exact hadd s
  | exactly n =>
    rw [apply, apply, Builder.value_exactly, Builder.value_exactly, hw, hwait, Builder.value_flush]
  | atLeast n =>
    rw [apply, apply, Builder.value_atLeast, Builder.value_atLeast, hw, hwait, Builder.value_flush]
  | atMost n =>
    rw [apply, apply, Builder.value_atMost, Builder.value_atMost, hw, hwait, Builder.value_flush]
  | unit literal =>
    have hc : b.pending.hasContent = true := h
    have hp : b.flush.value.pending = {} := by
      rw [Builder.value_flush]
      simp [Builder.waiting, hc]
    rw [apply, apply, Builder.value_unit, Builder.value_unit, hp, hc]
    simpa [Fragment.hasQuantity] using hadd _
  | either other =>
    rw [apply, apply, Builder.value_either, Builder.value_either, hw, hk, hf, Builder.value_flush]
  | or other =>
    rw [apply, apply, Builder.value_or_pattern, Builder.value_or_pattern, hw, hk,
      Builder.value_flush]
  | look opening other =>
    rw [apply, apply, Builder.value_look, Builder.value_look, hw, hk, hf, Builder.value_flush]
  | _ => exact absurd h id

namespace Frame

theorem fill_gap (f : Fragment) (t : Text) :
    f.gap.fill t = ({ f with content := some (.pattern t) } : Fragment).segmentOf (.pattern t) := by
  unfold Fragment.segmentOf
  simp [Fragment.gap, Gap.wrapped, Gap.fill, Text.wrapped, GroupKind.text, Content.literal,
    Fragment.quantity, Fragment.reluctance, Fragment.hasQuantity]

theorem isFormed_gap (f : Fragment) : f.gap.IsFormed :=
  Gap.isFormed_wrapped _ (fun _ h => absurd h List.not_mem_nil) _

theorem groupCount_gap (f : Fragment) : f.gap.groupCount = if f.capture then 1 else 0 := by
  unfold Fragment.gap Gap.wrapped Gap.groupCount
  cases f.capture <;> rfl

section

variable {front : List Segment} {offsets : List Nat} {rest : Builder} (hs : rest.segments = [])
  (hh : rest.held = none) {t : Text} {e : Bool} {b : Builder}
  (h : (pending front offsets rest).Holds t e b)
include hs hh h

/-- A pattern in progress would be written in the gap of the last segment. -/
theorem written_of_pending : b.written = front ++ [rest.pending.gap.fill (shiftAll offsets t)] := by
  rw [h.written, fill_gap]
  simp [Builder.written, Builder.filled, Builder.heldSegments, Fragment.segment?_eq, hs, hh]

theorem holds_flush :
    (written front rest.pending.gap offsets { rest with pending := {} }).Holds t e
      b.flush.value := by
  have hp : b.waiting = {} := by
    rw [h.waiting]
    rfl
  rw [Builder.value_flush, hp, h.groups, h.flags, written_of_pending hs hh h]
  exact ⟨by simp [Builder.heldSegments, hs, hh], rfl, rfl, rfl, h.extended⟩

end

variable {P : Builder → Prop}

/-- A move behind a written pattern changes only what stands behind it. -/
theorem exists_apply_written {front : List Segment} {gap : Gap} {offsets : List Nat}
    {rest : Builder} (hf : (written front gap offsets rest).IsNumbered) {m : Move}
    (hm : m.Allowed P) :
    ∃ f' : Frame, f'.IsNumbered ∧
      ∀ t e b, (written front gap offsets rest).Holds t e b → f'.Holds t e (m.apply b) := by
  obtain ⟨gap', rest', hgap, hstep⟩ := Builder.Follows.exists_apply_gap front gap rest hm
  refine ⟨written front gap' offsets rest', ?_, fun t e b h => hstep _ e b h⟩
  rcases hgap with rfl | ⟨alternative, rfl⟩
  · exact hf
  · exact ⟨hf.1, hf.2.1.push alternative, hf.2.2⟩

/-- A move on a builder with an embedded pattern is a move on the frame. -/
theorem exists_apply {f : Frame} (hf : f.IsNumbered) {m : Move} (hm : m.Allowed P) :
    ∃ f' : Frame, f'.IsNumbered ∧ ∀ t e b, f.Holds t e b → f'.Holds t e (m.apply b) := by
  cases f with
  | written front gap offsets rest => exact exists_apply_written hf hm
  | pending front offsets rest =>
    obtain ⟨hs, hh, hfront, hsum⟩ := hf
    have hwritten (t : Text) : (rest.filled (.pattern t)).written ≠ [] := by
      simp [Builder.written, Builder.filled, Fragment.segment?_eq]
    have happly (t : Text) (e : Bool) (b : Builder)
        (h : (pending front offsets rest).Holds t e b) :=
      Builder.Follows.apply h hm fun _ _ => hwritten _
    -- a move that does not flush changes the fragment around the pattern
    have keeps (rest' : Builder) (offsets' : List Nat)
        (hn : (pending front offsets' rest').IsNumbered)
        (heq : ∀ t, m.apply (rest.filled (.pattern (shiftAll offsets t))) =
          rest'.filled (.pattern (shiftAll offsets' t))) :
        ∃ f' : Frame, f'.IsNumbered ∧
          ∀ t e b, (pending front offsets rest).Holds t e b → f'.Holds t e (m.apply b) :=
      ⟨pending front offsets' rest', hn, fun t e b h => by
        have h' := happly t e b h
        rw [heq t] at h'
        exact h'⟩
    have flushes (hm' : ∀ b : Builder, b.pending.hasContent = true → m.Flushes b) :
        ∃ f' : Frame, f'.IsNumbered ∧
          ∀ t e b, (pending front offsets rest).Holds t e b → f'.Holds t e (m.apply b) := by
      have hn : (written front rest.pending.gap offsets { rest with pending := {} }).IsNumbered :=
        ⟨hfront, isFormed_gap _, hsum⟩
      obtain ⟨f', hf', hstep⟩ := exists_apply_written hn hm
      refine ⟨f', hf', fun t e b h => ?_⟩
      have hc : b.pending.hasContent = true := by
        rw [h.pending]
        rfl
      rw [← Move.apply_flush (hm' b hc)]
      exact hstep t e _ (holds_flush hs hh h)
    have hsame := keeps rest offsets ⟨hs, hh, hfront, hsum⟩
    cases m with
    | flag g => exact keeps (rest.withFlag g) offsets ⟨hs, hh, hfront, hsum⟩ fun _ => rfl
    | content c => exact hsame fun _ => rfl
    | groupAgain group =>
      refine hsame fun t => ?_
      rw [Move.apply, Builder.value_groupAgain _ hm]
      simp [Builder.filled, Fragment.setContent]
    | like other => exact hsame fun t => Builder.value_like_of_some _ other rfl
    | reluctantly => exact keeps rest.reluctantly offsets ⟨hs, hh, hfront, hsum⟩ fun _ => rfl
    | captured =>
      cases hcap : rest.pending.capture with
      | true => exact hsame fun t => if_pos hcap
      | false =>
        refine keeps { rest with groups := rest.groups + 1, pending := rest.pending.setCapture }
          (offsets ++ [1]) ⟨hs, hh, hfront, ?_⟩ fun t => ?_
        · rw [List.sum_append, hsum, groupCount_gap, groupCount_gap, hcap]
          rfl
        · refine (if_neg (ne_true_of_eq_false hcap)).trans ?_
          rw [shiftAll_concat]
          rfl
    | dropRun =>
      refine hsame fun t => if_neg ?_
      simp [Fragment.isOpenAnyRun, Builder.filled]
    | _ => exact flushes fun _ h => by first | exact trivial | exact h

/-- Moves on a builder with an embedded pattern are moves on the frame. -/
theorem exists_applyAll : ∀ (ms : List Move) {f : Frame}, f.IsNumbered → (∀ m ∈ ms, m.Allowed P) →
    ∃ f' : Frame, f'.IsNumbered ∧ ∀ t e b, f.Holds t e b → f'.Holds t e (Move.applyAll b ms)
  | [], f, hf, _ => ⟨f, hf, fun _ _ _ h => h⟩
  | m :: ms, _, hf, hms => by
    obtain ⟨g, hg, hstep⟩ := exists_apply hf (hms m List.mem_cons_self)
    obtain ⟨f', hf', hrun⟩ := exists_applyAll ms hg fun x hx => hms x (List.mem_cons_of_mem _ hx)
    exact ⟨f', hf', fun t e b h => hrun t e (m.apply b) (hstep t e b h)⟩

/-- A frame needs the extended engine by itself, or only if the pattern in it does. -/
theorem exists_extended (f : Frame) :
    ∃ x : Bool, ∀ t e b, f.Holds t e b → b.extended = (x || e) := by
  cases f with
  | pending front offsets rest => exact ⟨rest.extended, fun _ _ _ h => h.extended⟩
  | written front gap offsets rest => exact ⟨rest.extended, fun _ _ _ h => h.extended⟩

/-- A finished pattern has the same around an embedded pattern, whatever pattern it is. -/
theorem exists_surrounding {f : Frame} (hf : f.IsNumbered) :
    ∃ s : Surrounding, ∀ t e b, f.Holds t e b → s.Holds t b.build.value := by
  have finish {front : List Segment} {gap : Gap} {offsets : List Nat}
      (hfront : ∀ s ∈ front, s.IsFormed) (hgap : gap.IsFormed)
      (hsum : offsets.sum = (front.map Segment.groupCount).sum + gap.groupCount) (us : Text)
      (groups : Nat) (flags : Flags) :
      ∃ s : Surrounding, ∀ t literal extended,
        literal = front.flatMap Segment.text ++ (gap.fill (shiftAll offsets t)).text ++ us →
          s.Holds t ⟨literal, flags, groups, extended⟩ := by
    obtain ⟨ps, hps, -⟩ := exists_spells_flatMap_text hfront
    have hrow : Text.IsRow (front.flatMap Segment.text) := ⟨ps, hps⟩
    refine ⟨⟨front.flatMap Segment.text ++ gap.lead, gap.rest ++ us, offsets, groups, flags,
      hgap.isLead_append_lead hrow, hgap.isRest_rest.append us, ?_⟩, fun t literal e h => ?_⟩
    · rw [hgap.openings_append_lead hrow, openings_flatMap_text hfront, hsum]
    · refine ⟨?_, rfl, rfl⟩
      rw [h, Gap.text_fill]
      simp only [List.append_assoc]
  cases f with
  | written front gap offsets rest =>
    obtain ⟨s, hs⟩ := finish hf.1 hf.2.1 hf.2.2 (rest.written.flatMap Segment.text)
      rest.keptGroups rest.flags
    refine ⟨s, fun t e b h => ?_⟩
    rw [Builder.value_build, h.written, h.keptGroups, h.flags]
    refine hs t _ _ ?_
    simp
  | pending front offsets rest =>
    obtain ⟨hs, hh, hfront, hsum⟩ := hf
    obtain ⟨s, hfinish⟩ := finish hfront (isFormed_gap rest.pending) hsum [] rest.groups rest.flags
    refine ⟨s, fun t e b h => ?_⟩
    have hk : b.keptGroups = rest.groups := h.keptGroups.trans (if_neg (by
      simp [Builder.capturesNothing, Builder.filled, Fragment.hasContent]))
    rw [Builder.value_build, written_of_pending hs hh h, hk, h.flags]
    refine hfinish t _ _ ?_
    simp

end Frame

/-! ## Embedding a pattern -/

/-- The places for a pattern that is embedded. -/
inductive Slot where
  /-- The content in progress. -/
  | like
  /-- The first alternative, held until the next one comes. -/
  | either
  /-- One more alternative. -/
  | or
  /-- An assertion. -/
  | look (opening : Opening)

/-- The move that embeds a pattern in the place. -/
def Slot.move (other : Builder) : Slot → Move
  | like => .like other
  | either => .either other
  | or => .or other
  | look opening => .look opening other

/-- Whether the pattern is accepted: as content only if there is none yet. -/
def Slot.Accepts (b : Builder) : Slot → Prop
  | like => b.pending.content = none
  | _ => True

/-- A pattern that was just embedded stands in a frame that depends on the number of its
groups only. -/
theorem Slot.exists_frame (slot : Slot) {b : Builder} (hb : b.IsCounted) (hacc : slot.Accepts b)
    (hlook : slot ≠ .look .capture) (n : Nat) :
    ∃ f : Frame, f.IsNumbered ∧ ∀ other : Builder, other.build.value.groups = n →
      f.Holds other.build.value.scopedLiteral other.build.value.extended
        ((slot.move other).apply b) := by
  have hw := hb.isFormed.written
  have hk := hb.keptGroups_eq
  cases slot with
  | like =>
    refine ⟨.pending (b.segments ++ b.heldSegments) [b.groups]
      ⟨[], b.groups + n, b.flags, b.pending, none, b.extended⟩, ⟨rfl, rfl, ?_, ?_⟩, ?_⟩
    · intro s hs
      rcases List.mem_append.1 hs with hs | hs
      · exact hb.isFormed.segments s hs
      · exact hb.isFormed.heldSegments s hs
    · have hc : b.pending.content = none := hacc
      have hg := hb.groups_eq
      rw [Builder.groupCount, hc, Option.elim_none, Nat.add_zero] at hg
      rw [List.map_append, List.sum_append, hb.isFormed.sum_heldSegments, List.sum_singleton,
        Frame.groupCount_gap]
      exact hg
    · rintro other rfl
      rw [Slot.move, Move.apply, Builder.value_like_of_none b other hacc]
      exact ⟨(List.append_nil _).symm, rfl, rfl, rfl, rfl⟩
  | either =>
    refine ⟨.written b.written (.wrapped .group [] []) [b.keptGroups]
      ⟨[], b.keptGroups + n, b.flags, b.keptFragment, none, b.extended⟩, ⟨hw, ?_, ?_⟩, ?_⟩
    · exact Gap.isFormed_wrapped _ (fun _ h => absurd h List.not_mem_nil) _
    · simp [Gap.wrapped, Gap.groupCount, hk]
    · rintro other rfl
      rw [Slot.move, Move.apply, Builder.value_either]
      refine ⟨?_, rfl, rfl, rfl, rfl⟩
      simp [Builder.heldSegments, Gap.wrapped, Gap.fill, Segment.group, Text.wrapped,
        GroupKind.text, Built.embedded, shiftAll]
  | or =>
    have halt (t : Text) (opening : Opening) (first : List Text) :
        (Gap.wrapped opening first []).fill t = Segment.push ⟨opening, first⟩ t.wrapped := by
      simp [Gap.wrapped, Gap.fill, Segment.push, Text.wrapped, GroupKind.text]
    cases hl : b.written.getLast? with
    | some last =>
      have hsplit : b.written.dropLast ++ [last] = b.written :=
        List.dropLast_append_getLast? last hl
      refine ⟨.written b.written.dropLast (.wrapped last.opening last.alternatives [])
        [b.keptGroups] ⟨[], b.keptGroups + n, b.flags, {}, none, b.extended⟩, ⟨?_, ?_, ?_⟩, ?_⟩
      · exact fun s hs => hw s (List.dropLast_subset _ hs)
      · exact Gap.isFormed_wrapped _ (hw last (List.mem_of_getLast? hl)).isRow _
      · rw [← hsplit, List.map_append, List.sum_append] at hk
        exact hk
      · rintro other rfl
        rw [Slot.move, Move.apply, Builder.value_or_pattern]
        refine Builder.Follows.of_segments ?_ rfl
        rw [addAlternative, hl, halt, List.append_nil]
        rfl
    | none =>
      refine ⟨.written [] (.wrapped .group [] []) [b.keptGroups]
        ⟨[], b.keptGroups + n, b.flags, {}, none, b.extended⟩,
        ⟨fun _ h => absurd h List.not_mem_nil, ?_, ?_⟩, ?_⟩
      · exact Gap.isFormed_wrapped _ (fun _ h => absurd h List.not_mem_nil) _
      · rw [List.getLast?_eq_none_iff.1 hl] at hk
        exact hk
      · rintro other rfl
        rw [Slot.move, Move.apply, Builder.value_or_pattern]
        refine Builder.Follows.of_segments ?_ rfl
        rw [addAlternative, hl, halt, List.append_nil]
        rfl
  | look opening =>
    refine ⟨.written b.written ⟨opening, [], [], [], []⟩ [b.keptGroups]
      ⟨[], b.keptGroups + n, b.flags, b.keptFragment, none, true⟩, ⟨hw, ?_, ?_⟩, ?_⟩
    · exact ⟨fun _ h => absurd h List.not_mem_nil, .inl rfl, .inl rfl⟩
    · have ho : opening ≠ .capture := fun h => hlook (congrArg Slot.look h)
      simp [Gap.groupCount, hk, ho]
    · rintro other rfl
      rw [Slot.move, Move.apply, Builder.value_look]
      refine Builder.Follows.of_segments ?_ rfl
      simp [Gap.fill, Built.embedded, shiftAll]

end FluentPattern
