import FluentPattern.Proofs.Move

/-!
# What a builder would write

A builder holds a pattern in three places: the finished segments, a held first
alternative, and the fragment in progress. What it would write now is the segments,
then the held alternative alone, then the fragment if it has content. Finishing
what is in progress moves all of it into the segments and changes nothing else, apart
from the group of a capture without content, which is taken back where a pattern is
embedded or finished.

Main statements: `Builder.value_flush`, `Builder.value_build`,
`Builder.value_either`, `Builder.value_look`, `Builder.value_or_pattern`.
-/

namespace FluentPattern

/-- A text in a group that captures nothing. -/
def Text.wrapped (t : Text) : Text :=
  ['(', '?', ':'] ++ t ++ [')']

/-- The finished pattern as it is written inside another one, after some groups. -/
def Built.embedded (offset : Nat) (p : Built) : Text :=
  shiftReferences offset p.scopedLiteral

/-- The segment of a fragment with a content. -/
def Fragment.segmentOf (f : Fragment) (c : Content) : Segment :=
  ⟨if f.capture then .capture else .group, [c.literal.wrapped ++ f.quantity ++ f.reluctance]⟩

theorem Fragment.segment?_eq (f : Fragment) : f.segment? = f.content.map f.segmentOf :=
  rfl

/-- One more alternative for the last of some segments; alone if there is none. -/
def addAlternative (ss : List Segment) (alternative : Text) : List Segment :=
  match ss.getLast? with
  | some last => ss.dropLast ++ [last.push alternative]
  | none => [.group alternative]

namespace Builder

/-- The segment of the held alternative alone. -/
def heldSegments (b : Builder) : List Segment :=
  (b.held.map fun t => .group t.wrapped).toList

/-- The segments that the builder would write now. -/
def written (b : Builder) : List Segment :=
  b.segments ++ b.heldSegments ++ b.pending.segment?.toList

/-- Whether the fragment captures and has no content. -/
def capturesNothing (b : Builder) : Bool :=
  b.pending.capture && !b.pending.hasContent

/-- The number of groups without that of a capture without content. -/
def keptGroups (b : Builder) : Nat :=
  if b.capturesNothing then b.groups - 1 else b.groups

/-- The fragment after what is in progress is finished. -/
def waiting (b : Builder) : Fragment :=
  if b.pending.hasContent then {} else b.pending

/-- What is left of the fragment where a pattern is embedded as a unit of its own: its
quantity and modifiers, if it neither has content nor captures. -/
def keptFragment (b : Builder) : Fragment :=
  if b.capturesNothing then {} else b.waiting

/-! ## Finishing what is in progress -/

theorem value_releaseHeld (b : Builder) :
    b.releaseHeld.value = { b with segments := b.segments ++ b.heldSegments, held := none } := by
  obtain ⟨segments, groups, flags, pending, held, extended⟩ := b
  cases held with
  | none => simp [releaseHeld, heldSegments]
  | some t => rfl

theorem value_finishFragment (b : Builder) :
    b.finishFragment.value =
      { b with segments := b.segments ++ b.pending.segment?.toList, pending := b.waiting } := by
  obtain ⟨segments, groups, flags, ⟨min, max, content, reluctant, capture⟩, held, extended⟩ := b
  cases content with
  | none => simp [finishFragment, Fragment.segment?, waiting, Fragment.hasContent]
  | some c =>
    unfold finishFragment
    rw [Fragment.segment?_eq]
    simp only [Option.map_some]
    cases Fragment.reluctanceIsIdle ⟨min, max, some c, reluctant, capture⟩ <;> rfl

/-- All that is in progress is written, the held alternative first. -/
theorem value_flush (b : Builder) :
    b.flush.value = { b with segments := b.written, held := none, pending := b.waiting } := by
  show b.releaseHeld.value.finishFragment.value = _
  rw [value_finishFragment, value_releaseHeld]
  rfl

theorem value_dropFragment (b : Builder) :
    b.dropFragment.value =
      { b with groups := if b.pending.capture then b.groups - 1 else b.groups, pending := {} } := by
  unfold dropFragment
  cases b.pending.capture <;> rfl

theorem capture_waiting (b : Builder) : b.waiting.capture = b.capturesNothing := by
  unfold waiting capturesNothing
  cases b.pending.hasContent
  · simp
  · simp

theorem content_waiting (b : Builder) : b.waiting.content = none := by
  unfold waiting Fragment.hasContent
  cases h : b.pending.content with
  | none => simp [h]
  | some c => simp

theorem content_keptFragment (b : Builder) : b.keptFragment.content = none := by
  unfold keptFragment
  split
  · rfl
  · exact b.content_waiting

theorem capture_keptFragment (b : Builder) : b.keptFragment.capture = false := by
  unfold keptFragment
  cases h : b.capturesNothing with
  | true => rfl
  | false => exact b.capture_waiting.trans h

/-- With nothing held and no content, there are only the segments. -/
theorem written_of_idle {b : Builder} (hh : b.held = none) (hc : b.pending.content = none) :
    b.written = b.segments := by
  simp [written, heldSegments, hh, Fragment.segment?, hc]

theorem waiting_of_idle {b : Builder} (hc : b.pending.content = none) : b.waiting = b.pending := by
  simp [waiting, Fragment.hasContent, hc]

theorem value_flushForEmbedding (b : Builder) :
    b.flushForEmbedding.value =
      { b with segments := b.written, held := none, groups := b.keptGroups,
               pending := b.keptFragment } := by
  have hv : b.flushForEmbedding.value =
      (if b.flush.value.pending.capture then b.flush.value.dropFragment
        else pure b.flush.value).value := rfl
  rw [hv, value_flush, capture_waiting, keptGroups, keptFragment]
  cases h : b.capturesNothing with
  | false => rfl
  | true => simp [value_dropFragment, capture_waiting, h]

theorem value_addSegment_eq (b : Builder) (s : Segment) :
    (b.addSegment s).value =
      { b with segments := b.written ++ [s], held := none, pending := b.waiting } := by
  rw [value_addSegment, value_flush]

/-- The finished pattern is what the builder would write now. -/
theorem value_build (b : Builder) :
    b.build.value = ⟨b.written.flatMap Segment.text, b.flags, b.keptGroups, b.extended⟩ := by
  have hv : b.build.value = (fun d : Builder => (⟨d.segments.flatMap Segment.text, d.flags,
    d.groups, d.extended⟩ : Built)) b.flush.value.dropFragment.value := rfl
  rw [hv, value_dropFragment, value_flush, capture_waiting]
  rfl

theorem value_embed (b other : Builder) :
    (b.embed other).value = (other.build.value.embedded b.groups,
      { b with groups := b.groups + other.build.value.groups,
               extended := b.extended || other.build.value.extended }) :=
  rfl

/-! ## Moves -/

theorem value_exactly (b : Builder) (n : Nat) :
    (b.exactly n).value =
      { b with segments := b.written, held := none, pending := b.waiting.setExact n } := by
  show { b.flush.value with pending := b.flush.value.pending.setExact n } = _
  rw [value_flush]

theorem value_atLeast (b : Builder) (n : Nat) :
    (b.atLeast n).value =
      { b with segments := b.written, held := none, pending := b.waiting.setMin n } := by
  show { b.flush.value with pending := b.flush.value.pending.setMin n } = _
  rw [value_flush]

theorem value_atMost (b : Builder) (n : Nat) :
    (b.atMost n).value =
      { b with segments := b.written, held := none, pending := b.waiting.setMax n } := by
  show { b.flush.value with pending := b.flush.value.pending.setMax n } = _
  rw [value_flush]

/-- The first content wins. -/
theorem value_withContent (b : Builder) (c : Content) :
    (b.withContent c).value = { b with pending := b.pending.setContent c } := by
  obtain ⟨segments, groups, flags, ⟨min, max, content, reluctant, capture⟩, held, extended⟩ := b
  cases content <;> rfl

theorem value_groupAgain (b : Builder) {group : Nat} (h : group ≠ 0) :
    (b.groupAgain group).value =
      { b with pending := b.pending.setContent (.groupAgain group),
               extended := b.extended || b.pending.content.isNone } := by
  unfold groupAgain
  rw [if_neg h, Logged.value_bind, Logged.value_pure, value_withContent]

/-- Content that stands alone unless a quantity waits for it. -/
theorem value_unit (b : Builder) (literal : Text) :
    (b.unit literal).value =
      if b.pending.hasQuantity && !b.pending.hasContent then
        (b.withContent (.pattern literal)).value
      else (b.addSegment (.group literal)).value := by
  unfold unit
  split <;> rfl

theorem value_like_of_some (b other : Builder) {c : Content} (h : b.pending.content = some c) :
    (b.like other).value = b := by
  unfold like
  rw [h]
  rfl

theorem value_like_of_none (b other : Builder) (h : b.pending.content = none) :
    (b.like other).value =
      { b with pending := { b.pending with
                 content := some (.pattern (other.build.value.embedded b.groups)) },
               groups := b.groups + other.build.value.groups,
               extended := b.extended || other.build.value.extended } := by
  unfold like
  rw [h]
  refine (value_withContent _ _).trans ?_
  simp [Fragment.setContent, h, Built.embedded]

theorem value_either (b other : Builder) :
    (b.either (.pattern other)).value =
      { b with segments := b.written,
               held := some (other.build.value.embedded b.keptGroups),
               groups := b.keptGroups + other.build.value.groups,
               pending := b.keptFragment,
               extended := b.extended || other.build.value.extended } := by
  show { (b.flushForEmbedding.value.embed other).value.2 with
    held := some (b.flushForEmbedding.value.embed other).value.1 } = _
  rw [value_embed, value_flushForEmbedding]

theorem value_addSegment_of_idle {b : Builder} (hh : b.held = none)
    (hc : b.pending.content = none) (s : Segment) :
    (b.addSegment s).value = { b with segments := b.segments ++ [s] } := by
  rw [value_addSegment_eq, written_of_idle hh hc, waiting_of_idle hc, ← hh]

theorem value_look (b other : Builder) (opening : Opening) :
    (b.look opening other).value =
      { b with segments :=
                 b.written ++ [⟨opening, [other.build.value.embedded b.keptGroups]⟩],
               held := none,
               groups := b.keptGroups + other.build.value.groups,
               pending := b.keptFragment,
               extended := true } := by
  have hf := b.value_flushForEmbedding
  have hv : (b.look opening other).value =
      (addSegment { b.flushForEmbedding.value with
          groups := b.flushForEmbedding.value.groups + other.build.value.groups, extended := true }
        ⟨opening, [other.build.value.embedded b.flushForEmbedding.value.groups]⟩).value := rfl
  rw [hf] at hv
  refine hv.trans ?_
  rw [value_addSegment_of_idle]
  · rfl
  · exact b.content_keptFragment

theorem value_placeAlternative (b : Builder) (alternative : Text) :
    (b.placeAlternative alternative).value =
      { b with segments := addAlternative (b.segments ++ b.heldSegments) alternative,
               held := none } := by
  obtain ⟨segments, groups, flags, pending, held, extended⟩ := b
  unfold placeAlternative addAlternative heldSegments
  cases held with
  | some t => simp [Segment.push, Segment.group, Text.wrapped]
  | none =>
    simp only [Option.map_none, Option.toList_none, List.append_nil]
    cases segments.getLast? <;> rfl

theorem written_finishForOr (b : Builder) :
    b.finishForOr.segments ++ b.finishForOr.heldSegments = b.written := by
  unfold finishForOr
  cases h : b.pending.hasContent with
  | false =>
    have hc : b.pending.content = none := by simpa [Fragment.hasContent] using h
    simp [value_finishFragment, written, heldSegments, Fragment.segment?, hc]
  | true =>
    rw [if_pos rfl, value_finishFragment, value_releaseHeld]
    simp [heldSegments, written]

theorem pending_finishForOr (b : Builder) : b.finishForOr.pending = b.waiting := by
  unfold finishForOr
  cases h : b.pending.hasContent with
  | false => rw [if_neg Bool.false_ne_true, value_finishFragment]
  | true => rw [if_pos rfl, value_finishFragment, value_releaseHeld]; rfl

theorem groups_finishForOr (b : Builder) : b.finishForOr.groups = b.groups := by
  unfold finishForOr
  cases h : b.pending.hasContent with
  | false => rw [if_neg Bool.false_ne_true, value_finishFragment]
  | true => rw [if_pos rfl, value_finishFragment, value_releaseHeld]

/-- An alternative joins the last segment that the builder would write now. -/
theorem value_or_pattern (b other : Builder) :
    (b.or (.pattern other)).value =
      { b with segments :=
                 addAlternative b.written (other.build.value.embedded b.keptGroups).wrapped,
               held := none,
               groups := b.keptGroups + other.build.value.groups,
               pending := {},
               extended := b.extended || other.build.value.extended } := by
  have hd : b.finishForOr.dropFragment.value =
      { b.finishForOr with groups := b.keptGroups, pending := {} } := by
    rw [value_dropFragment, pending_finishForOr, capture_waiting, groups_finishForOr]
    rfl
  refine (b.value_or (.pattern other)).trans ?_
  rw [hd]
  refine (value_placeAlternative _ _).trans ?_
  have hw := b.written_finishForOr
  have hflags : b.finishForOr.flags = b.flags ∧ b.finishForOr.extended = b.extended := by
    unfold finishForOr
    split <;> simp [value_finishFragment, value_releaseHeld]
  simp only [value_embed, heldSegments] at hw ⊢
  rw [hw, hflags.1, hflags.2]
  rfl

end Builder

end FluentPattern
