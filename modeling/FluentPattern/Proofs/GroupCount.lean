import FluentPattern.Proofs.Structure
import Mathlib.Algebra.GroupWithZero.Nat

/-!
# The counter of groups

A builder counts capturing groups before it writes them: a capture is counted when
it is marked, and the groups of an embedded pattern when the pattern is taken. So the
counter is the number of groups that open in all that the builder would write now,
and one more while a capture waits for its content. Where a fragment is dropped it
has no content, and a capture that goes with it was counted.

Main statements: `openings_flatMap_text`, `Builder.IsCounted.apply` (every move keeps
the count), `Call.groups_builder`.
-/

namespace FluentPattern

/-! ## Groups that open in the parts of a pattern -/

theorem Text.IsRow.openings_wrapped_append {t : Text} (ht : t.IsRow) (q : Option Quantity) :
    openings (t.wrapped ++ Quantity.suffix q) = openings t := by
  obtain ⟨b, hb⟩ := ht
  have hg := hb.openings_group .plain q []
  rw [List.append_nil] at hg
  simpa [Text.wrapped, GroupKind.text] using hg

theorem Text.IsRow.openings_wrapped {t : Text} (ht : t.IsRow) :
    openings t.wrapped = openings t := by
  have h := ht.openings_wrapped_append none
  rwa [Quantity.suffix, List.append_nil] at h

/-- The flags around a literal capture nothing. -/
theorem Built.openings_scopedLiteral (p : Built) (hp : p.literal.IsRow) :
    openings p.scopedLiteral = openings p.literal := by
  obtain ⟨b, hb⟩ := hp
  rcases scopedLiteral_eq p.flags with h | ⟨fs, -, h⟩
  · rw [h p rfl]
  · rw [h p rfl, hb.openings_group, openings_nil, if_neg (by simp)]
    omega

theorem Built.openings_embedded (p : Built) (hp : p.literal.IsRow) (offset : Nat) :
    openings (p.embedded offset) = openings p.literal := by
  rw [embedded, openings_shiftReferences, p.openings_scopedLiteral hp]

/-- Escaped text opens nothing. -/
theorem openings_escapeOutside (t : Text) : openings t.escapeOutside = 0 := by
  unfold openings
  induction t with
  | nil => exact openings_nil
  | cons c t ih =>
    rw [Text.escapeOutside, Text.escape_cons, Text.escapeChar]
    cases h : Text.isSpecialOutside c with
    | true =>
      refine (congrArg _ (signs_pair (Text.escaped_of_isSpecialOutside h).1 _)).trans ?_
      rwa [List.countP_cons_of_neg Bool.false_ne_true]
    | false =>
      have hc : c ≠ '\\' ∧ c ≠ '[' ∧ c ≠ '(' := by
        refine ⟨?_, ?_, ?_⟩ <;> rintro rfl <;> exact absurd h (by decide)
      refine (congrArg _ (signs_cons hc.1 hc.2.1 hc.2.2 _)).trans ?_
      rwa [List.countP_cons_of_neg Bool.false_ne_true]

/-- Nothing opens in a class. -/
theorem openings_class (negated : Bool) {t : Text} (h : t.IsMembers) :
    openings ('[' :: ((if negated then ['^'] else []) ++ t ++ [']'])) = 0 := by
  obtain ⟨ms, items, -, hw, rfl, -⟩ := h.exists_members
  have hs := signs_classText negated hw []
  rw [signs_nil, List.append_nil, classText, ← List.append_assoc] at hs
  rw [openings, hs, List.countP_eq_zero]
  intro x hx
  rcases List.mem_append.1 hx with hx | hx
  · rcases List.mem_cons.1 hx with rfl | hx
    · exact Bool.false_ne_true
    · obtain ⟨l, -, rfl⟩ := List.mem_map.1 hx
      exact Bool.false_ne_true
  · exact List.mem_singleton.1 hx ▸ Bool.false_ne_true

theorem Content.IsGiven.openings {c : Content} (h : c.IsGiven) : openings c.literal = 0 := by
  cases h with
  | text _ => exact openings_escapeOutside _
  | anyChar => exact openings_plains (by simp [Text.IsInert, Content.literal])
  | oneOf hm => exact openings_class false hm
  | noneOf hm => exact openings_class true hm

theorem openings_groupAgain (n : Nat) : openings (Content.groupAgain n).literal = 0 := by
  have h := signs_reference (Text.decimal_ne_nil n) (fun _ hc => Text.isDigit_of_mem_decimal hc)
    (t := []) rfl
  rw [List.append_nil, signs_nil] at h
  rw [openings, Content.literal, h]
  rfl

/-! ## Segments -/

/-- The number of capturing groups that open in a segment: its own, if it captures, and
those of its alternatives. -/
def Segment.groupCount (s : Segment) : Nat :=
  (if s.opening = .capture then 1 else 0) + (s.alternatives.map openings).sum

/-- The bars between rows open nothing. -/
theorem openings_intercalate : ∀ ts : List Text, (∀ t ∈ ts, Text.IsRow t) →
    openings (['|'].intercalate ts) = (ts.map openings).sum
  | [], _ => openings_nil
  | [t], _ => by simp [List.intercalate]
  | t :: u :: ts, hrow => by
    obtain ⟨b, hb⟩ := hrow t List.mem_cons_self
    have ih := openings_intercalate (u :: ts) fun x hx => hrow x (List.mem_cons_of_mem _ hx)
    have hj := hb.openings_bar (['|'].intercalate (u :: ts))
    rw [ih] at hj
    rw [List.map_cons, List.sum_cons, ← hj]
    simp [List.intercalate]

theorem Segment.IsFormed.openings_append {s : Segment} (hs : s.IsFormed) (t : Text) :
    openings (s.text ++ t) = s.groupCount + openings t := by
  obtain ⟨bs, hbs⟩ := exists_forall₂_spells hs.isRow
  have hg := (spells_intercalate hs.ne_nil hbs).openings_group s.opening.kind none t
  rw [openings_intercalate _ hs.isRow] at hg
  have hk : s.opening.kind = .capture ↔ s.opening = .capture := by
    cases s.opening <;> decide
  simpa [Segment.text, Segment.groupCount, Opening.text_kind, Quantity.suffix, hk] using hg

/-- The groups that open in written segments are those of the segments. -/
theorem openings_flatMap_text {ss : List Segment} (h : ∀ s ∈ ss, s.IsFormed) :
    openings (ss.flatMap Segment.text) = (ss.map Segment.groupCount).sum := by
  induction ss with
  | nil => exact openings_nil
  | cons s ss ih =>
    rw [List.flatMap_cons, (h s List.mem_cons_self).openings_append,
      ih fun x hx => h x (List.mem_cons_of_mem _ hx), List.map_cons, List.sum_cons]

@[simp] theorem Segment.groupCount_group (t : Text) :
    (Segment.group t).groupCount = openings t := by
  simp [Segment.groupCount, Segment.group]

theorem Fragment.groupCount_segmentOf (f : Fragment) {c : Content} (hc : c.literal.IsRow) :
    (f.segmentOf c).groupCount = (if f.capture then 1 else 0) + openings c.literal := by
  have h := hc.openings_wrapped_append f.quantity?
  rw [← f.quantity_append_reluctance, ← List.append_assoc] at h
  rw [Segment.groupCount, segmentOf, List.map_singleton, List.sum_singleton, h]
  cases f.capture <;> rfl

/-- The segments that calls add by themselves capture nothing. -/
theorem Segment.groupCount_of_mem_units {s : Segment} (hs : s ∈ Segment.units) :
    s.groupCount = 0 := by
  have digits := Text.IsMembers.range '0' '9'
  simp only [Segment.units, List.mem_cons, List.not_mem_nil, or_false] at hs
  rcases hs with rfl | rfl | rfl | rfl | rfl | rfl
  · rw [groupCount_group, openings_plains (by simp [Text.IsInert])]
  · rw [groupCount_group, openings_plains (by simp [Text.IsInert])]
  · simp [groupCount, openings, signs_pair]
  · simp [openings, signs_pair]
  · rw [groupCount_group]
    exact openings_class false digits
  · rw [groupCount_group]
    exact openings_class true digits

/-- One more alternative brings its groups to the segments. -/
theorem sum_groupCount_addAlternative (ss : List Segment) (t : Text) :
    ((addAlternative ss t).map Segment.groupCount).sum =
      (ss.map Segment.groupCount).sum + openings t := by
  unfold addAlternative
  split
  · rename_i last hl
    have hss : ss.dropLast ++ [last] = ss := List.dropLast_append_getLast? last hl
    have hpush : (last.push t).groupCount = last.groupCount + openings t := by
      rw [Segment.groupCount, Segment.groupCount, Segment.push, List.map_append, List.sum_append,
        List.map_singleton, List.sum_singleton, Nat.add_assoc]
    conv_rhs => rw [← hss]
    rw [List.map_append, List.map_append, List.sum_append, List.sum_append, List.map_singleton,
      List.map_singleton, List.sum_singleton, List.sum_singleton, hpush, Nat.add_assoc]
  · rename_i hl
    rw [List.getLast?_eq_none_iff.1 hl]
    simp

/-! ## The counter -/

/-- The number of groups that open in the segments, in the held alternative and in the
content in progress, and the one of a fragment that captures. -/
def Builder.groupCount (b : Builder) : Nat :=
  (b.segments.map Segment.groupCount).sum + b.held.elim 0 openings +
    b.pending.content.elim 0 (fun c => openings c.literal) + if b.pending.capture then 1 else 0

theorem Builder.IsFormed.sum_heldSegments {b : Builder} (hb : b.IsFormed) :
    (b.heldSegments.map Segment.groupCount).sum = b.held.elim 0 openings := by
  unfold Builder.heldSegments
  cases h : b.held with
  | none => rfl
  | some t => simp [(hb.held t h).openings_wrapped]

/-- Those are the groups of all that the builder would write now, and the one of a capture
that waits for content. -/
theorem Builder.IsFormed.groupCount_eq {b : Builder} (hb : b.IsFormed) :
    b.groupCount = (b.written.map Segment.groupCount).sum + if b.capturesNothing then 1 else 0 := by
  rw [groupCount, Builder.written, List.map_append, List.map_append, List.sum_append,
    List.sum_append, hb.sum_heldSegments, Fragment.segment?_eq, capturesNothing,
    Fragment.hasContent]
  cases h : b.pending.content with
  | none => simp
  | some c =>
    simp [b.pending.groupCount_segmentOf (hb.content c h)]
    omega

/-- A builder of rows that has counted its groups. -/
structure Builder.IsCounted (b : Builder) : Prop where
  isFormed : b.IsFormed
  groups_eq : b.groups = b.groupCount

namespace Builder.IsCounted

variable {b other : Builder}

theorem empty : Builder.empty.IsCounted :=
  ⟨.empty, rfl⟩

theorem keptGroups_eq (hb : b.IsCounted) :
    b.keptGroups = (b.written.map Segment.groupCount).sum := by
  rw [keptGroups, hb.groups_eq, hb.isFormed.groupCount_eq]
  cases b.capturesNothing <;> rfl

/-- A finished pattern has the groups that open in its literal. -/
theorem openings_literal (hb : b.IsCounted) :
    openings b.build.value.literal = b.build.value.groups := by
  rw [value_build]
  exact (openings_flatMap_text hb.isFormed.written).trans hb.keptGroups_eq.symm

theorem openings_embedded (hb : b.IsCounted) (offset : Nat) :
    openings (b.build.value.embedded offset) = b.build.value.groups :=
  (b.build.value.openings_embedded hb.isFormed.isRow_literal offset).trans hb.openings_literal

/-- Once all is written, the counter keeps only a capture that waits. -/
theorem groups_eq_of_written (hb : b.IsCounted) :
    b.groups =
      (b.written.map Segment.groupCount).sum + if b.waiting.capture then 1 else 0 := by
  rw [hb.groups_eq, hb.isFormed.groupCount_eq, capture_waiting]

/-- A builder with segments and a fragment without content counts both. -/
theorem of_segments {ss : List Segment} {groups : Nat} {flags : Flags} {f : Fragment}
    {extended : Bool} (hform : Builder.IsFormed ⟨ss, groups, flags, f, none, extended⟩)
    (hc : f.content = none)
    (hg : groups = (ss.map Segment.groupCount).sum + if f.capture then 1 else 0) :
    Builder.IsCounted ⟨ss, groups, flags, f, none, extended⟩ := by
  refine ⟨hform, hg.trans ?_⟩
  simp [groupCount, hc]

theorem addSegment (hb : b.IsCounted) {s : Segment} (hs : s.IsFormed) (h0 : s.groupCount = 0) :
    (b.addSegment s).value.IsCounted := by
  have hform := hb.isFormed.addSegment hs
  rw [value_addSegment_eq] at hform ⊢
  refine of_segments hform b.content_waiting ?_
  rw [List.map_append, List.sum_append, List.map_singleton, List.sum_singleton, h0, Nat.add_zero]
  exact hb.groups_eq_of_written

/-- A content comes with its groups. -/
theorem setContent (hb : b.IsCounted) (hc : b.pending.content = none) {c : Content}
    (hrow : c.literal.IsRow) {e : Bool} :
    Builder.IsCounted { b with pending := { b.pending with content := some c },
                               groups := b.groups + openings c.literal, extended := e } := by
  refine ⟨⟨hb.isFormed.segments, hb.isFormed.held, fun d h => Option.some.inj h ▸ hrow⟩, ?_⟩
  have hg := hb.groups_eq
  simp only [groupCount, hc, Option.elim_none, Option.elim_some] at hg ⊢
  omega

/-- A content without groups leaves the counter as it is, accepted or not. -/
theorem withContent (hb : b.IsCounted) {c : Content} (hrow : c.literal.IsRow)
    (h0 : openings c.literal = 0) {e : Bool} :
    Builder.IsCounted { b with pending := b.pending.setContent c, extended := e } := by
  cases hc : b.pending.content with
  | some d =>
    have hp : b.pending.setContent c = b.pending := by
      rw [Fragment.setContent, hc, Option.some_or, ← hc]
    rw [hp]
    exact ⟨⟨hb.isFormed.segments, hb.isFormed.held, hb.isFormed.content⟩, hb.groups_eq⟩
  | none =>
    have h := hb.setContent hc hrow (e := e)
    rw [h0] at h
    simpa [Fragment.setContent, hc] using h

/-- A capture is counted where it is marked, and renumbering the content keeps its
groups. -/
theorem groups_captured (hb : b.IsCounted) : b.captured.groups = b.captured.groupCount := by
  have hg := hb.groups_eq
  unfold Builder.captured
  cases hcap : b.pending.capture with
  | true => simpa using hg
  | false =>
    have hshift (c : Content) : openings (c.shift 1).literal = openings c.literal := by
      cases c with
      | pattern t => exact openings_shiftReferences 1 t
      | _ => rfl
    rw [if_neg Bool.false_ne_true]
    cases hc : b.pending.content <;>
      simp [groupCount, Fragment.setCapture, Fragment.shiftGroups, hc, hcap, hshift] at hg ⊢ <;>
      omega

theorem groups_dropRun (hb : b.IsCounted) : b.dropRun.groups = b.dropRun.groupCount := by
  have hg := hb.groups_eq
  unfold Builder.dropRun
  cases h : b.pending.isOpenAnyRun with
  | false => exact hg
  | true =>
    obtain ⟨hc, hcap⟩ := Fragment.of_isOpenAnyRun h
    have h0 : openings Content.anyChar.literal = 0 := Content.IsGiven.anyChar.openings
    simpa [groupCount, hc, hcap, h0] using hg

/-- Every move keeps the count. -/
theorem apply (hb : b.IsCounted) {m : Move} (hm : m.Allowed Builder.IsCounted) :
    (m.apply b).IsCounted := by
  have hform : (m.apply b).IsFormed := hb.isFormed.apply (hm.mono fun _ h => h.isFormed)
  cases m with
  | flag f => exact ⟨hform, hb.groups_eq⟩
  | segment s =>
    exact hb.addSegment (Segment.isFormed_of_mem_units hm) (Segment.groupCount_of_mem_units hm)
  | exactly n =>
    rw [Move.apply, value_exactly] at hform ⊢
    exact of_segments hform b.content_waiting hb.groups_eq_of_written
  | atLeast n =>
    rw [Move.apply, value_atLeast] at hform ⊢
    exact of_segments hform b.content_waiting hb.groups_eq_of_written
  | atMost n =>
    rw [Move.apply, value_atMost] at hform ⊢
    exact of_segments hform b.content_waiting hb.groups_eq_of_written
  | content c =>
    rw [Move.apply, value_withContent]
    exact hb.withContent hm.isRow hm.openings
  | groupAgain group =>
    rw [Move.apply, value_groupAgain b hm]
    exact hb.withContent (isRow_groupAgain group) (openings_groupAgain group)
  | unit literal =>
    have hrow := isRow_named hm
    have h0 : openings literal = 0 := by
      rcases hm with rfl | rfl <;> simp [openings, signs_pair]
    rw [Move.apply, value_unit]
    split
    · rw [value_withContent]
      exact hb.withContent (c := .pattern literal) hrow h0
    · exact hb.addSegment (Segment.isFormed_singleton hrow)
        ((Segment.groupCount_group literal).trans h0)
  | like other =>
    cases hc : b.pending.content with
    | some c =>
      rw [Move.apply, value_like_of_some b other hc]
      exact hb
    | none =>
      have ho : other.IsCounted := hm
      rw [Move.apply, value_like_of_none b other hc, ← ho.openings_embedded b.groups]
      exact hb.setContent hc (c := .pattern _) (ho.isFormed.isRow_embedded _)
  | reluctantly => exact ⟨hform, hb.groups_eq⟩
  | captured => exact ⟨hform, hb.groups_captured⟩
  | either other =>
    have ho : other.IsCounted := hm
    refine ⟨hform, ?_⟩
    rw [Move.apply, value_either]
    simp [groupCount, content_keptFragment, capture_keptFragment, ho.openings_embedded,
      hb.keptGroups_eq]
  | or other =>
    have ho : other.IsCounted := hm
    rw [Move.apply, value_or_pattern] at hform ⊢
    refine of_segments hform rfl ?_
    rw [sum_groupCount_addAlternative, (ho.isFormed.isRow_embedded _).openings_wrapped,
      ho.openings_embedded, hb.keptGroups_eq]
    rfl
  | look opening other =>
    have ho : other.IsCounted := hm.2
    have hopen : opening ≠ .capture := by
      rcases hm.1 with rfl | rfl <;> decide
    rw [Move.apply, value_look] at hform ⊢
    refine of_segments hform b.content_keptFragment ?_
    simp [capture_keptFragment, Segment.groupCount, hopen, ho.openings_embedded, hb.keptGroups_eq]
  | dropRun => exact ⟨hform, hb.groups_dropRun⟩

end Builder.IsCounted

/-- Every builder that calls give has counted its groups. -/
theorem Call.isCounted_builder (calls : List Call) : (Call.builder calls).IsCounted :=
  Call.holds_builder Builder.IsCounted.empty (fun _ _ hb hm => hb.apply hm) calls

/-! ## Dropped fragments -/

/-- The builders whose fragment is dropped in a call on this builder or where it is
finished. `build` and `flushForEmbedding` drop the fragment once all is flushed, with `nor`
after a run of any characters is gone, and `or` once it has finished what has content. -/
def Builder.dropSites (b : Builder) : List Builder :=
  [b.flush.value, b.dropRun.flush.value, b.finishForOr]

/-- A dropped fragment has no content, and its capture was counted. -/
theorem Builder.IsCounted.of_mem_dropSites {b d : Builder} (hb : b.IsCounted)
    (hd : d ∈ b.dropSites) :
    d.pending.content = none ∧ (d.pending.capture = true → 0 < d.groups) := by
  have waits {c : Builder} (hc : c.IsCounted) (h : c.waiting.capture = true) : 0 < c.groups := by
    rw [hc.groups_eq_of_written, if_pos h]
    omega
  have hrun : b.dropRun.IsCounted := hb.apply (m := .dropRun) trivial
  simp only [dropSites, List.mem_cons, List.not_mem_nil, or_false] at hd
  rcases hd with rfl | rfl | rfl
  · rw [value_flush]
    exact ⟨b.content_waiting, waits hb⟩
  · rw [value_flush]
    exact ⟨b.dropRun.content_waiting, waits hrun⟩
  · rw [pending_finishForOr, groups_finishForOr]
    exact ⟨b.content_waiting, waits hb⟩

/-- In every builder that calls give, the counter is the number of capturing groups that
open in the segments, in the held alternative and in the content in progress, and of a
fragment that captures. No fragment with content is dropped, none takes a group back
from an empty counter, and a built pattern has the groups that open in its literal. -/
theorem Call.groups_builder (calls : List Call) :
    let b := Call.builder calls
    b.groups = openings (b.segments.flatMap Segment.text) + b.held.elim 0 openings +
        b.pending.content.elim 0 (fun c => openings c.literal) +
        (if b.pending.capture then 1 else 0) ∧
      (∀ d ∈ b.dropSites,
        d.pending.content = none ∧ (d.pending.capture = true → 0 < d.groups)) ∧
      (Call.build calls).value.groups = openings (Call.build calls).value.literal := by
  intro b
  have hb : b.IsCounted := Call.isCounted_builder calls
  refine ⟨?_, fun d hd => hb.of_mem_dropSites hd, hb.openings_literal.symm⟩
  rw [openings_flatMap_text hb.isFormed.segments]
  exact hb.groups_eq

end FluentPattern
