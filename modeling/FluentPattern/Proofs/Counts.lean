import FluentPattern.Proofs.Copy

/-!
# What a count changes

A count waits as a bound of the fragment in progress until the fragment has content and is
written, or until it is overwritten or dropped. From then on it is a number in the quantity behind
one unit, which later moves and hosts leave as it is. So a pattern with another count is the same
pattern, but for the numbers of one quantity.

Builders that differ in a count only are a function of the count here, and so are texts and
quantities.

Main statements: `Builder.Counted.apply` (what a move makes of a count), `Call.Counted.around`
(what a host makes of it), `Call.build_count`.
-/

namespace FluentPattern

/-! ## Numbers that depend on a count -/

/-- A quantity whose numbers may depend on a count. Whether it has an upper bound and whether it is
greedy does not depend on it. -/
structure CountedQuantity where
  /-- The least number of repetitions. -/
  least : Nat → Nat
  /-- The greatest number of repetitions, if there is one. -/
  most : Option (Nat → Nat)
  /-- Whether it repeats as often as possible. -/
  greedy : Bool

/-- The quantity for a count. -/
def CountedQuantity.quantity (q : CountedQuantity) (n : Nat) : Quantity :=
  ⟨q.least n, q.most.map (· n), q.greedy⟩

/-- The fragment with bounds that depend on a count. -/
def Fragment.counted (f : Fragment) (least most : Option (Nat → Nat)) (n : Nat) : Fragment :=
  { f with min := least.map (· n), max := most.map (· n) }

/-- The builder with bounds in progress that depend on a count. -/
def Builder.counted (b : Builder) (least most : Option (Nat → Nat)) (n : Nat) : Builder :=
  { b with pending := b.pending.counted least most n }

/-- A text that depends on a count in the numbers of one quantity at most. -/
inductive Text.Counted (t : Nat → Text) : Prop
  /-- The text does not depend on the count. -/
  | steady : (∀ n, t n = t 0) → Counted t
  /-- The quantity stands behind a unit, at a place for a row. -/
  | unit {lead unit rest : Text} (q : CountedQuantity) :
    lead.IsLead → unit.IsRow → rest.IsRest →
      (∀ n, t n = lead ++ ((unit.wrapped ++ (q.quantity n).text) ++ rest)) → Counted t

/-- Builders that depend on a count in the numbers of one quantity that is written. -/
inductive Builder.CountIsWritten (b : Nat → Builder) : Prop
  | intro (front : List Segment) (gap : Gap) (unit : Text) (rest : Builder) (q : CountedQuantity) :
    (∀ s ∈ front, s.IsFormed) → gap.IsFormed → unit.IsRow →
      (∀ n, Builder.Follows (front ++ [gap.fill (unit.wrapped ++ (q.quantity n).text)]) false rest
        (b n)) → CountIsWritten b

/-- Builders that depend on a count in one place at most. -/
inductive Builder.Counted (b : Nat → Builder) : Prop
  /-- The builder does not depend on the count. -/
  | steady : (∀ n, b n = b 0) → Counted b
  /-- The bounds of the fragment in progress depend on the count. -/
  | waits (least most : Option (Nat → Nat)) :
    least.isSome ∨ most.isSome → (b 0).IsFormed → (∀ n, b n = (b 0).counted least most n) →
      Counted b
  /-- The count is written. -/
  | written : CountIsWritten b → Counted b

/-! ## Moves after a count -/

theorem Fragment.quantity?_counted (f : Fragment) {least most : Option (Nat → Nat)}
    (hgiven : least.isSome ∨ most.isSome) (n : Nat) :
    (f.counted least most n).quantity? =
      some (CountedQuantity.quantity ⟨least.getD fun _ => 0, most, !f.reluctant⟩ n) := by
  cases least <;> cases most
  · simp at hgiven
  all_goals rfl

/-- Whether a move changes the fragment in progress apart from its bounds. -/
def Move.KeepsBounds : Move → Prop
  | flag _ | content _ | groupAgain _ | like _ | reluctantly | captured => True
  | _ => False

namespace Builder

variable {least most : Option (Nat → Nat)} {P : Builder → Prop}

theorem apply_counted_of_keepsBounds {m : Move} (hm : m.KeepsBounds) (hallowed : m.Allowed P)
    (b : Builder) (n : Nat) :
    m.apply (b.counted least most n) = (m.apply b).counted least most n := by
  cases m with
  | flag f => rfl
  | content c =>
    rw [Move.apply, Move.apply, value_withContent, value_withContent]
    rfl
  | groupAgain group =>
    rw [Move.apply, Move.apply, value_groupAgain _ hallowed, value_groupAgain _ hallowed]
    rfl
  | like other =>
    cases hc : b.pending.content with
    | some c =>
      rw [Move.apply, Move.apply, value_like_of_some b other hc,
        value_like_of_some (b.counted least most n) other hc]
    | none =>
      rw [Move.apply, Move.apply, value_like_of_none b other hc,
        value_like_of_none (b.counted least most n) other hc]
      rfl
  | reluctantly => rfl
  | captured =>
    obtain ⟨segments, groups, flags, ⟨min, max, content, reluctant, capture⟩, held, extended⟩ := b
    cases capture <;> rfl
  | _ => exact absurd hm id

section

variable {b : Builder} (hb : b.pending.content = none)

include hb

theorem written_counted (n : Nat) : (b.counted least most n).written = b.written := by
  simp [written, heldSegments, counted, Fragment.counted, Fragment.segment?, hb]

theorem waiting_counted (n : Nat) :
    (b.counted least most n).waiting = b.waiting.counted least most n := by
  rw [waiting_of_idle hb]
  exact waiting_of_idle hb

theorem keptFragment_counted (least most : Option (Nat → Nat)) :
    (∀ n, (b.counted least most n).keptFragment = b.keptFragment) ∨
    ∀ n, (b.counted least most n).keptFragment = b.keptFragment.counted least most n := by
  have hdrops (n : Nat) : (b.counted least most n).capturesNothing = b.capturesNothing := rfl
  cases h : b.capturesNothing with
  | true =>
    refine .inl fun n => ?_
    rw [keptFragment, keptFragment, hdrops, h]
    rfl
  | false =>
    refine .inr fun n => ?_
    rw [keptFragment, keptFragment, hdrops, h, waiting_counted hb]
    rfl

/-- Bounds that wait for content go on waiting, are overwritten, or are dropped with the group
that waits. -/
theorem apply_counted_of_idle (hquantity : b.pending.hasQuantity = true)
    (hgiven : least.isSome ∨ most.isSome) {m : Move} (hkeeps : ¬m.KeepsBounds)
    (hrun : m ≠ .dropRun) :
    (∀ n, m.apply (b.counted least most n) = m.apply b) ∨
    ∃ least' most' : Option (Nat → Nat), (least'.isSome ∨ most'.isSome) ∧
      ∀ n, m.apply (b.counted least most n) = (m.apply b).counted least' most' n := by
  -- a pattern that is embedded as a unit of its own drops the bounds of a group without content
  have embeds (hkept : ∀ n, (b.counted least most n).keptFragment = b.keptFragment →
        m.apply (b.counted least most n) = m.apply b)
      (hcounted : ∀ n, (b.counted least most n).keptFragment = b.keptFragment.counted least most n →
        m.apply (b.counted least most n) = (m.apply b).counted least most n) :
      (∀ n, m.apply (b.counted least most n) = m.apply b) ∨
      ∃ least' most' : Option (Nat → Nat), (least'.isSome ∨ most'.isSome) ∧
        ∀ n, m.apply (b.counted least most n) = (m.apply b).counted least' most' n := by
    rcases keptFragment_counted hb least most with h | h
    · exact .inl fun n => hkept n (h n)
    · exact .inr ⟨least, most, hgiven, fun n => hcounted n (h n)⟩
  cases m with
  | segment s =>
    refine .inr ⟨least, most, hgiven, fun n => ?_⟩
    rw [Move.apply, Move.apply, value_addSegment_eq, value_addSegment_eq, written_counted hb,
      waiting_counted hb]
    rfl
  | exactly k =>
    refine .inr ⟨some fun _ => k, some fun _ => k, .inl rfl, fun n => ?_⟩
    rw [Move.apply, Move.apply, value_exactly, value_exactly, written_counted hb,
      waiting_counted hb]
    rfl
  | atLeast k =>
    refine .inr ⟨some fun _ => k, most, .inl rfl, fun n => ?_⟩
    rw [Move.apply, Move.apply, value_atLeast, value_atLeast, written_counted hb,
      waiting_counted hb]
    rfl
  | atMost k =>
    refine .inr ⟨least, some fun _ => k, .inr rfl, fun n => ?_⟩
    rw [Move.apply, Move.apply, value_atMost, value_atMost, written_counted hb,
      waiting_counted hb]
    rfl
  | unit literal =>
    have htakes {d : Builder} (hquantity : d.pending.hasQuantity = true)
        (hd : d.pending.content = none) :
        (d.unit literal).value = { d with pending := d.pending.setContent (.pattern literal) } := by
      rw [value_unit, hquantity, Fragment.hasContent, hd, value_withContent]
      rfl
    have hcounted (n : Nat) : (b.counted least most n).pending.hasQuantity = true := by
      simpa [counted, Fragment.counted, Fragment.hasQuantity] using hgiven
    refine .inr ⟨least, most, hgiven, fun n => ?_⟩
    rw [Move.apply, Move.apply, htakes hquantity hb, htakes (hcounted n) hb]
    rfl
  | either other =>
    refine embeds (fun n h => ?_) fun n h => ?_
    all_goals
      rw [Move.apply, Move.apply, value_either, value_either, written_counted hb, h]
      rfl
  | or other =>
    refine .inl fun n => ?_
    rw [Move.apply, Move.apply, value_or_pattern, value_or_pattern, written_counted hb]
    rfl
  | look opening other =>
    refine embeds (fun n h => ?_) fun n h => ?_
    all_goals
      rw [Move.apply, Move.apply, value_look, value_look, written_counted hb, h]
      rfl
  | dropRun => exact absurd rfl hrun
  | _ => exact absurd trivial hkeeps

end

/-- Bounds of a fragment with content are written behind its unit. -/
theorem CountIsWritten.flush {b : Builder} {c : Content} (hb : b.pending.content = some c)
    (hformed : b.IsFormed) (hgiven : least.isSome ∨ most.isSome) :
    CountIsWritten fun n => (b.counted least most n).flush.value := by
  refine .intro (b.segments ++ b.heldSegments)
    ⟨if b.pending.capture then .capture else .group, [], [], [], []⟩ c.literal
    { b with segments := [], pending := {}, held := none }
    ⟨least.getD fun _ => 0, most, !b.pending.reluctant⟩ ?_ ?_ ?_ fun n => ?_
  · intro s hs
    rcases List.mem_append.1 hs with hs | hs
    · exact hformed.segments s hs
    · exact hformed.heldSegments s hs
  · exact ⟨fun _ h => absurd h List.not_mem_nil, .inl rfl, .inl rfl⟩
  · exact hformed.content c hb
  · have hwaiting : (b.counted least most n).waiting = {} := by
      simp [waiting, counted, Fragment.counted, Fragment.hasContent, hb]
    have hsegment : (b.counted least most n).pending.segment? =
        some ((b.pending.counted least most n).segmentOf c) := by
      rw [Fragment.segment?_eq]
      exact congrArg (Option.map _) hb
    rw [value_flush, hwaiting, written, hsegment]
    refine Follows.of_segments ?_ (Bool.or_false _).symm
    rw [Fragment.segmentOf, List.append_assoc c.literal.wrapped,
      Fragment.quantity_append_reluctance, Fragment.quantity?_counted _ hgiven, Gap.fill]
    simp only [List.nil_append, List.append_nil]
    rfl

/-- What is written stays as it is. -/
theorem CountIsWritten.apply {b : Nat → Builder} (hb : CountIsWritten b) {m : Move}
    (hallowed : m.Allowed P) : CountIsWritten fun n => m.apply (b n) := by
  obtain ⟨front, gap, unit, rest, q, hfront, hgap, hunit, h⟩ := hb
  obtain ⟨gap', rest', hgap', hstep⟩ := Follows.exists_apply_gap front gap rest hallowed
  refine .intro front gap' unit rest' q hfront ?_ hunit fun n => hstep _ false _ (h n)
  rcases hgap' with rfl | ⟨alternative, rfl⟩
  · exact hgap
  · exact hgap.push alternative

/-- A move leaves a count where it is, writes it, overwrites it or drops it. -/
theorem Counted.apply {b : Nat → Builder} (hb : Counted b) {m : Move}
    (hallowed : m.Allowed Builder.IsFormed) (hrun : m ≠ .dropRun) :
    Counted fun n => m.apply (b n) := by
  cases hb with
  | steady h => exact .steady fun n => congrArg m.apply (h n)
  | written h => exact .written (h.apply hallowed)
  | waits least most hgiven hformed h =>
    have hformed' : (m.apply (b 0)).IsFormed := hformed.apply hallowed
    by_cases hkeeps : m.KeepsBounds
    · refine .waits least most hgiven hformed' fun n => ?_
      rw [h n]
      exact apply_counted_of_keepsBounds hkeeps hallowed (b 0) n
    cases hcontent : (b 0).pending.content with
    | none =>
      have hquantity : (b 0).pending.hasQuantity = true := by
        rw [h 0]
        simpa [counted, Fragment.counted, Fragment.hasQuantity] using hgiven
      rcases apply_counted_of_idle hcontent hquantity hgiven hkeeps hrun with
        hsteady | ⟨least', most', hgiven', hcounted⟩
      · exact .steady fun n => (congrArg m.apply (h n)).trans (hsteady n)
      · exact .waits least' most' hgiven' hformed' fun n =>
          (congrArg m.apply (h n)).trans (hcounted n)
    | some c =>
      -- the other moves first write the fragment, with its bounds behind the unit
      have hflushes (n : Nat) : m.Flushes ((b 0).counted least most n) := by
        cases m with
        | unit literal => exact congrArg Option.isSome hcontent
        | dropRun => exact absurd rfl hrun
        | _ => first | exact trivial | exact absurd trivial hkeeps
      have hsame : (fun n => m.apply (b n)) =
          fun n => m.apply ((b 0).counted least most n).flush.value := by
        funext n
        rw [Move.apply_flush (hflushes n), ← h n]
      rw [hsame]
      exact .written ((CountIsWritten.flush hcontent hformed hgiven).apply hallowed)

end Builder

/-! ## Texts around a quantity -/

namespace Text.Counted

variable {t : Nat → Text}

theorem surround (ht : Counted t) {u : Text} (hu : u.IsLead) (v : Text) :
    Counted fun n => u ++ (t n ++ v) := by
  cases ht with
  | steady h => exact .steady fun n => by rw [h n]
  | @unit lead unit rest q hlead hunit hrest h =>
    refine .unit q (hu.append hlead) hunit (hrest.append v) fun n => ?_
    rw [h n]
    simp only [List.append_assoc]

theorem congr (ht : Counted t) {u : Nat → Text} (h : ∀ n, u n = t n) : Counted u := by
  obtain rfl : u = t := funext h
  exact ht

/-- Renumbering leaves the digits of a quantity as they are. -/
theorem shift (ht : Counted t) (d : Nat) : Counted fun n => shiftReferences d (t n) := by
  cases ht with
  | steady h => exact .steady fun n => by rw [h n]
  | @unit lead unit rest q hlead hunit hrest h =>
    refine .unit q (hlead.shift d) (hunit.shift d) (hrest.shift d) fun n => ?_
    have hrow : Text.IsRow (unit.wrapped ++ (q.quantity n).text) :=
      hunit.wrapped_append (some (q.quantity n))
    have hquantity : shiftReferences d (unit.wrapped ++ (q.quantity n).text) =
        Text.wrapped (shiftReferences d unit) ++ (q.quantity n).text := by
      have hopening := shiftReferences_opening .plain (unit ++ ')' :: (q.quantity n).text) d
      have hsuffix := shiftReferences_suffix (some (q.quantity n)) [] d
      simp only [Quantity.suffix, List.append_nil] at hsuffix
      rw [hunit.settled.shiftReferences_append rfl, hsuffix] at hopening
      simpa [Text.wrapped, GroupKind.text, shiftReferences] using hopening
    rw [h n, shiftReferences_lead_row_rest hlead hrow hrest, hquantity]

theorem shiftAll (ht : Counted t) (offsets : List Nat) :
    Counted fun n => shiftAll offsets (t n) := by
  induction offsets generalizing t with
  | nil => exact ht
  | cons d offsets ih => exact ih (ht.shift d)

end Text.Counted

/-! ## Finished patterns -/

/-- The opening of a segment and the number of its alternatives. -/
def Segment.shape (s : Segment) : Opening × Nat :=
  (s.opening, s.alternatives.length)

theorem Gap.shape_fill (g : Gap) (t : Text) :
    (g.fill t).shape = (g.opening, g.first.length + (g.last.length + 1)) := by
  simp [Segment.shape, Gap.fill]

/-- What a frame writes has the same shape whatever pattern is in it. -/
theorem Frame.exists_shapes {f : Frame} (hf : f.IsNumbered) :
    ∃ shapes, ∀ t e b, f.Holds t e b → b.written.map Segment.shape = shapes := by
  cases f with
  | written front gap offsets rest =>
    refine ⟨(front ++ [gap.fill []] ++ rest.written).map Segment.shape, fun t e b h => ?_⟩
    simp only [h.written, List.map_append, List.map_singleton, Gap.shape_fill]
  | pending front offsets rest =>
    refine ⟨(front ++ [rest.pending.gap.fill []]).map Segment.shape, fun t e b h => ?_⟩
    simp only [written_of_pending hf.1 hf.2.1 h, List.map_append, List.map_singleton,
      Gap.shape_fill]

namespace Builder

/-- Builders whose finished patterns differ in the numbers of one quantity at most. -/
structure VariesInCount (b : Nat → Builder) : Prop where
  literal : Text.Counted fun n => (b n).build.value.literal
  groups : ∀ n, (b n).build.value.groups = (b 0).build.value.groups
  flags : ∀ n, (b n).build.value.flags = (b 0).build.value.flags
  extended : ∀ n, (b n).build.value.extended = (b 0).build.value.extended
  shapes : ∀ n, (b n).written.map Segment.shape = (b 0).written.map Segment.shape

variable {b : Nat → Builder}

theorem VariesInCount.of_steady (h : ∀ n, b n = b 0) : VariesInCount b where
  literal := .steady fun n => by rw [h n]
  groups n := by rw [h n]
  flags n := by rw [h n]
  extended n := by rw [h n]
  shapes n := by rw [h n]

theorem VariesInCount.of_flush (h : VariesInCount fun n => (b n).flush.value) :
    VariesInCount b := by
  obtain ⟨hliteral, hgroups, hflags, hextended, hshapes⟩ := h
  simp only [value_build_flush, written_flush] at hliteral hgroups hflags hextended hshapes
  exact ⟨hliteral, hgroups, hflags, hextended, hshapes⟩

theorem CountIsWritten.variesInCount (hb : CountIsWritten b) : VariesInCount b := by
  obtain ⟨front, gap, unit, rest, q, hfront, hgap, hunit, h⟩ := hb
  have hbuild (n : Nat) : (b n).build.value =
      ⟨(front.flatMap Segment.text ++ gap.lead) ++ ((unit.wrapped ++ (q.quantity n).text) ++
        (gap.rest ++ rest.written.flatMap Segment.text)), rest.flags, rest.keptGroups,
        rest.extended⟩ := by
    rw [value_build, (h n).written, (h n).flags, (h n).keptGroups, (h n).extended, Bool.or_false]
    simp [Gap.text_fill]
  refine ⟨?_, fun n => ?_, fun n => ?_, fun n => ?_, fun n => ?_⟩
  · obtain ⟨ps, hps, -⟩ := exists_spells_flatMap_text hfront
    exact .unit q (hgap.isLead_append_lead ⟨ps, hps⟩) hunit (hgap.isRest_rest.append _)
      fun n => congrArg Built.literal (hbuild n)
  · rw [hbuild n, hbuild 0]
  · rw [hbuild n, hbuild 0]
  · rw [hbuild n, hbuild 0]
  · rw [(h n).written, (h 0).written]
    simp only [List.map_append, List.map_singleton, Gap.shape_fill]

/-- Wherever a count is, the finished patterns differ in the numbers of one quantity at most. -/
theorem Counted.variesInCount (hb : Counted b) : VariesInCount b := by
  cases hb with
  | steady h => exact .of_steady h
  | written h => exact h.variesInCount
  | waits least most hgiven hformed h =>
    cases hcontent : (b 0).pending.content with
    | none =>
      have hwritten (n : Nat) : (b n).written = (b 0).written := by
        rw [h n, written_counted hcontent]
      have hbuild (n : Nat) : (b n).build.value = (b 0).build.value := by
        rw [value_build, value_build, hwritten n, h n]
        rfl
      exact ⟨.steady fun n => by rw [hbuild n], fun n => by rw [hbuild n],
        fun n => by rw [hbuild n], fun n => by rw [hbuild n], fun n => by rw [hwritten n]⟩
    | some c =>
      have hsame : (fun n => (b n).flush.value) =
          fun n => ((b 0).counted least most n).flush.value := by
        funext n
        rw [← h n]
      refine .of_flush ?_
      rw [hsame]
      exact (CountIsWritten.flush hcontent hformed hgiven).variesInCount

end Builder

/-! ## Counts in calls -/

/-- Whether a call may take back a run of any characters before it asserts something. -/
def Call.IsNor : Call → Prop
  | .textOperand w _ | .patternOperand w _ => w = .nor
  | _ => False

theorem Call.dropRun_notMem_moves {c : Call} (hc : ¬c.IsNor) : Move.dropRun ∉ c.moves := by
  cases c with
  | word w => cases w <;> simp [moves, Word.moves]
  | text w t =>
    cases w <;> rcases t with _ | ⟨x, _ | ⟨y, t⟩⟩ <;>
      simp [moves, TextWord.moves, Move.ofText, Move.runWithout]
  | count w n => cases w <;> cases n <;> simp [moves, CountWord.moves]
  | range negated first last => cases negated <;> simp [moves]
  | flag f => simp [moves]
  | pattern w calls => cases w <;> simp [moves, PatternWord.moves]
  | textOperand w t =>
    cases w
    case nor => exact absurd rfl hc
    all_goals simp [moves, OperandWord.moves]
  | patternOperand w calls =>
    cases w
    case nor => exact absurd rfl hc
    all_goals simp [moves, OperandWord.moves]

/-- Moves after a count, none of which takes back a run. -/
theorem Builder.Counted.applyAll : ∀ (ms : List Move) {b : Nat → Builder}, Counted b →
    (∀ m ∈ ms, m.Allowed Builder.IsFormed) → Move.dropRun ∉ ms →
      Counted fun n => Move.applyAll (b n) ms
  | [], _, hb, _, _ => hb
  | m :: ms, _, hb, hms, hrun => by
    obtain ⟨hm, hms⟩ := List.forall_mem_cons.1 hms
    have hrun := not_or.1 (mt List.mem_cons.2 hrun)
    exact applyAll ms (hb.apply hm (Ne.symm hrun.1)) hms hrun.2

/-- A count is a bound of the fragment in progress. -/
theorem Call.counted_count {w : CountWord} (hw : w ≠ .groupAgain) {b : Builder}
    (hb : b.IsFormed) : Builder.Counted fun n => (apply b (.count w n)).value := by
  have hformed : (apply b (.count w 0)).value.IsFormed := by
    rw [value_apply]
    exact Move.holds_applyAll (fun _ _ hb hm => hb.apply hm) _ _ hb (w.allowed_moves 0)
  cases w with
  | groupAgain => exact absurd rfl hw
  | exactly =>
    refine .waits (some id) (some id) (.inl rfl) hformed fun n => ?_
    rw [Call.apply, Call.apply]
    show (b.exactly n).value = (b.exactly 0).value.counted _ _ n
    rw [Builder.value_exactly, Builder.value_exactly]
    rfl
  | atLeast =>
    refine .waits (some id) (b.waiting.max.map fun k _ => k) (.inl rfl) hformed fun n => ?_
    rw [Call.apply, Call.apply]
    show (b.atLeast n).value = (b.atLeast 0).value.counted _ _ n
    rw [Builder.value_atLeast, Builder.value_atLeast]
    cases h : b.waiting.max <;> simp [Builder.counted, Fragment.counted, Fragment.setMin, h]
  | atMost =>
    refine .waits (b.waiting.min.map fun k _ => k) (some id) (.inr rfl) hformed fun n => ?_
    rw [Call.apply, Call.apply]
    show (b.atMost n).value = (b.atMost 0).value.counted _ _ n
    rw [Builder.value_atMost, Builder.value_atMost]
    cases h : b.waiting.min <;> simp [Builder.counted, Fragment.counted, Fragment.setMax, h]

/-- A host that embeds patterns that differ in one quantity gives patterns that differ in one
quantity. -/
theorem Builder.VariesInCount.around {calls : Nat → List Call}
    (hcalls : VariesInCount fun n => Call.builder (calls n)) (h : Host) :
    VariesInCount fun n => Call.builder (h.around (calls n)) := by
  by_cases hacc : h.Accepts
  · obtain ⟨f, hf, hframe⟩ := h.exists_frame hacc (Call.build (calls 0)).value.groups
    obtain ⟨s, hsur⟩ := Frame.exists_surrounding hf
    obtain ⟨e, hextended⟩ := f.exists_extended
    obtain ⟨shapes, hshapes⟩ := Frame.exists_shapes hf
    obtain ⟨u, v, hu, -, hscoped⟩ :=
      Surrounding.exists_scopedLiteral (Call.build (calls 0)).value.flags
    have hn (n : Nat) := hframe (calls n) (hcalls.groups n)
    have hext (n : Nat) :
        (Call.builder (h.around (calls n))).build.value.extended =
          (e || (Call.build (calls n)).value.extended) :=
      (congrArg Built.extended (value_build _)).trans (hextended _ _ _ (hn n))
    have hwhole := ((hcalls.literal.surround hu v).shiftAll s.offsets).surround s.isLead s.rest
    refine ⟨?_, fun n => ?_, fun n => ?_, fun n => ?_, fun n => ?_⟩
    · refine hwhole.congr fun n => ?_
      refine (hsur _ _ _ (hn n)).literal.trans ?_
      exact congrArg (fun t => s.lead ++ (shiftAll s.offsets t ++ s.rest))
        (hscoped _ (hcalls.flags n))
    · rw [(hsur _ _ _ (hn n)).groups, (hsur _ _ _ (hn 0)).groups]
    · rw [(hsur _ _ _ (hn n)).flags, (hsur _ _ _ (hn 0)).flags]
    · rw [hext n, hext 0]
      exact congrArg (e || ·) (hcalls.extended n)
    · rw [hshapes _ _ _ (hn n), hshapes _ _ _ (hn 0)]
  · exact .of_steady fun n => Host.builder_around_of_not_accepts hacc (calls 0) (calls n)

/-- So do hosts in hosts. -/
theorem Builder.VariesInCount.nest (hs : List Host) {calls : Nat → List Call}
    (hcalls : VariesInCount fun n => Call.builder (calls n)) :
    VariesInCount fun n => Call.builder (Host.nest hs (calls n)) := by
  induction hs generalizing calls with
  | nil => exact hcalls
  | cons h hs ih => exact ih (hcalls.around h)

/-- The calls after a count write it in one place at most. -/
theorem Call.variesInCount {w : CountWord} (hw : w ≠ .groupAgain) (before : List Call)
    {after : List Call} (hnor : ∀ c ∈ after, ¬c.IsNor) :
    Builder.VariesInCount fun n => builder (before ++ .count w n :: after) := by
  have hrun : Move.dropRun ∉ after.flatMap Call.moves := by
    intro hm
    obtain ⟨c, hc, hm⟩ := List.mem_flatMap.1 hm
    exact dropRun_notMem_moves (hnor c hc) hm
  have hallowed : ∀ m ∈ after.flatMap Call.moves, m.Allowed Builder.IsFormed := fun m hm =>
    (allowed_flatMap_moves after m hm).mono fun _ hb => hb.isFormed
  have hafter := (counted_count hw (isFormed_builder before)).applyAll _ hallowed hrun
  have hsame : (fun n => builder (before ++ .count w n :: after)) =
      fun n => Move.applyAll (apply (builder before) (.count w n)).value
        (after.flatMap Call.moves) := by
    funext n
    rw [builder, value_applyAll_append, applyAll, Logged.value_bind, value_applyAll]
    rfl
  rw [hsame]
  exact hafter.variesInCount

/-- The tokens of a text with a quantity: the quantity is one token, behind its unit. -/
theorem Text.Counted.tokens {t : Nat → Text} (ht : Counted t) :
    (∀ n, t n = t 0) ∨ ∃ (lead unit rest : Text) (q : CountedQuantity), unit.IsRow ∧ ∀ n,
      t n = lead ++ (unit.wrapped ++ ((q.quantity n).text ++ rest)) ∧
      FluentPattern.tokens (t n) = FluentPattern.tokens lead ++
        (FluentPattern.tokens unit.wrapped ++
          .quantity (q.quantity n) :: FluentPattern.tokens rest) := by
  cases ht with
  | steady h => exact .inl h
  | @unit lead unit rest q hlead hunit hrest h =>
    refine .inr ⟨lead, unit, rest, q, hunit, fun n => ?_⟩
    have hwhole : t n = lead ++ (unit.wrapped ++ ((q.quantity n).text ++ rest)) := by
      rw [h n, List.append_assoc]
    refine ⟨hwhole, ?_⟩
    rw [hwhole, hlead.tokens_append (by simp [Text.wrapped]),
      hunit.wrapped.tokens_append rfl (by simp [Quantity.text]),
      tokens_quantity _ hrest.head?_ne]

/-- A count given by `exactly`, `atLeast` or `atMost` in a pattern, which is perhaps embedded in
hosts, reaches at most one quantity. With another count the finished pattern has the same groups
and flags and needs the same engine, and its segments have the same openings and numbers of
alternatives. Its literal is the same but for the numbers of the quantity behind one unit at most,
and that quantity is one token of the pattern.

No later call of the builder that is given the count is `nor`, which takes back a run of any
characters if its least number is zero. -/
theorem Call.build_count {w : CountWord} (hw : w ≠ .groupAgain) (hs : List Host)
    (before after : List Call) (hnor : ∀ c ∈ after, ¬c.IsNor) :
    let calls (n : Nat) : List Call := Host.nest hs (before ++ .count w n :: after)
    let p (n : Nat) : Built := (build (calls n)).value
    (∀ m n, (p m).groups = (p n).groups ∧ (p m).flags = (p n).flags ∧
      (p m).extended = (p n).extended ∧
      (builder (calls m)).flush.value.segments.map Segment.shape =
        (builder (calls n)).flush.value.segments.map Segment.shape) ∧
    ((∀ m n, (p m).literal = (p n).literal) ∨
      ∃ (lead unit rest : Text) (q : CountedQuantity), unit.IsRow ∧ ∀ n,
        (p n).literal = lead ++ (unit.wrapped ++ ((q.quantity n).text ++ rest)) ∧
        tokens (p n).literal =
          tokens lead ++ (tokens unit.wrapped ++ .quantity (q.quantity n) :: tokens rest)) := by
  intro calls p
  have h : Builder.VariesInCount fun n => builder (calls n) :=
    (variesInCount hw before hnor).nest hs
  refine ⟨fun m n => ⟨?_, ?_, ?_, ?_⟩, ?_⟩
  · exact (h.groups m).trans (h.groups n).symm
  · exact (h.flags m).trans (h.flags n).symm
  · exact (h.extended m).trans (h.extended n).symm
  · rw [Builder.value_flush, Builder.value_flush]
    exact (h.shapes m).trans (h.shapes n).symm
  · exact h.literal.tokens.imp (fun hsame m n => (hsame m).trans (hsame n).symm) id

/-- A count in an alternative of another pattern: it is written behind one unit. -/
theorem Call.build_count_alternative :
    let host : Host := ⟨[.text .once ['a']], .operand .or, [.word .captured, .word .anyChar]⟩
    let calls (n : Nat) : List Call :=
      Host.nest [host] ([.word .tab] ++ .count .exactly n :: [.word .digits])
    (build (calls 2)).value.groups = (build (calls 7)).value.groups ∧
    ∃ (lead unit rest : Text) (q : CountedQuantity), unit.IsRow ∧ ∀ n,
      (build (calls n)).value.literal =
        lead ++ (unit.wrapped ++ ((q.quantity n).text ++ rest)) := by
  intro host calls
  have hnor : ∀ c ∈ [Call.word .digits], ¬c.IsNor := by simp [IsNor]
  have h := build_count (w := .exactly) nofun [host] [.word .tab] _ hnor
  refine ⟨(h.1 2 7).1, ?_⟩
  have hdiffers : (build (calls 2)).value.literal ≠ (build (calls 7)).value.literal := by decide
  obtain ⟨lead, unit, rest, q, hunit, hq⟩ := h.2.resolve_left fun hsame => hdiffers (hsame 2 7)
  exact ⟨lead, unit, rest, q, hunit, fun n => (hq n).1⟩

end FluentPattern
