import FluentPattern.Proofs.Matching.Ways

/-!
# Where groups are passed

A way passes groups only at positions of the haystack, if that holds of what was passed before. So
what a group has matched is a part of the text that is searched.

Main statements: `Record.IsWithin.bounds_of_span?`, `Node.passesWithin_ways`.
-/

namespace FluentPattern

/-- Groups were passed only at positions of a haystack. -/
def Record.IsWithin (size : Nat) (r : Record) : Prop :=
  ∀ group side p, r group side = some p → p ≤ size

namespace Record.IsWithin

variable {size : Nat} {r : Record}

theorem empty : Record.empty.IsWithin size :=
  fun _ _ _ h => by cases h

theorem pass (hr : r.IsWithin size) {p : Nat} (hp : p ≤ size) (group : Nat) (side : Side) :
    (r.pass group side p).IsWithin size := by
  intro g s q hq
  unfold Record.pass at hq
  split at hq
  · exact Option.some.inj hq ▸ hp
  · exact hr g s q hq

theorem bounds_of_span? (hr : r.IsWithin size) {group start stop : Nat}
    (h : r.span? group = some (start, stop)) : start ≤ stop ∧ stop ≤ size := by
  unfold Record.span? at h
  split at h
  · rename_i p q _ hq
    split at h
    · rename_i hle
      obtain ⟨rfl, rfl⟩ := Prod.mk.inj (Option.some.inj h)
      exact ⟨hle, hr group .closing q hq⟩
    · cases h
  · cases h

end Record.IsWithin

/-- From a position of the haystack the ways stop in the haystack and pass groups only there. -/
def Ways.PassesWithin (size : Nat) (w : Ways) : Prop :=
  ∀ p, p ≤ size → ∀ r, r.IsWithin size → ∀ v ∈ w p r, v.stop ≤ size ∧ v.record.IsWithin size

namespace Ways.PassesWithin

variable {size : Nat} {w first second : Ways}

/-- Ways that pass no group. -/
theorem of_record (hb : w.IsBounded size) (hw : ∀ p r, ∀ v ∈ w p r, v.record = r) :
    w.PassesWithin size :=
  fun p hp r hr v hv => ⟨(hb p hp r v hv).2, hw p r v hv ▸ hr⟩

theorem unit : Ways.unit.PassesWithin size :=
  of_record .unit fun _ _ _ hv => List.mem_singleton.1 hv ▸ rfl

theorem test (condition : Nat → Bool) : (Ways.test condition).PassesWithin size := by
  refine of_record (.test condition) fun p r v hv => ?_
  unfold Ways.test at hv
  split at hv
  · exact List.mem_singleton.1 hv ▸ rfl
  · exact absurd hv List.not_mem_nil

theorem char (h : Haystack) (s : CharSet) : (Ways.char h s).PassesWithin h.size := by
  refine of_record (.char h s) fun p r v hv => ?_
  unfold Ways.char at hv
  split at hv
  · split at hv
    · exact List.mem_singleton.1 hv ▸ rfl
    · exact absurd hv List.not_mem_nil
  · exact absurd hv List.not_mem_nil

theorem groupAgain (h : Haystack) (group : Nat) :
    (Ways.groupAgain h group).PassesWithin h.size := by
  refine of_record (.groupAgain h group) fun p r v hv => ?_
  unfold Ways.groupAgain at hv
  split at hv
  · exact absurd hv List.not_mem_nil
  · split at hv
    · exact List.mem_singleton.1 hv ▸ rfl
    · exact absurd hv List.not_mem_nil

theorem seq (hf : first.PassesWithin size) (hs : second.PassesWithin size) :
    (Ways.seq first second).PassesWithin size := by
  intro p hp r hr v hv
  obtain ⟨u, hu, hv⟩ := List.mem_flatMap.1 hv
  obtain ⟨hstop, hrecord⟩ := hf p hp r hr u hu
  exact hs u.stop hstop u.record hrecord v hv

theorem alt (hf : first.PassesWithin size) (hs : second.PassesWithin size) :
    (Ways.alt first second).PassesWithin size := by
  intro p hp r hr v hv
  rcases List.mem_append.1 hv with hv | hv
  · exact hf p hp r hr v hv
  · exact hs p hp r hr v hv

theorem capture (hw : w.PassesWithin size) (group : Nat) :
    (Ways.capture group w).PassesWithin size := by
  intro p hp r hr v hv
  obtain ⟨u, hu, rfl⟩ := List.mem_map.1 hv
  obtain ⟨hstop, hrecord⟩ := hw p hp _ (hr.pass hp group .opening) u hu
  exact ⟨hstop, hrecord.pass hstop group .closing⟩

/-- What an assertion passes stays passed, though it goes nowhere. -/
theorem look (hw : w.PassesWithin size) (negated : Bool) :
    (Ways.look negated w).PassesWithin size := by
  intro p hp r hr v hv
  unfold Ways.look at hv
  split at hv
  · rename_i u hu
    obtain rfl := List.mem_singleton.1 hv
    exact ⟨hp, (hw p hp r hr u (List.mem_of_mem_head? hu)).2⟩
  · exact absurd hv List.not_mem_nil
  · exact absurd hv List.not_mem_nil
  · exact unit p hp r hr v hv

theorem orEmpty (hw : w.PassesWithin size) (greedy : Bool) :
    (Ways.orEmpty greedy w).PassesWithin size := by
  unfold Ways.orEmpty
  split
  · exact hw.alt unit
  · exact unit.alt hw

theorem copies (hw : w.PassesWithin size) (n : Nat) : (Ways.copies w n).PassesWithin size := by
  induction n with
  | zero => exact unit
  | succ n ih => exact hw.seq ih

theorem upTo (hw : w.PassesWithin size) (greedy : Bool) (n : Nat) :
    (Ways.upTo greedy w n).PassesWithin size := by
  induction n with
  | zero => exact unit
  | succ n ih => exact (hw.seq ih).orEmpty greedy

theorem moving (hw : w.PassesWithin size) : (Ways.moving w).PassesWithin size :=
  fun p hp r hr v hv => hw p hp r hr v (List.mem_filter.1 hv).1

theorem iterate (hw : w.PassesWithin size) (greedy : Bool) (n : Nat) :
    (Ways.iterate greedy w n).PassesWithin size := by
  induction n with
  | zero => exact unit
  | succ n ih => exact (hw.moving.seq ih).orEmpty greedy

theorem star (hw : w.PassesWithin size) (greedy : Bool) :
    (Ways.star size greedy w).PassesWithin size :=
  fun p hp r hr v hv => hw.iterate greedy _ p hp r hr v hv

theorem plus (hw : w.PassesWithin size) (greedy : Bool) :
    (Ways.plus size greedy w).PassesWithin size := by
  intro p hp r hr v hv
  obtain ⟨u, hu, hv⟩ := List.mem_flatMap.1 hv
  obtain ⟨hstop, hrecord⟩ := hw p hp r hr u hu
  split at hv
  · exact hw.star greedy u.stop hstop u.record hrecord v hv
  · obtain rfl := List.mem_singleton.1 hv
    exact ⟨hstop, hrecord⟩

theorem times (hw : w.PassesWithin size) (least : Nat) (more : Further) (greedy : Bool) :
    (Ways.times size least more greedy w).PassesWithin size := by
  refine (hw.copies least).seq ?_
  cases more with
  | upTo n => exact hw.upTo greedy n
  | star => exact hw.star greedy
  | plus => exact hw.plus greedy

end Ways.PassesWithin

/-- The ways of a node pass groups only in the haystack. -/
theorem Node.passesWithin_ways (h : Haystack) (n : Node) : (n.ways h).PassesWithin h.size := by
  induction n with
  | empty => exact .unit
  | char s => exact .char h s
  | anchor a => exact .test _
  | seq first second hf hs => exact hf.seq hs
  | alt first second hf hs => exact hf.alt hs
  | capture group body hb => exact hb.capture group
  | look negated body hb => exact hb.look negated
  | groupAgain group => exact .groupAgain h group
  | times least further greedy body hb => exact hb.times least further greedy

end FluentPattern
