import FluentPattern.Proofs.Alternation
import FluentPattern.Proofs.Contents

/-!
# Runs before an exclusion

`nor` excludes an operand and adds a run of any characters. So that exclusions in a row share
one run, it first drops the fragment in progress if that is such a run, and it does not tell
a run that another exclusion added from one that was asked for. So it does what `neither` and
then `anything` do, but for a run in progress, which it leaves out of the pattern.

Main statements: `Builder.build_excluding` (what both write), `Call.build_nor`.
-/

namespace FluentPattern

/-- Any number of any characters. -/
def Fragment.anyRun : Fragment :=
  { min := some 0, content := some .anyChar }

theorem Fragment.isOpenAnyRun_iff {f : Fragment} : f.isOpenAnyRun = true ↔ f = anyRun := by
  obtain ⟨min, max, content, reluctant, capture⟩ := f
  simp [isOpenAnyRun, anyRun, and_assoc, and_comm (a := capture = false)]

/-- The segment of a run of any characters. -/
def Segment.anyRun : Segment :=
  Fragment.anyRun.segmentOf .anyChar

namespace Builder

/-! ## What is written -/

variable (b other : Builder)

/-- A run is put together from what waits behind all that is in progress. -/
theorem value_anything :
    b.anything.value =
      { b with segments := b.written, held := none,
               pending := { b.waiting with min := some 0, content := some .anyChar } } := by
  show ((b.atLeast 0).value.withContent .anyChar).value = _
  rw [value_withContent, value_atLeast]
  simp only [Fragment.setContent, Fragment.setMin, b.content_waiting, Option.none_or]

/-- The segments of an excluded pattern and of a run of any characters behind it. -/
def excluding : List Segment :=
  [⟨.notAhead, [other.build.value.embedded b.keptGroups]⟩,
    (b.keptFragment.setMin 0).segmentOf .anyChar]

/-- An exclusion and a run are written behind all that is in progress. -/
theorem build_excluding :
    (b.neither (.pattern other)).value.anything.value.build.value =
      ⟨(b.written ++ b.excluding other).flatMap Segment.text, b.flags,
        b.keptGroups + other.build.value.groups, true⟩ := by
  have hlook : (b.neither (.pattern other)).value = _ := b.value_look other .notAhead
  have hidle : b.keptFragment.content = none := b.content_keptFragment
  rw [hlook, value_anything, written_of_idle rfl hidle, waiting_of_idle hidle, value_build]
  simp only [written, heldSegments, Fragment.segment?_eq, keptGroups, capturesNothing,
    Fragment.hasContent, excluding, Option.map_some, Option.map_none, Option.toList_some,
    Option.toList_none, Option.isSome_some, Bool.not_true, Bool.and_false, List.append_nil,
    List.append_assoc, List.singleton_append]
  rfl

/-! ## What is dropped -/

@[simp] theorem groups_dropRun : b.dropRun.groups = b.groups := by
  unfold dropRun
  split <;> rfl

@[simp] theorem flags_dropRun : b.dropRun.flags = b.flags := by
  unfold dropRun
  split <;> rfl

@[simp] theorem extended_dropRun : b.dropRun.extended = b.extended := by
  unfold dropRun
  split <;> rfl

variable {b}

theorem dropRun_of_not (hrun : b.pending.isOpenAnyRun = false) : b.dropRun = b := by
  rw [dropRun, hrun, if_neg Bool.false_ne_true]

/-- A run in progress would be written last. -/
theorem written_of_isOpenAnyRun (hrun : b.pending.isOpenAnyRun = true) :
    b.written = b.dropRun.written ++ [.anyRun] := by
  have hpending := Fragment.isOpenAnyRun_iff.1 hrun
  rw [dropRun, if_pos hrun, written, hpending]
  exact congrArg (· ++ _) (List.append_nil _).symm

/-- A run in progress leaves nothing of its fragment behind. -/
theorem keptFragment_dropRun : b.dropRun.keptFragment = b.keptFragment := by
  cases hrun : b.pending.isOpenAnyRun with
  | false => rw [dropRun_of_not hrun]
  | true =>
    have hpending := Fragment.isOpenAnyRun_iff.1 hrun
    have hkept : b.keptFragment = {} := by
      rw [keptFragment, waiting, hpending]
      split <;> rfl
    rw [hkept, dropRun, if_pos hrun]
    rfl

/-- Without a run in progress the same is written behind. -/
theorem excluding_dropRun : b.dropRun.excluding other = b.excluding other := by
  rw [excluding, excluding, keptGroups_dropRun, keptFragment_dropRun]

end Builder

namespace Call

theorem build_neither_anything (calls : List Call) (x : Choice) :
    let b := builder calls
    (build (calls ++ [x.call .neither, .word .anything])).value =
      ⟨(b.written ++ b.excluding (builder x.calls)).flatMap Segment.text, b.flags,
        b.keptGroups + x.built.groups, true⟩ := by
  intro b
  have hcalls : (build (calls ++ [x.call .neither, .word .anything])).value =
      ((x.call .neither).apply b).value.anything.value.build.value :=
    congrArg (fun d : Builder => d.build.value) (value_applyAll_append .empty calls _)
  rw [hcalls, x.value_apply_call]
  exact Builder.build_excluding b (builder x.calls)

theorem build_nor_eq (calls : List Call) (x : Choice) :
    let b := builder calls
    (build (calls ++ [x.call .nor])).value =
      ⟨(b.dropRun.written ++ b.excluding (builder x.calls)).flatMap Segment.text, b.flags,
        b.keptGroups + x.built.groups, true⟩ := by
  intro b
  have hcalls : (build (calls ++ [x.call .nor])).value = ((x.call .nor).apply b).value.build.value :=
    congrArg (fun d : Builder => d.build.value) (value_applyAll_append .empty calls _)
  rw [hcalls, x.value_apply_call]
  refine (Builder.build_excluding b.dropRun (builder x.calls)).trans ?_
  rw [Builder.excluding_dropRun, Builder.keptGroups_dropRun, Builder.flags_dropRun]
  rfl

/-- `nor` writes what `neither` and then `anything` write, unless the pattern would end with a
run of any characters that is in progress, whichever call asked for it; then this run is left
out, and nothing else changes. -/
theorem build_nor (calls : List Call) (x : Choice) :
    let b := builder calls
    let p := (build (calls ++ [x.call .nor])).value
    let q := (build (calls ++ [x.call .neither, .word .anything])).value
    (p = q ↔ b.pending.isOpenAnyRun = false) ∧
      (b.pending.isOpenAnyRun = true → ∃ before after : Text,
        (build calls).value.literal = before ++ Segment.anyRun.text ∧
          q.literal = before ++ (Segment.anyRun.text ++ after) ∧
            p = { q with literal := before ++ after }) := by
  intro b p q
  have hp : p = ⟨(b.dropRun.written ++ b.excluding (builder x.calls)).flatMap Segment.text,
      b.flags, b.keptGroups + x.built.groups, true⟩ := build_nor_eq calls x
  have hq : q = ⟨(b.written ++ b.excluding (builder x.calls)).flatMap Segment.text,
      b.flags, b.keptGroups + x.built.groups, true⟩ := build_neither_anything calls x
  cases hrun : b.pending.isOpenAnyRun with
  | false =>
    rw [hp, hq, Builder.dropRun_of_not hrun]
    simp
  | true =>
    have hwritten : b.written = b.dropRun.written ++ [.anyRun] :=
      Builder.written_of_isOpenAnyRun hrun
    have hne : p ≠ q := by
      intro hpq
      rw [hp, hq, hwritten, List.append_assoc, List.flatMap_append, List.flatMap_append,
        List.flatMap_append, List.flatMap_singleton] at hpq
      have hafter := List.append_cancel_left (congrArg Built.literal hpq)
      exact absurd (List.self_eq_append_left.1 hafter) (List.cons_ne_nil _ _)
    refine ⟨by simp [hne], fun _ => ⟨b.dropRun.written.flatMap Segment.text,
      (b.excluding (builder x.calls)).flatMap Segment.text, ?_, ?_, ?_⟩⟩
    · show b.build.value.literal = _
      rw [Builder.value_build, hwritten, List.flatMap_append, List.flatMap_singleton]
    · rw [hq, hwritten]
      simp only [List.flatMap_append, List.flatMap_singleton, List.append_assoc]
    · rw [hp, hq, List.flatMap_append]

/-- A run of an earlier exclusion is in progress and left out. -/
theorem build_nor_afterNor :
    let calls : List Call := [.textOperand .neither ['a'], .textOperand .nor ['b']]
    let x : Choice := .text ['c']
    (builder calls).pending.isOpenAnyRun = true ∧ ∃ before after : Text,
      (build calls).value.literal = before ++ Segment.anyRun.text ∧
        (build (calls ++ [x.call .nor])).value.literal = before ++ after := by
  intro calls x
  have hrun : (builder calls).pending.isOpenAnyRun = true := by decide +kernel
  obtain ⟨before, after, hcalls, -, hp⟩ := (build_nor calls x).2 hrun
  exact ⟨hrun, before, after, hcalls, congrArg Built.literal hp⟩

/-- A run that was asked for is left out like one of an earlier exclusion. -/
theorem not_build_nor_anything :
    let calls : List Call := [.word .anything]
    let x : Choice := .text ['a']
    let p := (build (calls ++ [x.call .nor])).value
    let q := (build (calls ++ [x.call .neither, .word .anything])).value
    p.literal = "(?!(?:(?:a){1,1}))(?:(?:.){0,})".toList ∧
      q.literal = "(?:(?:.){0,})(?!(?:(?:a){1,1}))(?:(?:.){0,})".toList ∧ p ≠ q := by
  decide +kernel

end Call

end FluentPattern
