import FluentPattern.Fragment.Call
import FluentPattern.Proofs.Splitting
import FluentPattern.Proofs.Structure
import Mathlib.Algebra.GroupWithZero.Nat

/-!
# What calls on a fragment come to

Calls on an empty fragment set each part of it by a rule of its own: the last bound counts, the
first content counts, the modifiers stay once they are set, and the offsets that move an embedded
pattern add up from the content on. `Fragment.ofCalls` says this of a whole list of calls.

Main statements: `Fragment.apply_eq` (all that a call does), `Fragment.source?_eq_some_iff`,
`Fragment.apply_ofCalls` (one more call is one step), `Fragment.run_ofCalls`, `Fragment.run_empty`
(the answers, the fragments and the segment of any calls).
-/

namespace FluentPattern

/-- Moving a content twice moves it by the sum. -/
theorem Content.shift_shift {c : Content} {a b : Nat} (h : ∀ t, c = .pattern t → t.FitsMoved a) :
    (c.shift a).shift b = c.shift (a + b) := by
  cases c with
  | pattern t =>
    rw [shift, shift, shift, Nat.add_comm a b, shiftReferences_shiftReferences (h t rfl)]
  | _ => rfl

namespace Fragment

namespace Call

/-- The least number of repetitions that a call gives. -/
def min? : Call → Option Nat
  | setExact n | setMin n => some n
  | _ => none

/-- The greatest number of repetitions that a call gives. -/
def max? : Call → Option Nat
  | setExact n | setMax n => some n
  | _ => none

/-- By how much a call moves an embedded pattern. -/
def offset : Call → Nat
  | shiftGroups d => d
  | _ => 0

/-- The content that a call gives. -/
def content? : Call → Option Content
  | setContent c => some c
  | _ => none

/-- What a call answers after others, if it answers: whether it is the first of its kind. -/
def answerAfter (before : List Call) : Call → Option Bool
  | setContent _ => some (before.all fun call => call.content?.isNone)
  | setCapture => some (!before.contains setCapture)
  | _ => none

end Call

/-- Everything that a call does to a fragment. -/
theorem apply_eq (f : Fragment) (call : Call) :
    f.apply call =
      ⟨call.min?.or f.min, call.max?.or f.max,
        (f.content.map (Content.shift call.offset)).or call.content?,
        f.reluctant || Call.setReluctant == call, f.capture || Call.setCapture == call⟩ := by
  have hzero : Content.shift 0 = id := funext Content.shift_zero
  cases call <;>
    simp [apply, setExact, setMin, setMax, setContent, setReluctant, setCapture, shiftGroups,
      Call.min?, Call.max?, Call.offset, Call.content?, hzero]

/-! ## A whole list of calls -/

/-- The last value that some calls give. -/
def lastGiven (give : Call → Option Nat) (calls : List Call) : Option Nat :=
  (calls.filterMap give).getLast?

/-- The first content that some calls give, and the sum of the offsets after it. -/
def source? : List Call → Option (Content × Nat)
  | [] => none
  | .setContent c :: calls => some (c, (calls.map Call.offset).sum)
  | _ :: calls => source? calls

/-- The fragment that some calls come to. -/
def ofCalls (calls : List Call) : Fragment where
  min := lastGiven Call.min? calls
  max := lastGiven Call.max? calls
  content := (source? calls).map fun s => s.1.shift s.2
  reluctant := calls.contains .setReluctant
  capture := calls.contains .setCapture

/-- Whether the numbers of an embedded pattern can still be read after all the calls. -/
def FitsShifts (calls : List Call) : Prop :=
  ∀ t d, source? calls = some (.pattern t, d) → t.FitsMoved d

/-- The content is the first one given, and the offsets are those of the calls after it. -/
theorem source?_eq_some_iff {calls : List Call} {c : Content} {d : Nat} :
    source? calls = some (c, d) ↔
      ∃ before after, calls = before ++ .setContent c :: after ∧
        (∀ call ∈ before, call.content? = none) ∧ d = (after.map Call.offset).sum := by
  constructor
  · intro h
    induction calls with
    | nil => exact absurd h (by simp [source?])
    | cons call calls ih =>
      cases call with
      | setContent e =>
        obtain ⟨rfl, rfl⟩ := Prod.mk.inj (Option.some.inj h)
        exact ⟨[], calls, rfl, by simp, rfl⟩
      | _ =>
        obtain ⟨before, after, rfl, hbefore, hd⟩ := ih h
        exact ⟨_ :: before, after, rfl, List.forall_mem_cons.2 ⟨rfl, hbefore⟩, hd⟩
  · rintro ⟨before, after, rfl, hbefore, rfl⟩
    induction before with
    | nil => rfl
    | cons call before ih =>
      obtain ⟨hcall, hrest⟩ := List.forall_mem_cons.1 hbefore
      cases call with
      | setContent e => exact absurd hcall (by simp [Call.content?])
      | _ => exact ih hrest

theorem isNone_source? (calls : List Call) :
    (source? calls).isNone = calls.all fun call => call.content?.isNone := by
  induction calls with
  | nil => rfl
  | cons call calls ih =>
    cases call with
    | setContent e => rfl
    | _ => exact ih

theorem isSome_source?_iff (calls : List Call) :
    (source? calls).isSome ↔ ∃ c, Call.setContent c ∈ calls := by
  constructor
  · intro h
    obtain ⟨⟨c, d⟩, hs⟩ := Option.isSome_iff_exists.1 h
    obtain ⟨before, after, rfl, -, -⟩ := source?_eq_some_iff.1 hs
    exact ⟨c, List.mem_append_right _ List.mem_cons_self⟩
  · rintro ⟨c, hc⟩
    by_contra h
    have hall := isNone_source? calls
    rw [Option.not_isSome_iff_eq_none.1 h] at hall
    exact absurd (List.all_eq_true.1 hall.symm _ hc) (by simp [Call.content?])

/-! ## One more call -/

theorem lastGiven_concat (give : Call → Option Nat) (calls : List Call) (call : Call) :
    lastGiven give (calls ++ [call]) = (give call).or (lastGiven give calls) := by
  rw [lastGiven, lastGiven, List.filterMap_append, List.getLast?_append]
  cases h : give call <;> simp [h]

/-- Once there is a content, the offsets of further calls are added. -/
theorem source?_append_of_some {calls : List Call} {c : Content} {d : Nat}
    (h : source? calls = some (c, d)) (more : List Call) :
    source? (calls ++ more) = some (c, d + (more.map Call.offset).sum) := by
  obtain ⟨before, after, rfl, hbefore, rfl⟩ := source?_eq_some_iff.1 h
  refine source?_eq_some_iff.2 ⟨before, after ++ more, ?_, hbefore, ?_⟩
  · rw [List.append_assoc, List.cons_append]
  · rw [List.map_append, List.sum_append]

/-- As long as there is no content, calls leave no offset behind. -/
theorem source?_append_of_none {calls : List Call} (h : source? calls = none) (more : List Call) :
    source? (calls ++ more) = source? more := by
  induction calls with
  | nil => rfl
  | cons call calls ih =>
    cases call with
    | setContent e => exact absurd h (by simp [source?])
    | _ => exact ih h

theorem source?_singleton (call : Call) :
    source? [call] = call.content?.map fun c => (c, 0) := by
  cases call <;> rfl

/-- If the numbers fit after all calls, they fit after the first of them. -/
theorem FitsShifts.of_append {before after : List Call} (h : FitsShifts (before ++ after)) :
    FitsShifts before :=
  fun t _ hs => (h t _ (source?_append_of_some hs after)).mono (Nat.le_add_right _ _)

/-- The next call moves the content that there is, or gives one. -/
theorem content_ofCalls_concat {calls : List Call} (h : FitsShifts calls) (call : Call) :
    (ofCalls (calls ++ [call])).content =
      ((ofCalls calls).content.map (Content.shift call.offset)).or call.content? := by
  cases hs : source? calls with
  | none =>
    rw [ofCalls, ofCalls, source?_append_of_none hs, source?_singleton, hs]
    cases call.content? <;> simp
  | some s =>
    -- The next offset acts on the content as it was moved so far, not on the one that was given.
    obtain ⟨c, d⟩ := s
    have hshift : (c.shift d).shift call.offset = c.shift (d + call.offset) :=
      Content.shift_shift fun t ht => h t d (ht ▸ hs)
    simp [ofCalls, source?_append_of_some hs, hs, hshift]

/-- One more call is one step. -/
theorem apply_ofCalls {calls : List Call} (h : FitsShifts calls) (call : Call) :
    (ofCalls calls).apply call = ofCalls (calls ++ [call]) := by
  rw [apply_eq, ← content_ofCalls_concat h]
  simp only [ofCalls, lastGiven_concat, List.contains_append, List.contains_cons,
    List.contains_nil, Bool.or_false]

/-- A call answers whether it is the first of its kind. -/
theorem answer_ofCalls (calls : List Call) (call : Call) :
    (ofCalls calls).answer call = call.answerAfter calls := by
  cases call with
  | setContent c =>
    rw [answer, hasContent, ofCalls, Option.isSome_map, Call.answerAfter, ← isNone_source?]
    exact congrArg some (Option.not_isSome _)
  | _ => rfl

/-! ## All calls -/

theorem foldl_ofCalls {before calls : List Call} (h : FitsShifts (before ++ calls)) :
    calls.foldl apply (ofCalls before) = ofCalls (before ++ calls) := by
  induction calls generalizing before with
  | nil => rw [List.append_nil, List.foldl_nil]
  | cons call calls ih =>
    have hcons : FitsShifts (before ++ [call] ++ calls) := by rwa [← List.append_cons]
    rw [List.foldl_cons, apply_ofCalls h.of_append, ih hcons, ← List.append_cons]

/-- Each call answers what the calls before it say, and leaves the fragment that they and it
come to. -/
theorem run_ofCalls {before calls : List Call} (h : FitsShifts (before ++ calls)) :
    run (ofCalls before) calls =
      calls.mapIdx fun i call =>
        (call.answerAfter (before ++ calls.take i), ofCalls (before ++ calls.take (i + 1))) := by
  induction calls generalizing before with
  | nil => rfl
  | cons call calls ih =>
    have hcons : FitsShifts (before ++ [call] ++ calls) := by rwa [← List.append_cons]
    rw [run, apply_ofCalls h.of_append, ih hcons, answer_ofCalls, List.mapIdx_cons]
    simp only [List.take_zero, List.take_succ_cons, List.append_nil, ← List.append_cons]

/-- The segment has the content that was given first, moved, and the quantity of the bounds. -/
theorem segment?_ofCalls (calls : List Call) :
    (ofCalls calls).segment? =
      (source? calls).map fun s =>
        ⟨if .setCapture ∈ calls then .capture else .group,
          [(s.1.shift s.2).literal.wrapped ++ Quantity.suffix (ofCalls calls).quantity?]⟩ := by
  rw [segment?_eq, ← quantity_append_reluctance, ofCalls, Option.map_map]
  refine congrArg (Option.map · _) (funext fun s => ?_)
  simp [segmentOf]

/-- Calls on an empty fragment come to `ofCalls`, each one after those before it: every call
answers whether it is the first of its kind, the bounds are the last ones given, and the content is
the first one given, moved by all offsets after it. There is a segment if a content was given, and
its suffix is read as the quantity that the bounds say. -/
theorem run_empty {calls : List Call} (h : FitsShifts calls) :
    calls.foldl apply empty = ofCalls calls ∧
      run empty calls = calls.mapIdx (fun i call =>
        (call.answerAfter (calls.take i), ofCalls (calls.take (i + 1)))) ∧
      ((ofCalls calls).segment?.isSome ↔ ∃ c, Call.setContent c ∈ calls) ∧
      (ofCalls calls).segment? =
        (source? calls).map (fun s =>
          ⟨if .setCapture ∈ calls then .capture else .group,
            [(s.1.shift s.2).literal.wrapped ++ Quantity.suffix (ofCalls calls).quantity?]⟩) ∧
      ∀ rest : Text, rest.head? ≠ some '?' →
        tokens (Quantity.suffix (ofCalls calls).quantity? ++ rest) =
          ((ofCalls calls).quantity?.map Token.quantity).toList ++ tokens rest := by
  refine ⟨@foldl_ofCalls [] calls h, @run_ofCalls [] calls h, ?_, segment?_ofCalls calls,
    fun rest => tokens_suffix _⟩
  rw [segment?_ofCalls, Option.isSome_map]
  exact isSome_source?_iff calls

/-- A content after offsets, a second one, a second capture, and bounds given twice. -/
theorem run_empty_moved :
    let calls : List Call := [.setMin 2, .shiftGroups 9, .setContent (.pattern "(a)\\1".toList),
      .shiftGroups 1, .setContent .anyChar, .setCapture, .setReluctant, .shiftGroups 2, .setExact 3,
      .setMax 5, .setCapture]
    FitsShifts calls ∧
      (run empty calls).map Prod.fst = [none, none, some true, none, some false, some true, none,
        none, none, none, some false] ∧
      calls.foldl apply empty =
        ⟨some 3, some 5, some (.pattern "(a)\\4".toList), true, true⟩ ∧
      (ofCalls calls).segment? = some ⟨.capture, ["(?:(a)\\4)\x7b3,5\x7d?".toList]⟩ := by
  intro calls
  have hlexemes : lexemes "(a)\\1".toList =
      [.plain '(', .plain 'a', .plain ')', .reference ['1']] := by
    simp [lexemes, Text.digits, Text.afterDigits]
  have hfits : FitsShifts calls := by
    intro t d hs
    obtain ⟨ht, rfl⟩ := Prod.mk.inj (Option.some.inj hs)
    obtain rfl := Content.pattern.inj ht
    intro ds hds
    rw [hlexemes] at hds
    obtain rfl : ds = ['1'] := by simpa using hds
    decide +kernel
  have hshift : shiftReferences 3 "(a)\\1".toList = "(a)\\4".toList := by
    rw [shiftReferences, hlexemes]
    rfl
  have hsource : source? calls = some (.pattern "(a)\\1".toList, 3) := rfl
  obtain ⟨hfold, hrun, -, hsegment, -⟩ := run_empty hfits
  refine ⟨hfits, ?_, ?_, ?_⟩
  · rw [hrun]
    rfl
  · rw [hfold]
    exact congrArg (fun t => Fragment.mk (some 3) (some 5) (some (.pattern t)) true true) hshift
  · have hquantity : (ofCalls calls).quantity? = some ⟨3, some 5, false⟩ := rfl
    rw [hsegment, hsource, Option.map_some, Content.shift, hshift, if_pos (by simp [calls]),
      hquantity]
    decide

end Fragment

end FluentPattern
