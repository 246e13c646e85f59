import FluentPattern.Matching.Backtrack
import Mathlib.Data.List.Basic

/-!
# Ways to match

What a node means: the list of all ways in which it matches from a position, the most
preferred one first. A way is where it stops and where the groups were passed last. Both
ways of searching are held against this: backtracking tries the ways one after the other,
and a table keeps the first way to each stop.

Main statements: `Node.isBounded_ways` (a way goes forward and stays in the haystack),
`Ways.star_eq` (an endless repetition goes on as at its start).
-/

namespace FluentPattern

/-! ## Records -/

/-- Where each side of each group was passed last. -/
abbrev Record :=
  Nat → Side → Option Nat

namespace Record

/-- Nothing was passed. -/
def empty : Record :=
  fun _ _ => none

/-- A side of a group is passed. -/
def pass (r : Record) (group : Nat) (side : Side) (position : Nat) : Record :=
  fun g s => if group = g ∧ side = s then some position else r g s

/-- A later record, and an earlier one for what the later one does not say. -/
def after (later earlier : Record) : Record :=
  fun g s => (later g s).or (earlier g s)

/-- The bounds of what a group has matched last. -/
def span? (r : Record) (group : Nat) : Option (Nat × Nat) :=
  match r group .opening, r group .closing with
  | some start, some stop => if start ≤ stop then some (start, stop) else none
  | _, _ => none

/-- What is passed later stands in the later record. -/
theorem pass_after (r s : Record) (group : Nat) (side : Side) (position : Nat) :
    (r.pass group side position).after s = (r.after s).pass group side position := by
  funext g x
  unfold after pass
  split <;> rfl

end Record

/-- Marks are a record of what was passed. -/
theorem Marks.position?_cons (marks : Marks) (group : Nat) (side : Side) (position : Nat) :
    Marks.position? (⟨group, side, position⟩ :: marks) =
      Record.pass marks.position? group side position := by
  funext g s
  unfold Marks.position? Record.pass
  rw [List.find?_cons]
  by_cases h : group = g ∧ side = s
  · simp [h]
  · have hne : (group == g && side == s) = false := by
      simpa using h
    simp [hne, h]

theorem Marks.position?_nil : Marks.position? [] = Record.empty :=
  rfl

theorem Marks.span?_eq (marks : Marks) (group : Nat) :
    marks.span? group = Record.span? marks.position? group :=
  rfl

/-! ## Ways -/

/-- A way to match. -/
structure Way where
  /-- The position behind the match. -/
  stop : Nat
  /-- Where groups were passed last, on the way or before. -/
  record : Record

/-- The way after what was passed before. -/
def Way.after (earlier : Record) (v : Way) : Way :=
  ⟨v.stop, v.record.after earlier⟩

/-- The ways to match from a position, after what was passed before, the most preferred one
first. -/
abbrev Ways :=
  Nat → Record → List Way

namespace Ways

/-- Matches the empty text. -/
def unit : Ways :=
  fun p r => [⟨p, r⟩]

/-- Matches the empty text where a condition on the position holds. -/
def test (condition : Nat → Bool) : Ways :=
  fun p r => if condition p then [⟨p, r⟩] else []

/-- Matches one character of a set. -/
def char (h : Haystack) (s : CharSet) : Ways :=
  fun p r =>
    match h[p]? with
    | some c => if s.contains c then [⟨p + 1, r⟩] else []
    | none => []

/-- One after the other. -/
def seq (first second : Ways) : Ways :=
  fun p r => (first p r).flatMap fun v => second v.stop v.record

/-- The first, or else the second. -/
def alt (first second : Ways) : Ways :=
  fun p r => first p r ++ second p r

/-- A numbered group. -/
def capture (group : Nat) (body : Ways) : Ways :=
  fun p r => (body p (r.pass group .opening p)).map fun v =>
    ⟨v.stop, v.record.pass group .closing v.stop⟩

/-- The empty text where the body matches, after its most preferred way, or where it does
not match. -/
def look (negated : Bool) (body : Ways) : Ways :=
  fun p r =>
    match (body p r).head?, negated with
    | some v, false => [⟨p, v.record⟩]
    | some _, true => []
    | none, false => []
    | none, true => [⟨p, r⟩]

/-- What a group has matched, character by character. -/
def groupAgain (h : Haystack) (group : Nat) : Ways :=
  fun p r =>
    match r.span? group with
    | none => []
    | some (start, stop) =>
      if p + (stop - start) ≤ h.size &&
          (h.extract p (p + (stop - start)) == h.extract start stop) then
        [⟨p + (stop - start), r⟩]
      else []

/-- The body or the empty text, the body first if it is preferred. -/
def orEmpty (greedy : Bool) (body : Ways) : Ways :=
  if greedy then alt body unit else alt unit body

/-- A number of times in a row. -/
def copies (body : Ways) : Nat → Ways
  | 0 => unit
  | n + 1 => seq body (copies body n)

/-- At most a number of times in a row. -/
def upTo (greedy : Bool) (body : Ways) : Nat → Ways
  | 0 => unit
  | n + 1 => orEmpty greedy (seq body (upTo greedy body n))

/-- The ways that move on. -/
def moving (body : Ways) : Ways :=
  fun p r => (body p r).filter (p < ·.stop)

/-- At most `n` iterations, none of them empty. -/
def iterate (greedy : Bool) (body : Ways) : Nat → Ways
  | 0 => unit
  | n + 1 => orEmpty greedy (seq (moving body) (iterate greedy body n))

/-- Any number of times in a row, none of them empty. -/
def star (size : Nat) (greedy : Bool) (body : Ways) : Ways :=
  fun p r => iterate greedy body (size - p + 1) p r

/-- Once, and if that is not empty any number of further times, none of them empty. -/
def plus (size : Nat) (greedy : Bool) (body : Ways) : Ways :=
  fun p r => (body p r).flatMap fun v =>
    if p < v.stop then star size greedy body v.stop v.record else [v]

/-- The further iterations of a repetition. -/
def further (size : Nat) (greedy : Bool) (body : Ways) : Further → Ways
  | .upTo n => upTo greedy body n
  | .star => star size greedy body
  | .plus => plus size greedy body

/-- A least number of iterations, and then further ones. -/
def times (size least : Nat) (more : Further) (greedy : Bool) (body : Ways) : Ways :=
  seq (copies body least) (further size greedy body more)

end Ways

/-- The ways in which a node matches. -/
def Node.ways (h : Haystack) : Node → Ways
  | empty => .unit
  | char s => .char h s
  | anchor a => .test (a.holds h)
  | seq first second => .seq (first.ways h) (second.ways h)
  | alt first second => .alt (first.ways h) (second.ways h)
  | capture group body => .capture group (body.ways h)
  | look negated body => .look negated (body.ways h)
  | groupAgain group => .groupAgain h group
  | times least further greedy body => .times h.size least further greedy (body.ways h)

/-! ## Bounds -/

/-- The ways go forward and stay in the haystack. -/
def Ways.IsBounded (size : Nat) (w : Ways) : Prop :=
  ∀ p, p ≤ size → ∀ r, ∀ v ∈ w p r, p ≤ v.stop ∧ v.stop ≤ size

namespace Ways.IsBounded

variable {size : Nat} {w first second : Ways}

theorem unit : Ways.unit.IsBounded size := by
  intro p hp r v hv
  obtain rfl := List.mem_singleton.1 hv
  exact ⟨Nat.le_refl p, hp⟩

theorem test (condition : Nat → Bool) : (Ways.test condition).IsBounded size := by
  intro p hp r v hv
  unfold Ways.test at hv
  split at hv
  · exact unit p hp r v hv
  · exact absurd hv List.not_mem_nil

theorem char (h : Haystack) (s : CharSet) : (Ways.char h s).IsBounded h.size := by
  intro p hp r v hv
  unfold Ways.char at hv
  split at hv
  · rename_i c hc
    have hlt : p < h.size := (Array.getElem?_eq_some_iff.1 hc).1
    split at hv
    · obtain rfl := List.mem_singleton.1 hv
      exact ⟨Nat.le_succ p, hlt⟩
    · exact absurd hv List.not_mem_nil
  · exact absurd hv List.not_mem_nil

theorem seq (hf : first.IsBounded size) (hs : second.IsBounded size) :
    (Ways.seq first second).IsBounded size := by
  intro p hp r v hv
  obtain ⟨u, hu, hv⟩ := List.mem_flatMap.1 hv
  have hfu := hf p hp r u hu
  have hsv := hs u.stop hfu.2 u.record v hv
  exact ⟨Nat.le_trans hfu.1 hsv.1, hsv.2⟩

theorem alt (hf : first.IsBounded size) (hs : second.IsBounded size) :
    (Ways.alt first second).IsBounded size := by
  intro p hp r v hv
  rcases List.mem_append.1 hv with hv | hv
  · exact hf p hp r v hv
  · exact hs p hp r v hv

theorem capture (hw : w.IsBounded size) (group : Nat) :
    (Ways.capture group w).IsBounded size := by
  intro p hp r v hv
  obtain ⟨u, hu, rfl⟩ := List.mem_map.1 hv
  exact hw p hp _ u hu

theorem look (negated : Bool) : (Ways.look negated w).IsBounded size := by
  intro p hp r v hv
  unfold Ways.look at hv
  split at hv
  · obtain rfl := List.mem_singleton.1 hv
    exact ⟨Nat.le_refl p, hp⟩
  · exact absurd hv List.not_mem_nil
  · exact absurd hv List.not_mem_nil
  · exact unit p hp r v hv

theorem groupAgain (h : Haystack) (group : Nat) : (Ways.groupAgain h group).IsBounded h.size := by
  intro p hp r v hv
  unfold Ways.groupAgain at hv
  split at hv
  · exact absurd hv List.not_mem_nil
  · split at hv
    · rename_i hc
      rw [Bool.and_eq_true, decide_eq_true_eq] at hc
      obtain rfl := List.mem_singleton.1 hv
      exact ⟨Nat.le_add_right _ _, hc.1⟩
    · exact absurd hv List.not_mem_nil

theorem orEmpty (hw : w.IsBounded size) (greedy : Bool) :
    (Ways.orEmpty greedy w).IsBounded size := by
  unfold Ways.orEmpty
  split
  · exact hw.alt unit
  · exact unit.alt hw

theorem copies (hw : w.IsBounded size) (n : Nat) : (Ways.copies w n).IsBounded size := by
  induction n with
  | zero => exact unit
  | succ n ih => exact hw.seq ih

theorem upTo (hw : w.IsBounded size) (greedy : Bool) (n : Nat) :
    (Ways.upTo greedy w n).IsBounded size := by
  induction n with
  | zero => exact unit
  | succ n ih => exact (hw.seq ih).orEmpty greedy

theorem moving (hw : w.IsBounded size) : (Ways.moving w).IsBounded size :=
  fun p hp r v hv => hw p hp r v (List.mem_filter.1 hv).1

theorem iterate (hw : w.IsBounded size) (greedy : Bool) (n : Nat) :
    (Ways.iterate greedy w n).IsBounded size := by
  induction n with
  | zero => exact unit
  | succ n ih => exact (hw.moving.seq ih).orEmpty greedy

theorem star (hw : w.IsBounded size) (greedy : Bool) : (Ways.star size greedy w).IsBounded size :=
  fun p hp r v hv => hw.iterate greedy _ p hp r v hv

theorem plus (hw : w.IsBounded size) (greedy : Bool) :
    (Ways.plus size greedy w).IsBounded size := by
  intro p hp r v hv
  obtain ⟨u, hu, hv⟩ := List.mem_flatMap.1 hv
  have hwu := hw p hp r u hu
  split at hv
  · have hsv := hw.star greedy u.stop hwu.2 u.record v hv
    exact ⟨Nat.le_trans hwu.1 hsv.1, hsv.2⟩
  · obtain rfl := List.mem_singleton.1 hv
    exact hwu

theorem times (hw : w.IsBounded size) (least : Nat) (more : Further) (greedy : Bool) :
    (Ways.times size least more greedy w).IsBounded size := by
  refine (hw.copies least).seq ?_
  cases more with
  | upTo n => exact hw.upTo greedy n
  | star => exact hw.star greedy
  | plus => exact hw.plus greedy

end Ways.IsBounded

/-- The ways of a node go forward and stay in the haystack. -/
theorem Node.isBounded_ways (h : Haystack) (n : Node) : (n.ways h).IsBounded h.size := by
  induction n with
  | empty => exact .unit
  | char s => exact .char h s
  | anchor a => exact .test _
  | seq first second hf hs => exact hf.seq hs
  | alt first second hf hs => exact hf.alt hs
  | capture group body hb => exact hb.capture group
  | look negated body _ => exact .look negated
  | groupAgain group => exact .groupAgain h group
  | times least further greedy body hb => exact hb.times least further greedy

/-! ## Endless repetitions -/

namespace Ways

variable {size : Nat} {w : Ways}

theorem orEmpty_congr {v w : Ways} {p : Nat} {r : Record} (h : v p r = w p r) (greedy : Bool) :
    orEmpty greedy v p r = orEmpty greedy w p r := by
  cases greedy with
  | true => exact congrArg (· ++ [_]) h
  | false => exact congrArg ([_] ++ ·) h

/-- More iterations than there are characters left make no difference. -/
theorem iterate_stable (hw : w.IsBounded size) (greedy : Bool) (n : Nat) :
    ∀ p, p ≤ size → size < p + n → ∀ r, iterate greedy w (n + 1) p r = iterate greedy w n p r := by
  induction n with
  | zero =>
    intro p hp hn
    omega
  | succ n ih =>
    intro p hp hn r
    refine orEmpty_congr (List.flatMap_congr fun v hv => ?_) greedy
    obtain ⟨hv, hlt⟩ := List.mem_filter.1 hv
    have hlt : p < v.stop := by simpa using hlt
    exact ih v.stop (hw p hp r v hv).2 (by omega) v.record

theorem iterate_eq (hw : w.IsBounded size) (greedy : Bool) {m n p : Nat} (hp : p ≤ size)
    (hm : size < p + m) (hmn : m ≤ n) (r : Record) :
    iterate greedy w n p r = iterate greedy w m p r := by
  induction hmn with
  | refl => rfl
  | @step n hmn ih =>
    have hmn : m ≤ n := hmn
    exact (iterate_stable hw greedy n p hp (by omega) r).trans ih

/-- An endless repetition is an iteration that moves on and then the repetition, or the
empty text. -/
theorem star_eq (hw : w.IsBounded size) (greedy : Bool) {p : Nat} (hp : p ≤ size) (r : Record) :
    star size greedy w p r = orEmpty greedy (seq (moving w) (star size greedy w)) p r := by
  refine orEmpty_congr (List.flatMap_congr fun v hv => ?_) greedy
  obtain ⟨hv, hlt⟩ := List.mem_filter.1 hv
  have hlt : p < v.stop := by simpa using hlt
  have hle := (hw p hp r v hv).2
  exact iterate_eq hw greedy hle (by omega) (by omega) v.record

end Ways

end FluentPattern
