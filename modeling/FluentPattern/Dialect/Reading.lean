import FluentPattern.Dialect.Token

/-!
# Reading a pattern

The tokens of a pattern are read from the left into a tree. The groups that are
open lie on a stack, each with what stands before it. What a token may follow is
a matter of rules: the grammar of the dialect has few, and each engine has its
own. The first token that a rule refuses is the fault of the pattern.

Main statements: `readAll_append`.
-/

namespace FluentPattern

/-- The branches of a group as far as they are read, the latest branch and the latest
piece first. -/
structure Unfinished where
  /-- The finished branches. -/
  branches : Branches := []
  /-- The pieces of the branch in progress. -/
  pieces : Branch := []

namespace Unfinished

/-- One more piece. -/
def add (u : Unfinished) (p : Piece) : Unfinished :=
  { u with pieces := p :: u.pieces }

/-- A bar: the branch in progress is finished. -/
def endBranch (u : Unfinished) : Unfinished :=
  ⟨u.pieces.reverse :: u.branches, []⟩

/-- The branches in order. -/
def close (u : Unfinished) : Branches :=
  u.endBranch.branches.reverse

end Unfinished

/-- A pattern as far as it is read. -/
structure Reading where
  /-- The innermost open group, or the whole pattern. -/
  inner : Unfinished := {}
  /-- The open groups, the innermost one first, with what stands before each. -/
  outer : List (GroupKind × Unfinished) := []

/-- What a token may follow. -/
structure Rules where
  /-- The fault of a token, from the number of open groups and the piece before it. -/
  refuse : Nat → Option Piece → Token → Option Fault

namespace Rules

/-- Whether a piece before a token can be repeated at all: a setting of flags cannot. -/
def canRepeat : Option Piece → Bool
  | none => false
  | some (.flags _) => false
  | some _ => true

/-- The grammar of the dialect: a quantity repeats a piece, and a brace starts a
quantity. -/
def grammar : Rules where
  refuse _ before t :=
    match t with
    | .quantity _ => if canRepeat before then none else some .nothingToRepeat
    | .looseBrace => some (if canRepeat before then .malformedBounds else .nothingToRepeat)
    | .fault f => some f
    | _ => none

end Rules

namespace Reading

/-- The number of open groups. -/
def depth (r : Reading) : Nat :=
  r.outer.length

/-- One more piece in the innermost group. -/
def add (r : Reading) (p : Piece) : Reading :=
  { r with inner := r.inner.add p }

/-- Read a token that no rule refuses. -/
def accept (r : Reading) : Token → Except Fault Reading
  | .atom a => .ok (r.add (.atom a))
  | .flags fs => .ok (r.add (.flags fs))
  | .looseBrace => .ok (r.add (.atom (.char '{')))
  | .bar => .ok { r with inner := r.inner.endBranch }
  | .quantity q =>
    match r.inner.pieces with
    | [] => .error .nothingToRepeat
    | p :: pieces => .ok { r with inner := { r.inner with pieces := .repeated q p :: pieces } }
  | .opening k => .ok ⟨{}, (k, r.inner) :: r.outer⟩
  | .closing =>
    match r.outer with
    | [] => .error .unopenedGroup
    | (k, before) :: outer => .ok ⟨before.add (.group k r.inner.close), outer⟩
  | .fault f => .error f

/-- Read one token. -/
def step (rules : Rules) (r : Reading) (t : Token) : Except Fault Reading :=
  match rules.refuse r.depth r.inner.pieces.head? t with
  | some f => .error f
  | none => r.accept t

/-- Read tokens in order, up to the first fault. -/
def readAll (rules : Rules) (r : Reading) : List Token → Except Fault Reading
  | [] => .ok r
  | t :: ts =>
    match r.step rules t with
    | .ok r => r.readAll rules ts
    | .error f => .error f

/-- The whole pattern, if no group is open. -/
def finish (r : Reading) : Except Fault Branches :=
  match r.outer with
  | [] => .ok r.inner.close
  | _ :: _ => .error .unclosedGroup

/-- Reading goes on where it stopped. -/
theorem readAll_append (rules : Rules) (r : Reading) (first second : List Token) :
    r.readAll rules (first ++ second) =
      match r.readAll rules first with
      | .ok r => r.readAll rules second
      | .error f => .error f := by
  induction first generalizing r with
  | nil => rfl
  | cons t first ih =>
    simp only [List.cons_append, readAll]
    cases r.step rules t with
    | ok r => exact ih r
    | error f => rfl

end Reading

/-- Read the tokens of a pattern. -/
def readTokens (rules : Rules) (ts : List Token) : Except Fault Branches :=
  match Reading.readAll rules {} ts with
  | .ok r => r.finish
  | .error f => .error f

/-- Read a pattern. -/
def readPattern (rules : Rules) (t : Text) : Except Fault Branches :=
  readTokens rules (tokens t)

end FluentPattern
