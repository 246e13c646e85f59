import FluentPattern.Dialect.Admission
import FluentPattern.Matching.Backtrack
import FluentPattern.Matching.Lowering
import FluentPattern.Matching.Table

/-!
# Matchers

An expression that its engine admits becomes a matcher, which finds the leftmost
match from a position on. A pattern of the extended engine that needs no
backtracking is matched as the basic engine does it.

Main statements: `Expression.compile_expression`, `firstFrom_eq_none_iff`.
-/

namespace FluentPattern

/-- Why an expression has no matcher. -/
structure CompileError where
  /-- The engine that refused it. -/
  engine : Engine
  /-- What is wrong with it. -/
  fault : Fault
deriving DecidableEq

/-- The error as the engine words it. -/
def CompileError.message (e : CompileError) : String :=
  e.fault.message e.engine

/-- A compiled expression. -/
structure Matcher where
  /-- What was compiled. -/
  expression : Expression
  /-- The number of groups, the whole match included. -/
  groups : Nat
  /-- Whether the node is matched by backtracking. -/
  backtracks : Bool
  /-- What is matched. -/
  node : Node

/-- Whether the pattern of an expression is matched by backtracking. -/
def Expression.needsBacktracking (e : Expression) : Bool :=
  e.engine == .extended && (tokens e.text).any Token.needsBacktracking

/-- The matcher of an admitted pattern. Matching by tables knows the groups of the node,
backtracking all groups of the pattern. -/
def Matcher.ofBranches (e : Expression) (branches : Branches) : Matcher :=
  if e.needsBacktracking then
    let l := Branches.lower .extended .empty 0 branches
    ⟨e, l.groups + 1, true, l.node⟩
  else
    let l := Branches.lower .basic .empty 0 branches
    ⟨e, l.node.topGroup + 1, false, l.node⟩

/-- The matcher of an expression, if its engine admits the pattern. -/
def Expression.compile (e : Expression) : Except CompileError Matcher :=
  match readFor e.engine e.text with
  | .ok branches => .ok (.ofBranches e branches)
  | .error f => .error ⟨e.engine, f⟩

/-- A matcher knows what it was compiled from. -/
theorem Expression.compile_expression {e : Expression} {m : Matcher} (h : e.compile = .ok m) :
    m.expression = e := by
  unfold Expression.compile at h
  split at h
  · cases h
    unfold Matcher.ofBranches
    split <;> rfl
  · cases h

/-! ## Searching -/

/-- A match in a haystack. -/
structure Found where
  /-- The position before its first character. -/
  start : Nat
  /-- The position behind its last character. -/
  stop : Nat
  /-- The marks of its groups. -/
  marks : Marks
deriving DecidableEq

/-- A search gave up: it went back too often. -/
structure Exhausted where
deriving DecidableEq

namespace Exhausted

/-- The failure as it is worded. -/
def message (_ : Exhausted) : String :=
  "Max limit for backtracking count exceeded"

end Exhausted

/-- How often one search may go back. -/
def searchBudget : Nat :=
  1000000

/-- The first answer among `count` positions from `start` on. -/
def firstFrom {α : Type} (f : Nat → Option α) (start : Nat) : Nat → Option α
  | 0 => none
  | count + 1 =>
    match f start with
    | some a => some a
    | none => firstFrom f (start + 1) count

/-- There is no first answer if and only if no position has one. -/
theorem firstFrom_eq_none_iff {α : Type} (f : Nat → Option α) (start count : Nat) :
    firstFrom f start count = none ↔ ∀ p, start ≤ p → p < start + count → f p = none := by
  induction count generalizing start with
  | zero => exact ⟨fun _ p h1 h2 => by omega, fun _ => rfl⟩
  | succ count ih =>
    unfold firstFrom
    split
    · rename_i a ha
      refine ⟨fun h => by simp at h, fun h => ?_⟩
      rw [h start (Nat.le_refl _) (by omega)] at ha
      cases ha
    · rename_i hn
      rw [ih]
      refine ⟨fun h p h1 h2 => ?_, fun h p h1 h2 => h p (by omega) (by omega)⟩
      rcases Nat.eq_or_lt_of_le h1 with rfl | h1
      · exact hn
      · exact h p h1 (by omega)

/-- Try a step at one position after another. Moving on to the next position goes back
once. -/
def tryFrom (step : Step) (budget start : Nat) : Nat → Except Exhausted (Option Found)
  | 0 => .ok none
  | count + 1 =>
    match step start [] budget .found, count with
    | .found stop marks _, _ => .ok (some ⟨start, stop, marks⟩)
    | .exhausted, _ => .error {}
    | .failed _, 0 => .ok none
    | .failed 0, _ + 1 => .error {}
    | .failed (budget + 1), count => tryFrom step budget (start + 1) count

/-- The leftmost match that starts at a position of a haystack or after it, by the table of the
haystack. -/
def Table.find? (table : Table) (size start : Nat) : Option Found :=
  firstFrom (fun p => (table.row p).head?.map fun o => ⟨p, o.stop, o.marks⟩) start
    (size + 1 - start)

/-- The leftmost match of a node that starts at a position of a haystack or after it, by
backtracking. -/
def Node.find (n : Node) (h : Haystack) (start : Nat) : Except Exhausted (Option Found) :=
  tryFrom (n.step h) searchBudget start (h.size + 1 - start)

end FluentPattern
