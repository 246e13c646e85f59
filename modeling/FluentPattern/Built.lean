import FluentPattern.Expression
import FluentPattern.Flags

/-!
# Built patterns

The finished output of a builder: the literal of the pattern, its flags, the
number of its capturing groups, and whether it needs the extended engine.
-/

namespace FluentPattern

/-- A finished pattern. -/
structure Built where
  /-- The pattern as it is written, without its own flags. -/
  literal : Text
  /-- The flags of the pattern. -/
  flags : Flags
  /-- The number of capturing groups of the literal. -/
  groups : Nat
  /-- Whether the literal needs the extended engine. -/
  extended : Bool
deriving DecidableEq

namespace Built

/-- The literal with its inline flags around it, the form in which it is embedded. -/
def scopedLiteral (b : Built) : Text :=
  if b.flags.inlineCode.isEmpty then b.literal
  else ['(', '?'] ++ b.flags.inlineCode ++ ':' :: b.literal ++ [')']

/-- The engine that the pattern needs. -/
def engine (b : Built) : Engine :=
  if b.extended then .extended else .basic

/-- The whole pattern, its inline flags in front, for the engine that it needs. -/
def expression (b : Built) : Expression :=
  ⟨b.engine, b.flags.inlineGroup ++ b.literal⟩

instance : ToString Built where
  toString b := String.ofList b.literal

/-- Without inline flags the literal is embedded as it is. -/
theorem scopedLiteral_of_inlineCode_eq_nil {b : Built} (h : b.flags.inlineCode = []) :
    b.scopedLiteral = b.literal := by
  simp [scopedLiteral, h]

end Built

end FluentPattern
