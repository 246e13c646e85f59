import FluentPattern.Builder.Call
import FluentPattern.Matching.Regex

/-!
# Compiled patterns

A regex together with the flags that it was built with. The flag `g`, which no
engine knows, decides whether all matches are found and replaced or only the
first one. The queries are those of any regex, and a builder compiles to a matcher.

Main statements: `Compiled.group_of_le`.
-/

namespace FluentPattern

/-- Why a query has no answer. -/
inductive QueryError where
  /-- The search gave up. -/
  | exhausted (e : Exhausted)
  /-- The pattern has no such group. -/
  | noSuchGroup (group groups : Nat)
deriving DecidableEq

/-- The error as it is worded. -/
def QueryError.message : QueryError → String
  | exhausted e => e.message
  | noSuchGroup group groups =>
    "capture group " ++ toString group ++ " out of range (" ++ toString groups ++ " groups)"

/-- A compiled pattern, whatever its regex. -/
structure Pattern where
  /-- The compiled regex. -/
  regex : Regex
  /-- The flags that the pattern was built with. -/
  flags : Flags

namespace Pattern

/-- Whether all matches are found and replaced. -/
def isGlobal (p : Pattern) : Bool :=
  p.flags.everyMatch

/-- How many matches count, where zero is all of them. -/
def limit (p : Pattern) : Nat :=
  if p.isGlobal then 0 else 1

/-- Whether the text has a match. -/
def isMatch (p : Pattern) (t : Text) : Except QueryError Bool :=
  (p.regex.isMatch t).mapError .exhausted

/-- The leftmost match. -/
def find (p : Pattern) (t : Text) : Except QueryError (Option Match) :=
  (p.regex.find t).mapError .exhausted

/-- The matches that count. -/
def findAll (p : Pattern) (t : Text) : Except QueryError (List Match) :=
  (collect (Matcher.limited p.limit (p.regex.findEach t))).mapError .exhausted

/-- What a group has matched in the leftmost match. -/
def group (p : Pattern) (t : Text) (n : Nat) : Except QueryError (Option Match) :=
  if p.regex.groups ≤ n then .error (.noSuchGroup n p.regex.groups)
  else (p.regex.group t n).mapError .exhausted

/-- The text with the matches that count replaced. -/
def replace (p : Pattern) (t replacement : Text) : Except QueryError Text :=
  (p.regex.replace t p.limit replacement).mapError .exhausted

end Pattern

/-- A pattern that was compiled to a matcher. -/
structure Compiled where
  /-- The matcher. -/
  matcher : Matcher
  /-- The flags that the pattern was built with. -/
  flags : Flags

namespace Compiled

/-- Whether two compiled patterns are the same. -/
def isSame (c d : Compiled) : Bool :=
  c.matcher.isSame d.matcher && c.flags == d.flags

/-- The whole pattern, with its inline flags. -/
def text (c : Compiled) : Text :=
  c.matcher.expression.text

/-- The compiled pattern with the regex of its matcher. -/
def pattern (c : Compiled) : Pattern :=
  ⟨c.matcher.regex, c.flags⟩

/-- Whether all matches are found and replaced. -/
def isGlobal (c : Compiled) : Bool :=
  c.pattern.isGlobal

/-- How many matches count, where zero is all of them. -/
def limit (c : Compiled) : Nat :=
  c.pattern.limit

/-- Whether the text has a match. -/
def isMatch (c : Compiled) (t : Text) : Except QueryError Bool :=
  c.pattern.isMatch t

/-- The leftmost match. -/
def find (c : Compiled) (t : Text) : Except QueryError (Option Match) :=
  c.pattern.find t

/-- The matches that count. -/
def findAll (c : Compiled) (t : Text) : Except QueryError (List Match) :=
  c.pattern.findAll t

/-- What a group has matched in the leftmost match. -/
def group (c : Compiled) (t : Text) (n : Nat) : Except QueryError (Option Match) :=
  c.pattern.group t n

/-- The text with the matches that count replaced. -/
def replace (c : Compiled) (t replacement : Text) : Except QueryError Text :=
  c.pattern.replace t replacement

/-- A group that the pattern does not have is an error, whatever the text. -/
theorem group_of_le {c : Compiled} {n : Nat} (h : c.matcher.groups ≤ n) (t : Text) :
    c.group t n = .error (.noSuchGroup n c.matcher.groups) := by
  simp [group, Pattern.group, pattern, h]

end Compiled

/-- Compile a finished pattern. -/
def Built.compile (b : Built) : Logged (Except CompileError Compiled) :=
  match b.expression.compile with
  | .ok m => do
    Logged.note (.compiled b.expression)
    pure (.ok ⟨m, b.flags⟩)
  | .error e => pure (.error e)

/-- Finish a builder and compile its pattern. -/
def Builder.compile (b : Builder) : Logged (Except CompileError Compiled) := do
  let built ← b.build
  built.compile

end FluentPattern
