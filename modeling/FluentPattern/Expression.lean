import FluentPattern.Text

/-!
# Expressions

The finished text of a pattern together with the engine that it is meant for.
The basic engine knows neither backreferences nor lookahead and takes time
linear in the pattern; the extended engine knows both and searches by
backtracking.
-/

namespace FluentPattern

/-- A matching engine. -/
inductive Engine where
  /-- No backreferences, no lookahead. -/
  | basic
  /-- Backreferences and lookahead, by backtracking. -/
  | extended
deriving DecidableEq

/-- The engine as messages name it. -/
def Engine.name : Engine → Text
  | basic => "basic".toList
  | extended => "fancy".toList

/-- The text of a pattern, labelled with an engine. -/
structure Expression where
  /-- The engine that the text is meant for. -/
  engine : Engine
  /-- The whole pattern, with its inline flags. -/
  text : Text
deriving DecidableEq

end FluentPattern
