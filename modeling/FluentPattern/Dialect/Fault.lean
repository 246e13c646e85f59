import FluentPattern.Expression

/-!
# Faults of a pattern

Why an engine refuses a pattern. The two engines word the same fault in their own
ways, and the extended engine hands some parts of a pattern on, so that it does
not tell what is wrong with them.
-/

namespace FluentPattern

/-- Why an engine refuses a pattern. -/
inductive Fault where
  /-- A group is not closed. -/
  | unclosedGroup
  /-- A parenthesis closes no group. -/
  | unopenedGroup
  /-- A class is not closed. -/
  | unclosedClass
  /-- A quantity has nothing to repeat. -/
  | nothingToRepeat
  /-- The bounds of a quantity are in the wrong order. -/
  | boundsReversed
  /-- A bound of a quantity is too large. -/
  | boundTooLarge
  /-- A quantity in braces is malformed. -/
  | malformedBounds
  /-- The bounds of a range of characters are in the wrong order. -/
  | rangeReversed
  /-- A range of characters is bounded by a class. -/
  | rangeOfClass
  /-- A class holds a class or an operator on classes. -/
  | classOperator
  /-- A `\` is followed by a character that it gives no meaning to. -/
  | unknownEscape
  /-- A `\` ends the pattern. -/
  | loneBackslash
  /-- A group opens in an unknown way. -/
  | unknownGroup
  /-- The engine has no backreferences. -/
  | noBackreferences
  /-- The engine has no lookahead. -/
  | noLookahead
  /-- A backreference names a group that does not open before it. -/
  | noSuchGroup
  /-- The pattern is nested too deeply. -/
  | tooDeep
  /-- The pattern unrolls to too many states. -/
  | tooLarge
deriving DecidableEq

namespace Fault

/-- The fault as the basic engine words it. -/
def basicMessage : Fault → String
  | unclosedGroup => "unclosed group"
  | unopenedGroup => "unopened group"
  | unclosedClass => "unclosed character class"
  | nothingToRepeat => "repetition operator missing expression"
  | boundsReversed => "invalid repetition count range, the start must be <= the end"
  | boundTooLarge => "decimal literal invalid"
  | malformedBounds => "repetition quantifier expects a valid decimal"
  | rangeReversed => "invalid character class range, the start must be <= the end"
  | rangeOfClass => "invalid range boundary, must be a literal"
  | classOperator => "operators on character classes are not supported"
  | unknownEscape => "unrecognized escape sequence"
  | loneBackslash => "incomplete escape sequence, reached end of pattern prematurely"
  | unknownGroup => "unrecognized flag"
  | noBackreferences => "backreferences are not supported"
  | noLookahead => "look-around, including look-ahead and look-behind, is not supported"
  | noSuchGroup => "backreferences are not supported"
  | tooDeep => "exceed the maximum number of nested parentheses/brackets (250)"
  | tooLarge => "Compiled regex exceeds size limit of 10485760 bytes."

/-- The fault as the extended engine words it. -/
def extendedMessage : Fault → String
  | unclosedGroup => "Opening parenthesis without closing parenthesis"
  | unopenedGroup => "end of string not reached"
  | unclosedClass => "Invalid character class"
  | nothingToRepeat => "Target of repeat operator is invalid"
  | loneBackslash => "Backslash without following character"
  | unknownGroup => "Unknown group flag"
  | noSuchGroup => "Invalid back reference"
  | tooDeep => "Pattern too deeply nested"
  | tooLarge => "error building NFA"
  | _ => "error parsing pattern 0"

/-- The fault as an engine words it. -/
def message (engine : Engine) : Fault → String :=
  match engine with
  | .basic => basicMessage
  | .extended => extendedMessage

end Fault

end FluentPattern
