import FluentPattern.Builder

/-!
# Vocabulary

Calls that are short for a few others: units with a usual quantity, and units
for line breaks, white space, tabs, digits and letters.
-/

namespace FluentPattern.Builder

open Logged (note)

/-! ## Units with a quantity -/

/-- At least one of some characters. -/
def someOf (b : Builder) (members : Text) : Logged Builder := do
  let b ← b.atLeast 1
  b.oneOf members

/-- Any number of some characters. -/
def maybeSomeOf (b : Builder) (members : Text) : Logged Builder := do
  let b ← b.atLeast 0
  b.oneOf members

/-- A text or nothing. -/
def maybe (b : Builder) (t : Text) : Logged Builder := do
  let b ← b.atMost 1
  b.text t

/-- At least one character. -/
def something (b : Builder) : Logged Builder := do
  let b ← b.atLeast 1
  b.anyChar

/-- Any number of characters. -/
def anything (b : Builder) : Logged Builder := do
  let b ← b.atLeast 0
  b.anyChar

/-- Exactly one character. -/
def any (b : Builder) : Logged Builder := do
  let b ← b.exactly 1
  b.anyChar

/-- Exactly one of a pattern. -/
def append (b other : Builder) : Logged Builder := do
  let b ← b.exactly 1
  b.like other

/-- A pattern or nothing. -/
def optional (b other : Builder) : Logged Builder := do
  let b ← b.atMost 1
  b.like other

/-- At least `least` characters, for `least` zero or one, that do not start with a
text. A text of one character is excluded by a class, a longer one by an assertion
before the run. -/
def runWithout (b : Builder) (least : Nat) (t : Text) : Logged Builder :=
  match t with
  | [] => do
    note (.nothingExcluded (least != 0))
    let b ← b.atLeast least
    b.anyChar
  | [c] => do
    let b ← b.atLeast least
    b.noneOf [c]
  | t => do
    let excluded ← empty.once t
    let b ← b.notAhead excluded
    let b ← b.atLeast least
    b.anyChar

/-- Any number of characters, without a text. -/
def anythingBut (b : Builder) (t : Text) : Logged Builder :=
  b.runWithout 0 t

/-- At least one character, without a text. -/
def somethingBut (b : Builder) (t : Text) : Logged Builder :=
  b.runWithout 1 t

/-! ## Units of their own -/

/-- A line break: `\r\n`, `\r` or `\n`. -/
def lineBreak (b : Builder) : Logged Builder :=
  b.addSegment ⟨.group, [['\\', 'r', '\\', 'n'], ['\\', 'r'], ['\\', 'n']]⟩

/-- A tab. -/
def tab (b : Builder) : Logged Builder :=
  b.addSegment (.group ['\\', 't'])

/-- An ASCII digit. -/
def digit (b : Builder) : Logged Builder :=
  b.addSegment (.group ['[', '0', '-', '9', ']'])

/-- Anything but an ASCII digit. -/
def notDigit (b : Builder) : Logged Builder :=
  b.addSegment (.group ['[', '^', '0', '-', '9', ']'])

/-- The content of a quantity that waits for one, else a unit of its own. -/
def unit (b : Builder) (literal : Text) : Logged Builder :=
  if b.pending.hasQuantity && !b.pending.hasContent then b.withContent (.pattern literal)
  else b.addSegment (.group literal)

/-- White space. -/
def space (b : Builder) : Logged Builder :=
  b.unit ['\\', 's']

/-- Anything but white space. -/
def notSpace (b : Builder) : Logged Builder :=
  b.unit ['\\', 'S']

/-! ## Contents for a quantity -/

/-- The content is line breaks. -/
def lineBreaks (b : Builder) : Logged Builder := do
  let other ← empty.lineBreak
  b.like other

/-- The content is white space. -/
def spaces (b : Builder) : Logged Builder := do
  let other ← empty.space
  b.like other

/-- The content is anything but white space. -/
def notSpaces (b : Builder) : Logged Builder := do
  let other ← empty.notSpace
  b.like other

/-- The content is tabs. -/
def tabs (b : Builder) : Logged Builder := do
  let other ← empty.tab
  b.like other

/-- The content is ASCII digits. -/
def digits (b : Builder) : Logged Builder := do
  let other ← empty.digit
  b.like other

/-- The content is anything but ASCII digits. -/
def notDigits (b : Builder) : Logged Builder := do
  let other ← empty.notDigit
  b.like other

/-- The content is ASCII letters. -/
def letters (b : Builder) : Logged Builder :=
  b.withContent (.oneOf "A-Za-z".toList)

/-- The content is anything but ASCII letters. -/
def notLetters (b : Builder) : Logged Builder :=
  b.withContent (.noneOf "A-Za-z".toList)

/-- The content is lower-case ASCII letters. -/
def lowerLetters (b : Builder) : Logged Builder :=
  b.withContent (.oneOf "a-z".toList)

/-- The content is upper-case ASCII letters. -/
def upperLetters (b : Builder) : Logged Builder :=
  b.withContent (.oneOf "A-Z".toList)

/-- Exactly one ASCII letter. -/
def letter (b : Builder) : Logged Builder := do
  let b ← b.exactly 1
  b.letters

/-- Exactly one character that is no ASCII letter. -/
def notLetter (b : Builder) : Logged Builder := do
  let b ← b.exactly 1
  b.notLetters

/-- Exactly one lower-case ASCII letter. -/
def lowerLetter (b : Builder) : Logged Builder := do
  let b ← b.exactly 1
  b.lowerLetters

/-- Exactly one upper-case ASCII letter. -/
def upperLetter (b : Builder) : Logged Builder := do
  let b ← b.exactly 1
  b.upperLetters

end FluentPattern.Builder
