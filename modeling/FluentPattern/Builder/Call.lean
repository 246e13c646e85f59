import FluentPattern.Builder.Vocabulary

/-!
# Calls as data

A pattern is described by the calls that build it, and the calls that take a
pattern hold its calls in turn. The words of the calls are sorted by what they
take.

Main statements: `Call.value_applyAll_append`.
-/

namespace FluentPattern

/-- The calls without an argument. -/
inductive Word where
  | ignoreCase | multiLine | everyMatch
  | inputStart | lineStart | inputEnd | lineEnd
  | anyChar | reluctantly | captured
  | something | anything | any
  | lineBreak | lineBreaks
  | space | notSpace | spaces | notSpaces
  | tab | tabs
  | digit | notDigit | digits | notDigits
  | letter | notLetter | letters | notLetters
  | lowerLetter | lowerLetters | upperLetter | upperLetters
deriving DecidableEq

/-- The calls that take a text. -/
inductive TextWord where
  | text | oneOf | noneOf | once | someOf | maybeSomeOf | maybe | anythingBut | somethingBut
deriving DecidableEq

/-- The calls that take a number. -/
inductive CountWord where
  | exactly | atLeast | atMost | groupAgain
deriving DecidableEq

/-- The calls that take a pattern. -/
inductive PatternWord where
  | like | ahead | notAhead | append | optional
deriving DecidableEq

/-- The calls that take an operand. -/
inductive OperandWord where
  | either | or | neither | nor
deriving DecidableEq

/-- A call on a builder. -/
inductive Call where
  /-- A call without an argument. -/
  | word (w : Word)
  /-- A call that takes a text. -/
  | text (w : TextWord) (t : Text)
  /-- A call that takes a number. -/
  | count (w : CountWord) (n : Nat)
  /-- A range of characters, or all characters outside it. -/
  | range (negated : Bool) (first last : Char)
  /-- A flag. -/
  | flag (f : Flag)
  /-- A call that takes a pattern, given by its calls. -/
  | pattern (w : PatternWord) (calls : List Call)
  /-- A call that takes an operand, with a text. -/
  | textOperand (w : OperandWord) (t : Text)
  /-- A call that takes an operand, with a pattern given by its calls. -/
  | patternOperand (w : OperandWord) (calls : List Call)

/-- Make a call without an argument. -/
def Word.apply (b : Builder) : Word → Logged Builder
  | ignoreCase => pure (b.withFlag .ignoreCase)
  | multiLine => pure (b.withFlag .multiLine)
  | everyMatch => pure (b.withFlag .everyMatch)
  | inputStart => b.inputStart
  | lineStart => b.lineStart
  | inputEnd => b.inputEnd
  | lineEnd => b.lineEnd
  | anyChar => b.anyChar
  | reluctantly => pure b.reluctantly
  | captured => pure b.captured
  | something => b.something
  | anything => b.anything
  | any => b.any
  | lineBreak => b.lineBreak
  | lineBreaks => b.lineBreaks
  | space => b.space
  | notSpace => b.notSpace
  | spaces => b.spaces
  | notSpaces => b.notSpaces
  | tab => b.tab
  | tabs => b.tabs
  | digit => b.digit
  | notDigit => b.notDigit
  | digits => b.digits
  | notDigits => b.notDigits
  | letter => b.letter
  | notLetter => b.notLetter
  | letters => b.letters
  | notLetters => b.notLetters
  | lowerLetter => b.lowerLetter
  | lowerLetters => b.lowerLetters
  | upperLetter => b.upperLetter
  | upperLetters => b.upperLetters

/-- Make a call that takes a text. -/
def TextWord.apply (b : Builder) (t : Text) : TextWord → Logged Builder
  | text => b.text t
  | oneOf => b.oneOf t
  | noneOf => b.noneOf t
  | once => b.once t
  | someOf => b.someOf t
  | maybeSomeOf => b.maybeSomeOf t
  | maybe => b.maybe t
  | anythingBut => b.anythingBut t
  | somethingBut => b.somethingBut t

/-- Make a call that takes a number. -/
def CountWord.apply (b : Builder) (n : Nat) : CountWord → Logged Builder
  | exactly => b.exactly n
  | atLeast => b.atLeast n
  | atMost => b.atMost n
  | groupAgain => b.groupAgain n

/-- Make a call that takes a pattern. -/
def PatternWord.apply (b other : Builder) : PatternWord → Logged Builder
  | like => b.like other
  | ahead => b.ahead other
  | notAhead => b.notAhead other
  | append => b.append other
  | optional => b.optional other

/-- Make a call that takes an operand. -/
def OperandWord.apply (b : Builder) (operand : Operand) : OperandWord → Logged Builder
  | either => b.either operand
  | or => b.or operand
  | neither => b.neither operand
  | nor => b.nor operand

mutual

/-- Make a call; a pattern that it takes is built just before. -/
def Call.apply (b : Builder) : Call → Logged Builder
  | .word w => w.apply b
  | .text w t => w.apply b t
  | .count w n => w.apply b n
  | .range false first last => b.oneOfRange first last
  | .range true first last => b.noneOfRange first last
  | .flag f => pure (b.withFlag f)
  | .pattern w calls => do
    let other ← Call.applyAll .empty calls
    w.apply b other
  | .textOperand w t => w.apply b (.text t)
  | .patternOperand w calls => do
    let other ← Call.applyAll .empty calls
    w.apply b (.pattern other)

/-- Make calls in order. -/
def Call.applyAll (b : Builder) : List Call → Logged Builder
  | [] => pure b
  | c :: calls => do
    let b ← c.apply b
    Call.applyAll b calls

end

namespace Call

/-- The builder that calls on an empty builder give. -/
def builder (calls : List Call) : Builder :=
  (applyAll .empty calls).value

/-- The pattern that calls on an empty builder give. -/
def build (calls : List Call) : Logged Built := do
  let b ← applyAll .empty calls
  b.build

/-- The builders along a list of calls, from the starting one on. -/
def states (b : Builder) : List Call → List Builder
  | [] => [b]
  | c :: calls => b :: states (c.apply b).value calls

/-- More calls go on from the builder that the first ones give. -/
theorem value_applyAll_append (b : Builder) (first second : List Call) :
    (applyAll b (first ++ second)).value =
      (applyAll (applyAll b first).value second).value := by
  induction first generalizing b with
  | nil => simp [applyAll]
  | cons c first ih => simp [applyAll, ih]

end Call

end FluentPattern
