import FluentPattern.Text

/-!
# Flags

A set of the three flags of a pattern: `i` ignores case, `m` lets `^` and `$`
match at lines, and `g` finds every match instead of the first one. The first
two can be written inside a pattern; `g` stays with the compiled pattern.

Main statements: `contains_insert`, `insert_insert`.
-/

namespace FluentPattern

/-- A flag of a pattern. -/
inductive Flag where
  /-- Letters match in either case. -/
  | ignoreCase
  /-- `^` and `$` match at the ends of lines. -/
  | multiLine
  /-- Every match is found and replaced. -/
  | everyMatch
deriving DecidableEq

namespace Flag

/-- The flags in their canonical order. -/
def all : List Flag :=
  [ignoreCase, multiLine, everyMatch]

/-- The letter of a flag. -/
def letter : Flag → Char
  | ignoreCase => 'i'
  | multiLine => 'm'
  | everyMatch => 'g'

/-- The flag of a letter. -/
def ofLetter? (c : Char) : Option Flag :=
  all.find? (·.letter == c)

/-- The flag that a text names: exactly its letter. -/
def ofText? : Text → Option Flag
  | [c] => ofLetter? c
  | _ => none

/-- Whether a flag can be written inside a pattern. -/
def isInline : Flag → Bool
  | everyMatch => false
  | _ => true

/-- The letter of a flag names the flag. -/
theorem ofLetter?_letter (f : Flag) : ofLetter? f.letter = some f := by
  cases f <;> rfl

end Flag

/-- A set of flags. -/
structure Flags where
  /-- Whether `i` is in the set. -/
  ignoreCase : Bool := false
  /-- Whether `m` is in the set. -/
  multiLine : Bool := false
  /-- Whether `g` is in the set. -/
  everyMatch : Bool := false
deriving DecidableEq

namespace Flags

/-- The set without flags. -/
def empty : Flags :=
  {}

/-- Whether a flag is in the set. -/
def contains (s : Flags) : Flag → Bool
  | .ignoreCase => s.ignoreCase
  | .multiLine => s.multiLine
  | .everyMatch => s.everyMatch

/-- The set with one more flag. -/
def insert (s : Flags) : Flag → Flags
  | .ignoreCase => { s with ignoreCase := true }
  | .multiLine => { s with multiLine := true }
  | .everyMatch => { s with everyMatch := true }

/-- The flags of either set. -/
def union (s t : Flags) : Flags :=
  ⟨s.ignoreCase || t.ignoreCase, s.multiLine || t.multiLine, s.everyMatch || t.everyMatch⟩

/-- The set of the flags of a list. -/
def ofList (fs : List Flag) : Flags :=
  fs.foldl insert empty

/-- The flags of the set in their canonical order. -/
def toList (s : Flags) : List Flag :=
  Flag.all.filter s.contains

/-- Whether the set holds no flag. -/
def isEmpty (s : Flags) : Bool :=
  s.toList.isEmpty

/-- The letters of the set, as in `img`. -/
def code (s : Flags) : Text :=
  s.toList.map Flag.letter

/-- The letters of the flags that can be written inside a pattern, as in `im`. -/
def inlineCode (s : Flags) : Text :=
  (s.toList.filter Flag.isInline).map Flag.letter

/-- The group that sets the flags for the rest of a pattern, as in `(?im)`; nothing
if no flag can be written inside. -/
def inlineGroup (s : Flags) : Text :=
  if s.inlineCode.isEmpty then [] else ['(', '?'] ++ s.inlineCode ++ [')']

instance : ToString Flags where
  toString s := String.ofList s.code

/-- A set holds a flag after an insertion if it is the new one or was there before. -/
theorem contains_insert (s : Flags) (f g : Flag) :
    (s.insert f).contains g = (f == g || s.contains g) := by
  cases f <;> cases g <;> rfl

/-- A second insertion of a flag changes nothing. -/
theorem insert_insert (s : Flags) (f : Flag) : (s.insert f).insert f = s.insert f := by
  cases f <;> rfl

/-- Two sets with the same flags are the same. -/
theorem eq_of_contains {s t : Flags} (h : ∀ f, s.contains f = t.contains f) : s = t := by
  obtain ⟨i, m, g⟩ := s
  obtain ⟨i', m', g'⟩ := t
  have hi := h .ignoreCase
  have hm := h .multiLine
  have hg := h .everyMatch
  simp only [contains] at hi hm hg
  rw [hi, hm, hg]

end Flags

end FluentPattern
