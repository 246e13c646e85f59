import FluentPattern.Backreference
import FluentPattern.Segment
import FluentPattern.Text.Quoted

/-!
# The fragment in progress

The next unit of a pattern is put together call by call: a quantity, one
content, and whether it captures and repeats as little as possible. The bounds
take the last value given, the content the first one.

Main statements: `segment?_eq_none_iff`.
-/

namespace FluentPattern

/-- What a unit of a pattern matches. -/
inductive Content where
  /-- A text, already escaped. -/
  | text (literal : Text)
  /-- Any character but a line feed. -/
  | anyChar
  /-- One of the members of a class, already escaped. -/
  | oneOf (members : Text)
  /-- No member of a class, already escaped. -/
  | noneOf (members : Text)
  /-- What a group has matched before. -/
  | groupAgain (group : Nat)
  /-- A pattern, already written and renumbered. -/
  | pattern (literal : Text)
deriving DecidableEq

namespace Content

/-- The content as it is written in a pattern. -/
def literal : Content → Text
  | text t => t
  | anyChar => ['.']
  | oneOf members => '[' :: members ++ [']']
  | noneOf members => '[' :: '^' :: members ++ [']']
  | groupAgain group => '\\' :: Text.decimal group
  | pattern t => t

/-- Whether the content itself needs the extended engine. -/
def isExtended : Content → Bool
  | groupAgain _ => true
  | _ => false

/-- The content with the backreferences of an embedded pattern moved by `offset`. -/
def shift (offset : Nat) : Content → Content
  | pattern t => pattern (shiftReferences offset t)
  | c => c

@[simp] theorem shift_zero (c : Content) : c.shift 0 = c := by
  cases c <;> simp [shift]

/-- The content as messages name it. -/
def description : Content → Text
  | text t => "Text(".toList ++ t.quoted ++ [')']
  | anyChar => "AnyChar".toList
  | oneOf members => "Class(".toList ++ members.quoted ++ [')']
  | noneOf members => "NotClass(".toList ++ members.quoted ++ [')']
  | groupAgain group => "GroupRef(".toList ++ Text.decimal group ++ [')']
  | pattern t => "Like(".toList ++ t.quoted ++ [')']

end Content

/-- The unit of a pattern that is being put together. -/
structure Fragment where
  /-- The least number of repetitions, if given. -/
  min : Option Nat := none
  /-- The greatest number of repetitions, if given. -/
  max : Option Nat := none
  /-- What is repeated, if given. -/
  content : Option Content := none
  /-- Whether it repeats as little as possible. -/
  reluctant : Bool := false
  /-- Whether it captures what it matches. -/
  capture : Bool := false
deriving DecidableEq

namespace Fragment

/-- The fragment that nothing has been said about. -/
def empty : Fragment :=
  {}

/-- Whether a content is given. -/
def hasContent (f : Fragment) : Bool :=
  f.content.isSome

/-- Whether a bound is given. -/
def hasQuantity (f : Fragment) : Bool :=
  f.min.isSome || f.max.isSome

/-- Whether the fragment is exactly "any number of any characters". -/
def isOpenAnyRun (f : Fragment) : Bool :=
  f.min == some 0 && f.max.isNone && f.content == some .anyChar && !f.capture && !f.reluctant

/-- The fragment repeated exactly `n` times. -/
def setExact (f : Fragment) (n : Nat) : Fragment :=
  { f with min := some n, max := some n }

/-- The fragment repeated at least `n` times. -/
def setMin (f : Fragment) (n : Nat) : Fragment :=
  { f with min := some n }

/-- The fragment repeated at most `n` times. -/
def setMax (f : Fragment) (n : Nat) : Fragment :=
  { f with max := some n }

/-- The fragment with a content, unless it has one already. -/
def setContent (f : Fragment) (c : Content) : Fragment :=
  { f with content := f.content.or (some c) }

/-- The fragment repeated as little as possible. -/
def setReluctant (f : Fragment) : Fragment :=
  { f with reluctant := true }

/-- The fragment as a capturing group. -/
def setCapture (f : Fragment) : Fragment :=
  { f with capture := true }

/-- The fragment with the backreferences of its embedded pattern moved by `offset`. -/
def shiftGroups (f : Fragment) (offset : Nat) : Fragment :=
  { f with content := f.content.map (Content.shift offset) }

/-- The quantity as it is written in a pattern; nothing if no bound is given. -/
def quantity (f : Fragment) : Text :=
  match f.min, f.max with
  | some min, some max => '{' :: Text.decimal min ++ ',' :: Text.decimal max ++ ['}']
  | some min, none => '{' :: Text.decimal min ++ [',', '}']
  | none, some max => ['{', '0', ','] ++ Text.decimal max ++ ['}']
  | none, none => []

/-- The mark of a quantity that repeats as little as possible. -/
def reluctance (f : Fragment) : Text :=
  if f.reluctant && f.hasQuantity then ['?'] else []

/-- Whether the fragment is marked as reluctant and has nothing to repeat. -/
def reluctanceIsIdle (f : Fragment) : Bool :=
  f.reluctant && !f.hasQuantity

/-- The fragment as a segment, if it has content. -/
def segment? (f : Fragment) : Option Segment :=
  f.content.map fun c =>
    ⟨if f.capture then .capture else .group,
      [['(', '?', ':'] ++ c.literal ++ [')'] ++ f.quantity ++ f.reluctance]⟩

/-- A fragment becomes a segment if it has content. -/
theorem segment?_eq_none_iff (f : Fragment) : f.segment? = none ↔ f.content = none := by
  simp [segment?]

end Fragment

end FluentPattern
