import FluentPattern.Dialect.Tree
import FluentPattern.Text.Blank
import FluentPattern.Text.CaseFold
import FluentPattern.Text.DecimalDigit

/-!
# Nodes

A pattern in the form in which it is matched: flags are spent, groups are
numbered, and quantities are broken down into a few kinds of repetition. A
haystack is an array of characters, and a position counts the characters before
it.

Main statements: `CharSet.contains_single`, `Marks.position?_andThen`.
-/

namespace FluentPattern

/-- The text that is searched. -/
abbrev Haystack :=
  Array Char

/-! ## Sets of characters -/

/-- Whether a character is of a named class. -/
def NamedClass.holds : NamedClass → Char → Bool
  | space, c => Text.isBlank c
  | notSpace, c => !Text.isBlank c
  | digit, c => Text.isDecimalDigit c

/-- Whether an item of a class holds a character. -/
def ClassItem.holds : ClassItem → Char → Bool
  | range first last, c => first ≤ c && c ≤ last
  | named n, c => n.holds c

/-- A set of characters. -/
structure CharSet where
  /-- What is in it. -/
  items : List ClassItem
  /-- Whether a character is in it as soon as one is that is the same up to case. -/
  folded : Bool
  /-- Whether it is the characters outside it that are meant; case comes first. -/
  negated : Bool
deriving DecidableEq

namespace CharSet

/-- Whether an item holds a character. -/
def lists (s : CharSet) (c : Char) : Bool :=
  s.items.any (·.holds c)

/-- Whether the set contains a character. -/
def contains (s : CharSet) (c : Char) : Bool :=
  (s.lists c || (s.folded && (Text.orbit c).any s.lists)) != s.negated

/-- The set of one character. -/
def single (c : Char) (folded : Bool) : CharSet :=
  ⟨[.range c c], folded, false⟩

/-- Every character but a line feed. -/
def notLineFeed : CharSet :=
  ⟨[.range '\n' '\n'], false, true⟩

/-- The set of one character, case not ignored, contains that character. -/
theorem contains_single (a c : Char) : (single a false).contains c = true ↔ c = a := by
  simp only [contains, single, lists, ClassItem.holds, List.any_cons, List.any_nil, Bool.or_false,
    Bool.false_and, bne_iff_ne, ne_eq, Bool.not_eq_false, Bool.and_eq_true, decide_eq_true_eq]
  exact ⟨fun h => Char.le_antisymm h.2 h.1, fun h => h ▸ ⟨Char.le_refl _, Char.le_refl _⟩⟩

end CharSet

/-! ## Anchors -/

/-- A condition on a position. -/
inductive Anchor where
  /-- The start of the haystack. -/
  | inputStart
  /-- The end of the haystack. -/
  | inputEnd
  /-- The start of the haystack, or behind a line feed. -/
  | lineStart
  /-- The end of the haystack, or before a line feed. -/
  | lineEnd
deriving DecidableEq

/-- Whether a position meets an anchor. -/
def Anchor.holds (h : Haystack) (position : Nat) : Anchor → Bool
  | inputStart => position == 0
  | inputEnd => position == h.size
  | lineStart => position == 0 || h[position - 1]? == some '\n'
  | lineEnd => position == h.size || h[position]? == some '\n'

/-! ## Nodes -/

/-- How a repetition goes on after its least number of iterations. -/
inductive Further where
  /-- With at most a number of iterations. -/
  | upTo (n : Nat)
  /-- With any number of iterations, none of them empty. -/
  | star
  /-- With one iteration, and if that is not empty any number of further ones, none of
  them empty. -/
  | plus
deriving DecidableEq

/-- A pattern as it is matched. -/
inductive Node where
  /-- Matches the empty text. -/
  | empty
  /-- Matches one character of a set. -/
  | char (s : CharSet)
  /-- Matches the empty text where an anchor holds. -/
  | anchor (a : Anchor)
  /-- One after the other. -/
  | seq (first second : Node)
  /-- The first, or else the second. -/
  | alt (first second : Node)
  /-- A numbered group. -/
  | capture (group : Nat) (body : Node)
  /-- Matches the empty text where the body matches, or where it does not. -/
  | look (negated : Bool) (body : Node)
  /-- Matches again what a group has matched. -/
  | groupAgain (group : Nat)
  /-- The body over and over: a least number of iterations, and then further ones, as
  many as possible or as few. -/
  | times (least : Nat) (further : Further) (greedy : Bool) (body : Node)

namespace Node

/-- The greatest number of a group in the node. -/
def topGroup : Node → Nat
  | empty | char _ | anchor _ | groupAgain _ => 0
  | seq first second | alt first second => max first.topGroup second.topGroup
  | capture group body => max group body.topGroup
  | look _ body | times _ _ _ body => body.topGroup

end Node

/-! ## Marks -/

/-- A side of a group. -/
inductive Side where
  | opening
  | closing
deriving DecidableEq

/-- The place where a side of a group was passed. -/
structure Mark where
  /-- The number of the group. -/
  group : Nat
  /-- The side that was passed. -/
  side : Side
  /-- The position. -/
  position : Nat
deriving DecidableEq

/-- The marks of a match, the latest one first. -/
abbrev Marks :=
  List Mark

namespace Marks

/-- The latest position of a side of a group. -/
def position? (marks : Marks) (group : Nat) (side : Side) : Option Nat :=
  (marks.find? fun m => m.group == group && m.side == side).map Mark.position

/-- The marks of two ways in a row: of each side of a group the later one. -/
def andThen (first second : Marks) : Marks :=
  second ++ first.filter fun m => (position? second m.group m.side).isNone

/-- The later way decides about the sides that it has passed, the earlier one about the
others. -/
theorem position?_andThen (first second : Marks) (group : Nat) (side : Side) :
    position? (first.andThen second) group side =
      (position? second group side).or (position? first group side) := by
  unfold andThen
  cases hs : position? second group side with
  | some q =>
    unfold position? at hs ⊢
    obtain ⟨m, hm, rfl⟩ := Option.map_eq_some_iff.1 hs
    simp [hm]
  | none =>
    have hn : second.find? (fun m => m.group == group && m.side == side) = none :=
      Option.map_eq_none_iff.1 hs
    unfold position?
    rw [List.find?_append, hn, Option.none_or, Option.none_or, List.find?_filter]
    congr 1
    refine congrArg (List.find? · first) (funext fun m => ?_)
    by_cases h : (m.group == group && m.side == side) = true
    · simp only [Bool.and_eq_true, beq_iff_eq] at h
      obtain ⟨rfl, rfl⟩ := h
      simpa using hn
    · simp [h]

/-- The bounds of what a group has matched last. -/
def span? (marks : Marks) (group : Nat) : Option (Nat × Nat) :=
  match position? marks group .opening, position? marks group .closing with
  | some start, some stop => if start ≤ stop then some (start, stop) else none
  | _, _ => none

end Marks

end FluentPattern
