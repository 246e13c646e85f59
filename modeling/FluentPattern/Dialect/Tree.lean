import FluentPattern.Flags

/-!
# Patterns as trees

The dialect that both engines read: characters, classes, anchors, groups with
alternatives, quantities, backreferences, and groups that set flags. A tree
keeps what is written and decides nothing about it: bounds may be in the wrong
order, and a backreference may name a group that does not exist.
-/

namespace FluentPattern

/-- A named class of characters. -/
inductive NamedClass where
  /-- White space. -/
  | space
  /-- Anything but white space. -/
  | notSpace
  /-- A decimal digit of any script. -/
  | digit
deriving DecidableEq

/-- An item of a class in brackets. -/
inductive ClassItem where
  /-- The characters from one to another; a single character is the range to itself. -/
  | range (first last : Char)
  /-- A named class. -/
  | named (c : NamedClass)
deriving DecidableEq

/-- A class in brackets. -/
structure BracketClass where
  /-- Whether it holds the characters outside its items. -/
  negated : Bool
  /-- The items. -/
  items : List ClassItem
deriving DecidableEq

/-- A piece of a pattern without pieces of its own. -/
inductive Atom where
  /-- A character. -/
  | char (c : Char)
  /-- Any character but a line feed, `.`. -/
  | any
  /-- The start of the input or of a line, `^`. -/
  | start
  /-- The end of the input or of a line, `$`. -/
  | stop
  /-- A class in brackets. -/
  | bracket (c : BracketClass)
  /-- A named class. -/
  | named (c : NamedClass)
  /-- What a group has matched. -/
  | groupAgain (group : Nat)
deriving DecidableEq

/-- The kind of a group. -/
inductive GroupKind where
  /-- It captures what it matches. -/
  | capture
  /-- It only holds together. -/
  | plain
  /-- It sets flags inside. -/
  | flagged (flags : Flags)
  /-- It asserts that it matches here. -/
  | ahead
  /-- It asserts that it does not match here. -/
  | notAhead
deriving DecidableEq

/-- How often a piece is repeated. -/
structure Quantity where
  /-- The least number of repetitions. -/
  least : Nat
  /-- The greatest number of repetitions, if there is one. -/
  most : Option Nat
  /-- Whether it repeats as often as possible. -/
  greedy : Bool
deriving DecidableEq

/-- A piece of a pattern. -/
inductive Piece where
  /-- A piece without pieces of its own. -/
  | atom (a : Atom)
  /-- Flags for the rest of the enclosing group. -/
  | flags (flags : Flags)
  /-- A group of branches. -/
  | group (kind : GroupKind) (branches : List (List Piece))
  /-- A repeated piece. -/
  | repeated (quantity : Quantity) (piece : Piece)

/-- The pieces of a pattern one after the other. -/
abbrev Branch :=
  List Piece

/-- The branches of a pattern, the first choice first. -/
abbrev Branches :=
  List Branch

end FluentPattern
