import FluentPattern.Text

/-!
# Escaping text for a pattern

Text lands in two places of a pattern, outside and inside a character class,
and each place has its own special characters. Escaping writes one `\` before
each special character and leaves the others alone.

Main statement: `escape_append` (characters are escaped one by one).
-/

namespace FluentPattern.Text

/-- Whether a character carries meaning outside a character class. -/
def isSpecialOutside (c : Char) : Bool :=
  ['.', '*', '+', '?', '^', '=', '!', ':', '$', '{', '}', '(', ')', '|', '[', ']', '/', '\\'].contains c

/-- Whether a character carries meaning inside a character class, where `[`
would open a nested class and a doubled `&`, `-` or `~` would be an operator. -/
def isSpecialInside (c : Char) : Bool :=
  ['\\', ']', '[', '^', '-', '&', '~'].contains c

/-- One character with a `\` before it if it is special. -/
def escapeChar (special : Char → Bool) (c : Char) : Text :=
  if special c then ['\\', c] else [c]

/-- Every special character with a `\` before it. -/
def escape (special : Char → Bool) (t : Text) : Text :=
  t.flatMap (escapeChar special)

/-- Text as it is written outside a character class. -/
def escapeOutside (t : Text) : Text :=
  escape isSpecialOutside t

/-- Text as it is written for the members of a character class. -/
def escapeInside (t : Text) : Text :=
  escape isSpecialInside t

/-- The members of a class that is the range from `first` to `last`. -/
def rangeMembers (first last : Char) : Text :=
  escapeInside [first] ++ '-' :: escapeInside [last]

@[simp] theorem escape_nil (special : Char → Bool) : escape special [] = [] :=
  rfl

@[simp] theorem escape_cons (special : Char → Bool) (c : Char) (t : Text) :
    escape special (c :: t) = escapeChar special c ++ escape special t :=
  rfl

/-- Characters are escaped one by one. -/
theorem escape_append (special : Char → Bool) (s t : Text) :
    escape special (s ++ t) = escape special s ++ escape special t := by
  simp [escape]

/-- Only the empty text is written as nothing. -/
theorem escape_eq_nil_iff (special : Char → Bool) (t : Text) : escape special t = [] ↔ t = [] := by
  cases t with
  | nil => simp
  | cons c t => by_cases h : special c <;> simp [escapeChar, h]

end FluentPattern.Text
