import FluentPattern.Text

/-!
# Backreferences in a pattern

A pattern that is spliced into another one has its groups numbered after those
of its host, so every backreference `\N` in it moves by the same offset. The
pattern is read from the left as lexemes: in `\\1` the first `\` takes the
second one, and the digit is plain.

Main statements: `text_lexemes` (the lexemes of a text spell the text),
`shiftReferences_zero`.
-/

namespace FluentPattern

/-- One unit of a pattern, read from the left. -/
inductive Lexeme where
  /-- A character that no `\` stands before. -/
  | plain (c : Char)
  /-- A `\` and the character after it, which is no digit. -/
  | pair (c : Char)
  /-- A `\` that ends the text. -/
  | loneBackslash
  /-- A `\` and the whole run of digits after it. -/
  | reference (digits : Text)
deriving DecidableEq

namespace Lexeme

/-- The characters of a lexeme. -/
def text : Lexeme → Text
  | plain c => [c]
  | pair c => ['\\', c]
  | loneBackslash => ['\\']
  | reference digits => '\\' :: digits

/-- Whether a lexeme is a backreference. -/
def isReference : Lexeme → Bool
  | reference _ => true
  | _ => false

/-- The largest group number that is read as a number; a longer one is left as written. -/
def largestGroup : Nat :=
  UInt64.size - 1

/-- A backreference moved by `offset`; every other lexeme as it is. The sum is taken in the natural
numbers. Where it does not fit in 64 bits, a sum of fixed width overflows, and what is proved of the
moved number does not speak of that. -/
def shift (offset : Nat) : Lexeme → Lexeme
  | reference digits =>
    if digits.readDecimal ≤ largestGroup then reference (Text.decimal (digits.readDecimal + offset))
    else reference digits
  | l => l

end Lexeme

/-- The lexemes of a text. -/
def lexemes : Text → List Lexeme
  | [] => []
  | '\\' :: [] => [.loneBackslash]
  | '\\' :: c :: rest =>
    if c.isDigit then .reference (c :: Text.digits rest) :: lexemes (Text.afterDigits rest)
    else .pair c :: lexemes rest
  | c :: rest => .plain c :: lexemes rest
termination_by t => t.length
decreasing_by
  · have := Text.length_afterDigits_le rest
    simp only [List.length_cons]
    omega
  · simp only [List.length_cons]
    omega
  · simp only [List.length_cons]
    omega

/-- The lexemes of a text spell the text. -/
theorem text_lexemes (t : Text) : (lexemes t).flatMap Lexeme.text = t := by
  fun_induction lexemes t with
  | case1 => rfl
  | case2 => rfl
  | case3 c rest hc ih =>
    simp only [List.flatMap_cons, Lexeme.text, ih]
    simp [Text.digits_append_afterDigits]
  | case4 c rest hc ih => simp [Lexeme.text, ih]
  | case5 c rest h1 h2 ih => simp [Lexeme.text, ih]

/-- Every backreference of a pattern moved by `offset`. -/
def shiftReferences (offset : Nat) (t : Text) : Text :=
  if offset = 0 then t else (lexemes t).flatMap fun l => (l.shift offset).text

/-- The number of backreferences of a pattern. -/
def countReferences (t : Text) : Nat :=
  (lexemes t).countP Lexeme.isReference

/-- Moving by nothing changes nothing, leading zeros included. -/
@[simp] theorem shiftReferences_zero (t : Text) : shiftReferences 0 t = t :=
  rfl

end FluentPattern
