import FluentPattern.Text.Printable

/-!
# Quoted text in messages

A message quotes a text between `"`. Inside, `\` and `"` have a `\` before
them, the common controls have their letters, and every other character
without a shape of its own is written by its code point.
-/

namespace FluentPattern.Text

/-- The code point of a character, as in `\u{e9}`. -/
def codePoint (c : Char) : Text :=
  ['\\', 'u', '{'] ++ Nat.toDigits 16 c.toNat ++ ['}']

/-- One character inside quotes. -/
def quoteChar (c : Char) : Text :=
  if c = '\\' || c = '"' then ['\\', c]
  else if c = '\n' then ['\\', 'n']
  else if c = '\r' then ['\\', 'r']
  else if c = '\t' then ['\\', 't']
  else if c.toNat = 0 then ['\\', '0']
  else if isPrintable c then [c]
  else codePoint c

/-- A text between quotes. -/
def quoted (t : Text) : Text :=
  '"' :: t.flatMap quoteChar ++ ['"']

end FluentPattern.Text
