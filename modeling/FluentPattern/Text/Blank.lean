import FluentPattern.Text

/-!
# White space

The characters of the standard's property `White_Space`.
-/

namespace FluentPattern.Text

/-- The code points of white space. -/
def blanks : List (Nat × Nat) :=
  [(0x9, 0xd), (0x20, 0x20), (0x85, 0x85), (0xa0, 0xa0), (0x1680, 0x1680), (0x2000, 0x200a),
    (0x2028, 0x2029), (0x202f, 0x202f), (0x205f, 0x205f), (0x3000, 0x3000)]

/-- Whether a character is white space. -/
def isBlank (c : Char) : Bool :=
  inRanges blanks c.toNat

/-- The ASCII white space is among it. -/
theorem isBlank_of_isWhitespace {c : Char} (h : c.isWhitespace = true) : isBlank c = true := by
  simp only [Char.isWhitespace, Bool.or_eq_true, decide_eq_true_eq] at h
  rcases h with ((h | h) | h) | h <;> subst h <;> decide

/-- Twenty-five characters are white space. -/
example : blanks.foldl (fun n r => n + (r.2 + 1 - r.1)) 0 = 25 := by
  decide

end FluentPattern.Text
