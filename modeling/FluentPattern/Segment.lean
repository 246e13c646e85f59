import FluentPattern.Text

/-!
# Segments

A finished piece of a pattern: a group with an opening and alternatives, which
are joined only when the segment is written. So an alternative can be added to
a finished segment without reading its text again.

Main statements: `text_push`.
-/

namespace FluentPattern

/-- The kind of group that a segment is. -/
inductive Opening where
  /-- A group that captures nothing. -/
  | group
  /-- A group that captures what it matches. -/
  | capture
  /-- An assertion that the alternatives match here. -/
  | ahead
  /-- An assertion that none of the alternatives matches here. -/
  | notAhead
deriving DecidableEq

/-- The characters that open a group. -/
def Opening.text : Opening → Text
  | group => ['(', '?', ':']
  | capture => ['(']
  | ahead => ['(', '?', '=']
  | notAhead => ['(', '?', '!']

/-- A finished piece of a pattern. -/
structure Segment where
  /-- The kind of group. -/
  opening : Opening
  /-- What the group matches, the first choice first. -/
  alternatives : List Text
deriving DecidableEq

namespace Segment

/-- A group with one alternative that captures nothing. -/
def group (body : Text) : Segment :=
  ⟨.group, [body]⟩

/-- A group with one alternative that captures. -/
def capture (body : Text) : Segment :=
  ⟨.capture, [body]⟩

/-- The segment with one more alternative, tried last. -/
def push (s : Segment) (alternative : Text) : Segment :=
  { s with alternatives := s.alternatives ++ [alternative] }

/-- The segment as it is written in a pattern. -/
def text (s : Segment) : Text :=
  s.opening.text ++ ['|'].intercalate s.alternatives ++ [')']

/-- Joining one more text at the end adds a `|` and the text. -/
theorem intercalate_concat (sep last : Text) :
    ∀ ts : List Text, ts ≠ [] → sep.intercalate (ts ++ [last]) = sep.intercalate ts ++ sep ++ last
  | [], h => absurd rfl h
  | [t], _ => by simp [List.intercalate]
  | t :: u :: ts, _ => by
    have ih := intercalate_concat sep last (u :: ts) (by simp)
    simp only [List.intercalate, List.cons_append, List.intersperse_cons_cons, List.flatten_cons,
      List.append_assoc] at ih ⊢
    rw [ih]

/-- A new alternative is written before the closing parenthesis. -/
theorem text_push (s : Segment) (alternative : Text) (h : s.alternatives ≠ []) :
    (s.push alternative).text =
      s.opening.text ++ ['|'].intercalate s.alternatives ++ '|' :: alternative ++ [')'] := by
  unfold text push
  rw [intercalate_concat _ _ _ h]
  simp

end Segment

end FluentPattern
