import FluentPattern.Matching.Matcher

/-!
# Matches of a text

A match is a part of a text, and it is reported by the bytes before it and up to its
end. All matches are found one after the other: after a match the search goes on at
its end; an empty match right at the end of the one before is passed over, and after
an empty match the search goes on one character later.

That the search for all matches runs to its end is stated with the laws of the engines, in
`Matcher.iterates_spans`.
-/

namespace FluentPattern

/-- A part of a text, by positions. -/
structure Span where
  /-- The position before its first character. -/
  start : Nat
  /-- The position behind its last character. -/
  stop : Nat
deriving DecidableEq

/-- A match as it is reported. -/
structure Match where
  /-- The number of bytes before it. -/
  start : Nat
  /-- The number of bytes up to its end. -/
  stop : Nat
  /-- What it matches. -/
  text : Text
deriving DecidableEq

namespace Match

/-- The match at a part of a text. -/
def ofSpan (t : Text) (s : Span) : Match :=
  ⟨Text.byteLength (t.take s.start), Text.byteLength (t.take s.stop),
    (t.take s.stop).drop s.start⟩

/-- The number of bytes of the match. -/
def length (m : Match) : Nat :=
  m.stop - m.start

/-- Whether the match is empty. -/
def isEmpty (m : Match) : Bool :=
  m.start == m.stop

end Match

/-- The span of a match. -/
def Found.span (f : Found) : Span :=
  ⟨f.start, f.stop⟩

/-- The span of a group of a match; group zero is the whole match. -/
def Found.groupSpan? (f : Found) (group : Nat) : Option Span :=
  if group = 0 then some f.span
  else (f.marks.span? group).map fun (start, stop) => ⟨start, stop⟩

/-- The matches from a position on, where `previous` is the end of the match before. Each search
starts after the one before, so `fuel` searches are enough if no more positions are left. A failure
is the last item. That the search stops there is an assumption: what an engine gives behind a
failure is not known, and neither finding nor replacing goes on behind one. -/
def allMatches {ε : Type} (find : Nat → Except ε (Option Found)) (size : Nat) :
    Nat → Nat → Option Nat → List (Except ε Span)
  | 0, _, _ => []
  | fuel + 1, start, previous =>
    if size < start then []
    else
      match find start with
      | .error e => [.error e]
      | .ok none => []
      | .ok (some f) =>
        if f.start = f.stop then
          if previous = some f.stop then allMatches find size fuel (f.stop + 1) previous
          else .ok f.span :: allMatches find size fuel (f.stop + 1) (some f.stop)
        else .ok f.span :: allMatches find size fuel f.stop (some f.stop)

end FluentPattern
