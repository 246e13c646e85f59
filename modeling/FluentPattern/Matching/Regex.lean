import FluentPattern.Matching.Search

/-!
# Regexes

A compiled regex can be searched in four ways: for whether a text matches, for the first
match, for the groups of the first match, and for all matches in a row. Each of them is a
search of its own, so a regex is given by four functions, and that they tell of the same
matches is a law about them. The queries on a regex are written for every regex; a matcher
is one, with its own searches.

That a matcher obeys the laws is `Matcher.obeys`.
-/

namespace FluentPattern

/-- The searches of a compiled regex, where `ε` tells how a search fails. -/
structure Searches (ε : Type) where
  /-- The number of groups, the whole match included. -/
  groups : Nat
  /-- Whether a text has a match. -/
  isMatch : Text → Except ε Bool
  /-- Where the first match of a text is. -/
  find : Text → Except ε (Option Span)
  /-- Where the matches of a text are, one after the other, up to the first failure. -/
  findIter : Text → List (Except ε Span)
  /-- What each group has matched in the first match of a text. -/
  captures : Text → Except ε (Option (Nat → Option Span))

/-- The searches with their failures under other names. -/
def Searches.mapError {ε δ : Type} (f : ε → δ) (s : Searches ε) : Searches δ where
  groups := s.groups
  isMatch t := (s.isMatch t).mapError f
  find t := (s.find t).mapError f
  findIter t := (s.findIter t).map fun r => r.mapError f
  captures t := (s.captures t).mapError f

/-- A compiled regex of an engine. The basic engine never fails. -/
inductive Regex where
  /-- A regex of the basic engine. -/
  | basic (s : Searches Empty)
  /-- A regex of the extended engine. -/
  | extended (s : Searches Exhausted)

/-- The values of a list of results, or the first failure. -/
def collect {ε α : Type} : List (Except ε α) → Except ε (List α)
  | [] => .ok []
  | .error e :: _ => .error e
  | .ok a :: results =>
    match collect results with
    | .ok as => .ok (a :: as)
    | .error e => .error e

/-- The results that count: the first ones up to a limit, where zero is no limit. -/
def Matcher.limited {α : Type} (limit : Nat) (results : List α) : List α :=
  if limit = 0 then results else results.take limit

/-- Go through the results and write the text behind `out`, from the byte `last` on, with the
matches replaced; `index` matches came before. The result behind the last one that counts is still
fetched. Nothing is written if a part of the text that is copied is out of range. -/
def Matcher.replaceFrom (t : Text) (limit : Nat) (replacement : Text) (index last : Nat)
    (out : Text) : List (Except Exhausted Match) → Option (Except Exhausted Text)
  | [] => (t.slice? last t.byteLength).map fun rest => .ok (out ++ rest)
  | result :: results =>
    if limit ≠ 0 ∧ index = limit then
      (t.slice? last t.byteLength).map fun rest => .ok (out ++ rest)
    else
      match result with
      | .error e => some (.error e)
      | .ok m => do
        let kept ← t.slice? last m.start
        replaceFrom t limit replacement (index + 1) m.stop (out ++ kept ++ replacement) results

namespace Regex

/-- The searches of a regex, of either engine. -/
def searches : Regex → Searches Exhausted
  | basic s => s.mapError Empty.elim
  | extended s => s

/-- The number of groups, the whole match included. -/
def groups (r : Regex) : Nat :=
  r.searches.groups

/-- Whether the text has a match. -/
def isMatch (r : Regex) (t : Text) : Except Exhausted Bool :=
  r.searches.isMatch t

/-- The leftmost match, as it is reported. -/
def find (r : Regex) (t : Text) : Except Exhausted (Option Match) :=
  (r.searches.find t).map fun s => s.map (.ofSpan t)

/-- All matches, with a failure at the end if there is one. -/
def findEach (r : Regex) (t : Text) : List (Except Exhausted Match) :=
  (r.searches.findIter t).map fun s => s.map (.ofSpan t)

/-- What a group has matched in the leftmost match. -/
def group (r : Regex) (t : Text) (n : Nat) : Except Exhausted (Option Match) :=
  (r.searches.captures t).map fun g => (g.bind fun g => g n).map (.ofSpan t)

/-- The text with the first matches replaced, where a limit of zero replaces all. The
replacement is plain text. There is no answer if a part that is copied is out of range. -/
def replace? (r : Regex) (t : Text) (limit : Nat) (replacement : Text) :
    Option (Except Exhausted Text) :=
  Matcher.replaceFrom t limit replacement 0 0 [] (r.findEach t)

/-- The text with the first matches replaced; what is copied is in range if the matches are. -/
def replace (r : Regex) (t : Text) (limit : Nat) (replacement : Text) : Except Exhausted Text :=
  (r.replace? t limit replacement).getD (.ok t)

end Regex

/-! ## Matchers -/

/-- The searches by one way to find the leftmost match from a position on, once it is set on a
text. -/
def Searches.ofFind {ε σ : Type} (groups : Nat) (set : Text → σ)
    (find : σ → Nat → Except ε (Option Found)) : Searches ε where
  groups := groups
  isMatch t := (find (set t) 0).map Option.isSome
  find t := (find (set t) 0).map fun f => f.map Found.span
  findIter t := allMatches (find (set t)) t.length (t.length + 2) 0 none
  captures t := (find (set t) 0).map fun f => f.map Found.groupSpan?

namespace Matcher

/-- Whether two matchers were compiled from the same expression. -/
def isSame (m n : Matcher) : Bool :=
  m.expression == n.expression

/-- The regex of a matcher. What needs no backtracking is matched as the basic engine does it, also
in the extended one. -/
def regex (m : Matcher) : Regex :=
  if m.backtracks then .extended (.ofFind m.groups List.toArray m.node.find)
  else
    .basic (.ofFind m.groups (fun t => (t.length, m.node.table t.toArray))
      fun (size, table) start => .ok (table.find? size start))

/-- A matcher that does not backtrack has a regex of the basic engine. -/
theorem regex_of_not_backtracks {m : Matcher} (h : m.backtracks = false) :
    m.regex = .basic (.ofFind m.groups (fun t => (t.length, m.node.table t.toArray))
      fun (size, table) start => .ok (table.find? size start)) := by
  rw [regex, h]
  rfl

/-- A regex has the groups of its matcher. -/
@[simp] theorem groups_regex (m : Matcher) : m.regex.groups = m.groups := by
  unfold regex
  split <;> rfl

/-- Whether the text has a match. -/
def isMatch (m : Matcher) (t : Text) : Except Exhausted Bool :=
  m.regex.isMatch t

/-- The leftmost match, as it is reported. -/
def find (m : Matcher) (t : Text) : Except Exhausted (Option Match) :=
  m.regex.find t

/-- What a group has matched in the leftmost match. -/
def group (m : Matcher) (t : Text) (n : Nat) : Except Exhausted (Option Match) :=
  m.regex.group t n

/-- The spans of all matches, with a failure at the end if there is one. -/
def spans (m : Matcher) (t : Text) : List (Except Exhausted Span) :=
  m.regex.searches.findIter t

/-- All matches, with a failure at the end if there is one. -/
def findEach (m : Matcher) (t : Text) : List (Except Exhausted Match) :=
  m.regex.findEach t

/-- The text with the first matches replaced, where a limit of zero replaces all. There is no answer
if a part that is copied is out of range. -/
def replace? (m : Matcher) (t : Text) (limit : Nat) (replacement : Text) :
    Option (Except Exhausted Text) :=
  m.regex.replace? t limit replacement

/-- The text with the first matches replaced; what is copied is always in range. -/
def replace (m : Matcher) (t : Text) (limit : Nat) (replacement : Text) :
    Except Exhausted Text :=
  m.regex.replace t limit replacement

end Matcher

end FluentPattern
