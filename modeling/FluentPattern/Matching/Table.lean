import FluentPattern.Matching.Node
import Std.Data.HashSet

/-!
# Matching by tables

Without backreferences, what a node can match from a position depends on nothing
but the position. So a table holds, for each position of the haystack, where the
node can stop, in the order of preference, each stop once with the marks of its
most preferred way. Tables are put together like nodes, and every step takes time
polynomial in the length of the haystack.

Main statements: `row_ofFn`, `mem_stops_firsts`, `settle_eq_repeat`.
-/

namespace FluentPattern

/-- A way to match: where it stops and what it marks. -/
structure Outcome where
  /-- The position behind the match. -/
  stop : Nat
  /-- The marks made on the way, the latest one first. -/
  marks : Marks
deriving DecidableEq

/-- The ways to match from one position, the most preferred one first. -/
abbrev Row :=
  List Outcome

/-- One way after another. -/
def Outcome.andThen (first second : Outcome) : Outcome :=
  ⟨second.stop, first.marks.andThen second.marks⟩

/-- Of the ways that stop at the same position only the first one, and none that stops at
a position of `seen`. -/
def Row.firstsBeyond (seen : Std.HashSet Nat) : Row → Row
  | [] => []
  | o :: row =>
    if seen.contains o.stop then firstsBeyond seen row
    else o :: firstsBeyond (seen.insert o.stop) row

/-- Of the ways that stop at the same position only the first one. -/
def Row.firsts (row : Row) : Row :=
  row.firstsBeyond ∅

/-- What is kept are the stops that were not seen before. -/
theorem Row.mem_stops_firstsBeyond (n : Nat) (seen : Std.HashSet Nat) (row : Row) :
    n ∈ (row.firstsBeyond seen).map Outcome.stop ↔
      n ∈ row.map Outcome.stop ∧ seen.contains n = false := by
  induction row generalizing seen with
  | nil => simp [firstsBeyond]
  | cons o row ih =>
    unfold firstsBeyond
    by_cases hn : n = o.stop
    · subst hn
      by_cases hs : seen.contains o.stop = true <;> simp [hs, ih]
    · have ho : (o.stop == n) = false := by simpa using Ne.symm hn
      by_cases hs : seen.contains o.stop = true
      · simp only [hs, if_true, ih, List.map_cons, List.mem_cons, hn, false_or]
      · simp only [hs, if_false, List.map_cons, List.mem_cons, hn, false_or, ih,
          Std.HashSet.contains_insert, ho, Bool.false_or, Bool.false_eq_true]

/-- Dropping later ways to a stop loses no stop. -/
theorem Row.mem_stops_firsts (n : Nat) (row : Row) :
    n ∈ row.firsts.map Outcome.stop ↔ n ∈ row.map Outcome.stop := by
  simp [firsts, mem_stops_firstsBeyond]

/-- The rows of all positions of a haystack. -/
structure Table where
  /-- The rows, by position. -/
  rows : Array Row
deriving DecidableEq

namespace Table

/-- The row of a position. -/
def row (t : Table) (position : Nat) : Row :=
  t.rows.getD position []

/-- The table of a haystack of `size` characters whose rows `f` gives. -/
def ofFn (size : Nat) (f : Nat → Row) : Table :=
  ⟨Array.ofFn fun i : Fin (size + 1) => f i⟩

/-- The table has the rows that it was made from. -/
theorem row_ofFn {size position : Nat} (f : Nat → Row) (h : position ≤ size) :
    (ofFn size f).row position = f position := by
  simp [row, ofFn, Nat.lt_succ_of_le h]

/-- Matches the empty text everywhere. -/
def unit (size : Nat) : Table :=
  ofFn size fun p => [⟨p, []⟩]

/-- Matches nothing. -/
def none (size : Nat) : Table :=
  ofFn size fun _ => []

/-- Matches one character of a set. -/
def char (h : Haystack) (s : CharSet) : Table :=
  ofFn h.size fun p =>
    match h[p]? with
    | some c => if s.contains c then [⟨p + 1, []⟩] else []
    | Option.none => []

/-- Matches the empty text where an anchor holds. -/
def anchor (h : Haystack) (a : Anchor) : Table :=
  ofFn h.size fun p => if a.holds h p then [⟨p, []⟩] else []

/-- One after the other. -/
def seq (size : Nat) (first second : Table) : Table :=
  ofFn size fun p =>
    Row.firsts ((first.row p).flatMap fun o => (second.row o.stop).map o.andThen)

/-- The first, or else the second. -/
def alt (size : Nat) (first second : Table) : Table :=
  ofFn size fun p => Row.firsts (first.row p ++ second.row p)

/-- A numbered group. -/
def capture (size : Nat) (group : Nat) (body : Table) : Table :=
  ofFn size fun p => (body.row p).map fun o =>
    ⟨o.stop, ⟨group, .closing, o.stop⟩ :: o.marks ++ [⟨group, .opening, p⟩]⟩

/-- The empty text where the body matches, with the marks of the preferred way, or where
it does not match. -/
def look (size : Nat) (negated : Bool) (body : Table) : Table :=
  ofFn size fun p =>
    match body.row p, negated with
    | [], true => [⟨p, []⟩]
    | [], false => []
    | _ :: _, true => []
    | o :: _, false => [⟨p, o.marks⟩]

/-- A row or the empty text, the row first if it is preferred. -/
def orEmpty (greedy : Bool) (position : Nat) (row : Row) : Row :=
  Row.firsts (if greedy then row ++ [⟨position, []⟩] else ⟨position, []⟩ :: row)

/-- Change a table `n` times, and stop where nothing changes. -/
def settle (change : Table → Table) : Nat → Table → Table
  | 0, t => t
  | n + 1, t => if change t = t then t else settle change n (change t)

/-- What does not change at once never changes. -/
theorem repeat_eq_self {change : Table → Table} {t : Table} (h : change t = t) (n : Nat) :
    Nat.repeat change n t = t := by
  induction n with
  | zero => rfl
  | succ n ih => rw [Nat.repeat, ih, h]

/-- A change more at the start is a change more at the end. -/
theorem repeat_change (change : Table → Table) (n : Nat) (t : Table) :
    Nat.repeat change n (change t) = change (Nat.repeat change n t) := by
  induction n with
  | zero => rfl
  | succ n ih => rw [Nat.repeat, ih, Nat.repeat]

/-- Stopping early changes no result. -/
theorem settle_eq_repeat (change : Table → Table) (n : Nat) (t : Table) :
    settle change n t = Nat.repeat change n t := by
  induction n generalizing t with
  | zero => rfl
  | succ n ih =>
    unfold settle
    split
    · rename_i h
      rw [repeat_eq_self h]
    · rw [ih, repeat_change, Nat.repeat]

/-- A number of times in a row. -/
def copies (size : Nat) (body : Table) (n : Nat) : Table :=
  settle (seq size body) n (unit size)

/-- Once more and then what is there, or the empty text. -/
def oneMore (size : Nat) (greedy : Bool) (body more : Table) : Table :=
  let longer := seq size body more
  ofFn size fun p => orEmpty greedy p (longer.row p)

/-- At most a number of times in a row. -/
def upTo (size : Nat) (greedy : Bool) (body : Table) (n : Nat) : Table :=
  settle (oneMore size greedy body) n (unit size)

/-- The rows of the last `n` positions for any number of iterations, none of them empty.
An iteration that is not empty leads to a row that is there already. -/
def starRows (size : Nat) (greedy : Bool) (body : Table) : Nat → List Row
  | 0 => []
  | n + 1 =>
    let later := starRows size greedy body n
    let p := size - n
    let more := ((body.row p).filter (p < ·.stop)).flatMap fun o =>
      (later.getD (o.stop - p - 1) []).map o.andThen
    orEmpty greedy p (Row.firsts more) :: later

/-- Any number of times in a row, none of them empty. -/
def star (size : Nat) (greedy : Bool) (body : Table) : Table :=
  ⟨(starRows size greedy body (size + 1)).toArray⟩

/-- Once, and if that is not empty any number of further times, none of them empty. -/
def plus (size : Nat) (greedy : Bool) (body : Table) : Table :=
  let more := star size greedy body
  ofFn size fun p =>
    Row.firsts ((body.row p).flatMap fun o =>
      if o.stop = p then [o] else (more.row o.stop).map o.andThen)

/-- The further iterations of a repetition. -/
def further (size : Nat) (greedy : Bool) (body : Table) : Further → Table
  | .upTo n => upTo size greedy body n
  | .star => star size greedy body
  | .plus => plus size greedy body

/-- A least number of iterations, and then further ones. -/
def times (size least : Nat) (more : Further) (greedy : Bool) (body : Table) : Table :=
  seq size (copies size body least) (further size greedy body more)

end Table

/-- The table of a node. A backreference has no row, for it depends on more than the
position. -/
def Node.table (h : Haystack) : Node → Table
  | empty => .unit h.size
  | char s => .char h s
  | anchor a => .anchor h a
  | seq first second => .seq h.size (first.table h) (second.table h)
  | alt first second => .alt h.size (first.table h) (second.table h)
  | capture group body => .capture h.size group (body.table h)
  | look negated body => .look h.size negated (body.table h)
  | groupAgain _ => .none h.size
  | times least further greedy body => .times h.size least further greedy (body.table h)

end FluentPattern
