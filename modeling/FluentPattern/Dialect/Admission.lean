import FluentPattern.Dialect.Reading

/-!
# What each engine admits

The basic engine refuses backreferences and lookahead as it reads, and then
patterns that nest too deeply or unroll to too many states. The extended engine
refuses quantities on pieces that consume nothing by their form, and then
backreferences to groups that do not open before them.

Main statements: `basic_refuse_groupAgain`.
-/

namespace FluentPattern

/-! ## Bounds and ranges -/

/-- The largest bound of a quantity. -/
def Quantity.largestBound : Nat :=
  UInt32.size - 1

/-- Whether a bound is larger than any engine takes. -/
def Quantity.isTooLarge (q : Quantity) : Bool :=
  q.least > largestBound || q.most.any (· > largestBound)

/-- Whether the bounds are in the wrong order. -/
def Quantity.isReversed (q : Quantity) : Bool :=
  q.most.any (· < q.least)

/-- Whether the bounds of a range are in the wrong order. -/
def ClassItem.isReversed : ClassItem → Bool
  | range first last => last < first
  | named _ => false

/-- Whether a class has a range in the wrong order. -/
def Atom.hasReversedRange : Atom → Bool
  | bracket c => c.items.any ClassItem.isReversed
  | _ => false

/-! ## Size of a pattern -/

mutual

/-- How deep a piece nests, where a row of pieces, a choice of branches and a row of
class items count as levels. -/
def Piece.depth : Piece → Nat
  | .atom (.bracket c) => if c.items.length ≤ 1 then 1 else 2
  | .atom _ => 0
  | .flags _ => 0
  | .group _ branches => 1 + Branches.depth branches
  | .repeated _ p => 1 + p.depth

/-- The greatest depth of some pieces. -/
def Branch.deepest : Branch → Nat
  | [] => 0
  | p :: pieces => max p.depth (Branch.deepest pieces)

/-- The greatest depth of some branches. -/
def Branches.deepest : Branches → Nat
  | [] => 0
  | b :: branches =>
    max (Branch.deepest b + if b.length ≤ 1 then 0 else 1) (Branches.deepest branches)

/-- How deep the branches of a group nest. -/
def Branches.depth : Branches → Nat
  | [] => 0
  | b :: branches =>
    max (Branch.deepest b + if b.length ≤ 1 then 0 else 1) (Branches.deepest branches) +
      if branches.isEmpty then 0 else 1

end

/-- How many states an atom needs; an anchor needs none of its own. -/
def Atom.weight : Atom → Nat
  | start | stop => 0
  | _ => 1

mutual

/-- How many states a piece unrolls to. -/
def Piece.weight : Piece → Nat
  | .atom a => a.weight
  | .flags _ => 0
  | .group _ branches => Branches.weight branches
  | .repeated q p => q.most.getD (max q.least 1) * p.weight

/-- How many states a row of pieces unrolls to. -/
def Branch.weight : Branch → Nat
  | [] => 0
  | p :: pieces => p.weight + Branch.weight pieces

/-- How many states some branches unroll to. -/
def Branches.weight : Branches → Nat
  | [] => 0
  | b :: branches => Branch.weight b + Branches.weight branches

end

/-! ## The basic engine -/

/-- What the basic engine refuses as it reads. -/
def Rules.basic : Rules where
  refuse depth before t :=
    match grammar.refuse depth before t with
    | some f => some f
    | none =>
      match t with
      | .atom (.groupAgain _) => some .noBackreferences
      | .opening .ahead | .opening .notAhead => some .noLookahead
      | .atom a => if a.hasReversedRange then some .rangeReversed else none
      | .quantity q =>
        if q.isTooLarge then some .boundTooLarge
        else if q.isReversed then some .boundsReversed
        else none
      | _ => none

/-- The deepest nesting of the basic engine. -/
def basicDepth : Nat :=
  250

/-- The most states of the basic engine. -/
def basicWeight : Nat :=
  1 <<< 18

/-- The pattern as the basic engine admits it. -/
def readBasic (t : Text) : Except Fault Branches := do
  let branches ← readPattern .basic t
  if Branches.depth branches > basicDepth then .error .tooDeep
  else if Branches.weight branches > basicWeight then .error .tooLarge
  else .ok branches

/-! ## The extended engine -/

mutual

/-- Whether a piece says nothing, so that it is left out of a row. -/
def Piece.isBlank : Piece → Bool
  | .flags _ => true
  | .group .plain branches => Branches.isBlank branches
  | .group (.flagged _) branches => Branches.isBlank branches
  | _ => false

/-- Whether all pieces of a row say nothing. -/
def Branch.isBlank : Branch → Bool
  | [] => true
  | p :: pieces => p.isBlank && Branch.isBlank pieces

/-- Whether there is one branch and it says nothing. -/
def Branches.isBlank : Branches → Bool
  | [] => true
  | [b] => Branch.isBlank b
  | _ => false

end

mutual

/-- Whether a piece may be repeated: not if it is nothing but one anchor or one
lookahead, however many groups that do not capture stand around it. -/
def Piece.isRepeatable : Piece → Bool
  | .atom .start => false
  | .atom .stop => false
  | .atom _ => true
  | .flags _ => false
  | .group .capture _ => true
  | .group .plain branches => Branches.isRepeatable branches
  | .group (.flagged _) branches => Branches.isRepeatable branches
  | .group .ahead _ => false
  | .group .notAhead _ => false
  | .repeated _ _ => true

/-- Whether a row of pieces may be repeated: it says something, and not only by one
piece that may not be repeated. -/
def Branch.isRepeatable : Branch → Bool
  | [] => false
  | p :: pieces =>
    if p.isBlank then Branch.isRepeatable pieces
    else p.isRepeatable || !Branch.isBlank pieces

/-- Whether branches may be repeated: a choice may. -/
def Branches.isRepeatable : Branches → Bool
  | [] => false
  | [b] => Branch.isRepeatable b
  | _ => true

end

/-- The groups that may be open at once in the extended engine are fewer than this. -/
def extendedDepth : Nat :=
  64

/-- What the extended engine refuses as it reads a pattern of some bytes. A
backreference is refused at once if its number is no less than half the bytes. -/
def Rules.extended (bytes : Nat) : Rules where
  refuse depth before t :=
    match t with
    | .opening _ | .flags _ => if depth + 1 ≥ extendedDepth then some .tooDeep else none
    | .quantity _ =>
      match before with
      | none | some (.repeated _ _) => some .nothingToRepeat
      | some p => if p.isRepeatable then none else some .nothingToRepeat
    | .atom (.groupAgain n) => if n ≥ bytes / 2 then some .noSuchGroup else none
    | .fault f => some f
    | _ => none

/-- Whether every backreference names a group that opens before it, where `opened`
groups open before the tokens. -/
def referencesOpen (opened : Nat) : List Token → Bool
  | [] => true
  | .opening .capture :: ts => referencesOpen (opened + 1) ts
  | .atom (.groupAgain n) :: ts => n ≤ opened && referencesOpen opened ts
  | _ :: ts => referencesOpen opened ts

/-- Whether a token needs backtracking: a backreference or a lookahead. -/
def Token.needsBacktracking : Token → Bool
  | atom (.groupAgain _) => true
  | opening .ahead => true
  | opening .notAhead => true
  | _ => false

/-- The fault of a token that is found only after reading. -/
def Token.lateFault? : Token → Option Fault
  | atom a => if a.hasReversedRange then some .rangeReversed else none
  | quantity q => if q.isTooLarge then some .boundTooLarge else none
  | _ => none

/-- The fault of a token of a pattern that needs no backtracking, found after reading. -/
def Token.plainFault? : Token → Option Fault
  | quantity q => if q.isReversed then some .boundsReversed else none
  | _ => none

/-- The pattern as the extended engine admits it. -/
def readExtended (t : Text) : Except Fault Branches := do
  let ts := tokens t
  let branches ← readTokens (.extended (Text.byteLength t)) ts
  if !referencesOpen 0 ts then .error .noSuchGroup
  else
    match ts.findSome? Token.lateFault? with
    | some f => .error f
    | none =>
      if ts.any Token.needsBacktracking then .ok branches
      else
        match ts.findSome? Token.plainFault? with
        | some f => .error f
        | none => .ok branches

/-- The pattern as an engine admits it. -/
def readFor : Engine → Text → Except Fault Branches
  | .basic => readBasic
  | .extended => readExtended

/-- The basic engine refuses a backreference wherever it stands. -/
theorem basic_refuse_groupAgain (depth : Nat) (before : Option Piece) (n : Nat) :
    Rules.basic.refuse depth before (.atom (.groupAgain n)) = some .noBackreferences :=
  rfl

end FluentPattern
