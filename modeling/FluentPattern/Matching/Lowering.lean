import FluentPattern.Expression
import FluentPattern.Matching.Node

/-!
# From a tree to a node

Flags hold from where they are set to the end of the group around them, groups
are numbered by their openings from the left, and a quantity becomes a least number
of iterations and further ones. The engines differ in endless repetitions only:
in the basic engine a first iteration that is empty ends the repetition, and the
extended engine does without it.

What lowering keeps of the groups and the backreferences of a tree is stated in
`Branches.fits_lower`.
-/

namespace FluentPattern

namespace Node

/-- A repetition in the basic engine. A piece that is repeated no time at all is dropped
with its groups. -/
def repeatBasic (q : Quantity) (body : Node) : Node :=
  match q.least, q.most with
  | 0, none => times 0 (.upTo 1) q.greedy (times 0 .plus q.greedy body)
  | n + 1, none => times n .plus q.greedy body
  | _, some 0 => empty
  | least, some most => times least (.upTo (most - least)) q.greedy body

/-- A repetition in the extended engine. If the bounds are in the wrong order the upper
one counts. -/
def repeatExtended (q : Quantity) (body : Node) : Node :=
  match q.most with
  | none => times q.least .star q.greedy body
  | some most => times (min q.least most) (.upTo (most - q.least)) q.greedy body

/-- A repetition in an engine. -/
def repeated (engine : Engine) (q : Quantity) (body : Node) : Node :=
  match engine with
  | .basic => repeatBasic q body
  | .extended => repeatExtended q body

end Node

/-- An atom as a node, under flags. -/
def Atom.node (flags : Flags) : Atom → Node
  | char c => .char (.single c flags.ignoreCase)
  | any => .char .notLineFeed
  | start => .anchor (if flags.multiLine then .lineStart else .inputStart)
  | stop => .anchor (if flags.multiLine then .lineEnd else .inputEnd)
  | bracket c => .char ⟨c.items, flags.ignoreCase, c.negated⟩
  | named c => .char ⟨[.named c], flags.ignoreCase, false⟩
  | groupAgain group => .groupAgain group

/-- A node under construction: the flags and the number of groups after it. -/
structure Lowered where
  /-- The node. -/
  node : Node
  /-- The flags that hold after it. -/
  flags : Flags
  /-- The number of groups that open before its end. -/
  groups : Nat

mutual

/-- A piece as a node, under flags and after some groups. -/
def Piece.lower (engine : Engine) (flags : Flags) (groups : Nat) : Piece → Lowered
  | .atom a => ⟨a.node flags, flags, groups⟩
  | .flags set => ⟨.empty, flags.union set, groups⟩
  | .group .capture branches =>
    let l := Branches.lower engine flags (groups + 1) branches
    ⟨.capture (groups + 1) l.node, flags, l.groups⟩
  | .group .plain branches =>
    let l := Branches.lower engine flags groups branches
    ⟨l.node, flags, l.groups⟩
  | .group (.flagged set) branches =>
    let l := Branches.lower engine (flags.union set) groups branches
    ⟨l.node, flags, l.groups⟩
  | .group .ahead branches =>
    let l := Branches.lower engine flags groups branches
    ⟨.look false l.node, flags, l.groups⟩
  | .group .notAhead branches =>
    let l := Branches.lower engine flags groups branches
    ⟨.look true l.node, flags, l.groups⟩
  | .repeated q p =>
    let l := p.lower engine flags groups
    ⟨.repeated engine q l.node, l.flags, l.groups⟩

/-- A row of pieces as a node. -/
def Branch.lower (engine : Engine) (flags : Flags) (groups : Nat) : Branch → Lowered
  | [] => ⟨.empty, flags, groups⟩
  | p :: pieces =>
    let first := p.lower engine flags groups
    let second := Branch.lower engine first.flags first.groups pieces
    ⟨.seq first.node second.node, second.flags, second.groups⟩

/-- Branches as a node, the flags of one holding on in the next. -/
def Branches.lower (engine : Engine) (flags : Flags) (groups : Nat) : Branches → Lowered
  | [] => ⟨.empty, flags, groups⟩
  | b :: branches =>
    let first := Branch.lower engine flags groups b
    match branches with
    | [] => first
    | _ :: _ =>
      let second := Branches.lower engine first.flags first.groups branches
      ⟨.alt first.node second.node, second.flags, second.groups⟩

end

end FluentPattern
