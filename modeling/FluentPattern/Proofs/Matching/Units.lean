import FluentPattern.Proofs.Matching.Languages
import FluentPattern.Proofs.Structure

/-!
# Units

A unit is written as a group around its content and its quantity. If its content asks for
nothing but characters, then the unit reads its words as often as the quantity admits.

Main statements: `Text.reads_row`, `Atom.reads`, `Fragment.reads_piece`.
-/

namespace FluentPattern

/-! ## Contents that read a language -/

/-- The row of a text. -/
def Text.row (t : Text) : Branch :=
  t.map fun c => .atom (.char c)

/-- Escaped members in brackets are a class of their characters. -/
theorem Text.spells_class (negated : Bool) {members : Text} (hne : members ≠ []) :
    Spells (classText negated (members.map .ofChar) [])
      [[.atom (.bracket ⟨negated, members.map fun c => .range c c⟩)]] := by
  have hwritable : ∀ m ∈ members.map Token.Member.ofChar, m.IsWritable := by
    intro m hm
    obtain ⟨c, -, rfl⟩ := List.mem_map.1 hm
    exact Token.Member.isWritable_ofChar c
  exact .bracket negated (by simpa using hne) hwritable (Token.itemsOf_map_ofChar members) .nil

theorem Token.membersText_map_ofChar (members : Text) :
    membersText (members.map .ofChar) = members.escapeInside := by
  rw [membersText, List.flatMap_map]
  exact congrArg (List.flatMap · members) (funext Member.text_ofChar)

section

variable (h : Haystack) (engine : Engine) {flags : Flags} (groups : Nat)

/-- A text reads itself, where case is not ignored. -/
theorem Text.reads_row (hflags : flags.ignoreCase = false) (t : Text) :
    ((Branch.lower engine flags groups t.row).node.ways h).Reads h ({t} : Language Char) := by
  induction t with
  | nil => exact .unit
  | cons c t ih =>
    have hchar : ((Atom.char c).node flags).ways h = .char h (.single c false) := by
      rw [Atom.node, hflags]
      rfl
    refine ((hchar ▸ Ways.Reads.char (.single c false)).seq ih).congr fun u => ?_
    rw [Language.mem_mul]
    constructor
    · rintro ⟨_, ⟨d, hd, rfl⟩, _, rfl, rfl⟩
      rw [(CharSet.contains_single c d).1 hd]
      rfl
    · rintro rfl
      exact ⟨[c], ⟨c, (CharSet.contains_single c c).2 rfl, rfl⟩, t, rfl, rfl⟩

theorem Atom.ways_row {a : Atom} {s : CharSet} (ha : a.node flags = .char s) :
    (Branch.lower engine flags groups [.atom a]).node.ways h = .char h s :=
  (Ways.seq_unit _).trans (congrArg (Node.ways h) ha)

/-- An atom that matches one character reads the characters of its set. -/
theorem Atom.reads {a : Atom} {s : CharSet} (ha : a.node flags = .char s) :
    ((Branch.lower engine flags groups [.atom a]).node.ways h).Reads h s.words := by
  rw [a.ways_row h engine groups ha]
  exact .char s

end

/-! ## Units -/

namespace Fragment

/-- The piece of a unit whose content is a row. -/
def piece (f : Fragment) (b : Branch) : Piece :=
  .group (if f.capture then .capture else .plain) [[Piece.times f.quantity? (.group .plain [b])]]

variable {h : Haystack} {engine : Engine} {flags : Flags} {b : Branch} {L : Language Char}

theorem flags_lower_piece (f : Fragment) (groups : Nat) :
    (Branch.lower engine flags groups [f.piece b]).flags = flags := by
  unfold piece
  cases f.capture <;> rfl

/-- The content of a unit is repeated as its quantity says. -/
theorem ways_repeated {f : Fragment} {q : Quantity} (hf : f.quantity? = some q) (groups : Nat) :
    (Branches.lower engine flags groups
        [[Piece.times f.quantity? (.group .plain [b])]]).node.ways h =
      (Node.repeated engine q (Branch.lower engine flags groups b).node).ways h := by
  rw [hf, Branches.lower_singleton]
  refine (Ways.seq_unit _).trans ?_
  rw [← Branches.lower_singleton]
  rfl

/-- A unit that does not capture is its content, repeated. -/
theorem ways_piece {f : Fragment} {q : Quantity} (hf : f.quantity? = some q)
    (hcapture : f.capture = false) (groups : Nat) :
    (Branch.lower engine flags groups [f.piece b]).node.ways h =
      (Node.repeated engine q (Branch.lower engine flags groups b).node).ways h := by
  refine (Ways.seq_unit _).trans ?_
  rw [piece, hcapture]
  exact ways_repeated hf groups

/-- A unit reads the words of its content as often as its quantity admits. -/
theorem reads_piece (hb : ∀ groups, ((Branch.lower engine flags groups b).node.ways h).Reads h L)
    {f : Fragment} {q : Quantity} (hf : f.quantity? = some q) (hq : q.isReversed = false)
    (groups : Nat) :
    ((Branch.lower engine flags groups [f.piece b]).node.ways h).Reads h (q.powers L) := by
  have hbody (groups : Nat) : ((Branches.lower engine flags groups
      [[Piece.times f.quantity? (.group .plain [b])]]).node.ways h).Reads h (q.powers L) := by
    rw [ways_repeated hf]
    exact (hb groups).repeated engine hq
  have hpiece : (Branch.lower engine flags groups [f.piece b]).node.ways h =
      ((f.piece b).lower engine flags groups).node.ways h := Ways.seq_unit _
  rw [hpiece, piece]
  cases f.capture with
  | true => exact (hbody _).capture _
  | false => exact hbody _

end Fragment

end FluentPattern
