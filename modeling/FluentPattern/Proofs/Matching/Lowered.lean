import FluentPattern.Matching.Lowering
import FluentPattern.Proofs.Matching.Renumber
import FluentPattern.Proofs.Spelling.Signs

/-!
# Lowered trees

What a tree becomes after some groups: its own groups are numbered behind them, in the
order of its tokens, and it refers to no other groups than its tokens do. So a tree whose
backreferences are moved by a number of groups becomes, after as many groups, the node with
all its groups moved.

Main statements: `Branches.fits_lower`, `Branches.lower_renumber`,
`Branch.ways_lower_append`.
-/

namespace FluentPattern

/-! ## Equations -/

namespace GroupKind

/-- The flags inside a group under some flags. -/
def flagsInside (flags : Flags) : GroupKind → Flags
  | flagged set => flags.union set
  | _ => flags

/-- A group with a number around a node. -/
def around (group : Nat) (n : Node) : GroupKind → Node
  | capture => .capture group n
  | plain | flagged _ => n
  | ahead => .look false n
  | notAhead => .look true n

end GroupKind

section

variable (engine : Engine) (flags : Flags) (groups : Nat)

theorem Piece.lower_group (k : GroupKind) (bs : Branches) :
    (Piece.group k bs).lower engine flags groups =
      let l := Branches.lower engine (k.flagsInside flags)
        (groups + [Token.opening k].countP Token.isCapture) bs
      ⟨k.around (groups + 1) l.node, flags, l.groups⟩ := by
  cases k <;> rfl

theorem Branches.lower_singleton (b : Branch) :
    Branches.lower engine flags groups [b] = Branch.lower engine flags groups b := by
  rw [lower]

theorem Branches.lower_cons {bs : Branches} (h : bs ≠ []) (b : Branch) :
    Branches.lower engine flags groups (b :: bs) =
      let first := Branch.lower engine flags groups b
      let second := Branches.lower engine first.flags first.groups bs
      ⟨.alt first.node second.node, second.flags, second.groups⟩ := by
  obtain ⟨c, bs, rfl⟩ := List.exists_cons_of_ne_nil h
  rw [lower]

end

/-! ## Groups and backreferences -/

theorem Node.captures_repeated (engine : Engine) (q : Quantity) (n : Node) :
    ∀ g ∈ (repeated engine q n).captures, g ∈ n.captures := by
  intro g hg
  unfold repeated repeatBasic repeatExtended at hg
  cases engine <;> grind [captures]

theorem Node.references_repeated (engine : Engine) (q : Quantity) (n : Node) :
    ∀ g ∈ (repeated engine q n).references, g ∈ n.references := by
  intro g hg
  unfold repeated repeatBasic repeatExtended at hg
  cases engine <;> grind [references]

/-- A node whose groups are those that open in some tokens, numbered behind others, and
that refers to no other groups than the tokens do. -/
structure Lowered.Fits (groups : Nat) (ts : List Token) (l : Lowered) : Prop where
  groups_eq : l.groups = groups + ts.countP Token.isCapture
  lt_of_mem_captures : ∀ g ∈ l.node.captures, groups < g
  mem_of_mem_references : ∀ g ∈ l.node.references, .atom (.groupAgain g) ∈ ts

namespace Lowered.Fits

variable {groups : Nat} {ts us : List Token} {first second : Lowered}

/-- Nodes one after the other, or one beside the other. -/
theorem join {node : Node} (hf : first.Fits groups ts) (hs : second.Fits first.groups us)
    (hc : node.captures = first.node.captures ++ second.node.captures)
    (hr : node.references = first.node.references ++ second.node.references) {flags : Flags} :
    (⟨node, flags, second.groups⟩ : Lowered).Fits groups (ts ++ us) where
  groups_eq := by
    rw [hs.groups_eq, hf.groups_eq, List.countP_append, Nat.add_assoc]
  lt_of_mem_captures g hg := by
    rw [hc] at hg
    rcases List.mem_append.1 hg with hg | hg
    · exact hf.lt_of_mem_captures g hg
    · have hlt := hs.lt_of_mem_captures g hg
      rw [hf.groups_eq] at hlt
      omega
  mem_of_mem_references g hg := by
    rw [hr] at hg
    rcases List.mem_append.1 hg with hg | hg
    · exact List.mem_append_left _ (hf.mem_of_mem_references g hg)
    · exact List.mem_append_right _ (hs.mem_of_mem_references g hg)

theorem group (k : GroupKind)
    (hf : first.Fits (groups + [Token.opening k].countP Token.isCapture) ts) {flags : Flags} :
    (⟨k.around (groups + 1) first.node, flags, first.groups⟩ : Lowered).Fits groups
      (.opening k :: (ts ++ [.closing])) where
  groups_eq := by
    have hts : (Token.opening k :: (ts ++ [.closing])).countP Token.isCapture =
        [Token.opening k].countP Token.isCapture + ts.countP Token.isCapture := by
      simp only [List.countP_cons, List.countP_append, List.countP_nil, Token.isCapture,
        Bool.false_eq_true, if_false, Nat.add_zero]
      omega
    rw [hf.groups_eq, hts, Nat.add_assoc]
  lt_of_mem_captures g hg := by
    have hbody (hg : g ∈ first.node.captures) : groups < g :=
      Nat.lt_of_le_of_lt (Nat.le_add_right _ _) (hf.lt_of_mem_captures g hg)
    cases k with
    | capture =>
      rcases List.mem_cons.1 hg with rfl | hg
      · exact Nat.lt_succ_self groups
      · exact hbody hg
    | _ => exact hbody hg
  mem_of_mem_references g hg := by
    have hg : g ∈ first.node.references := by
      cases k <;> exact hg
    simp [hf.mem_of_mem_references g hg]

theorem repeated (hf : first.Fits groups ts) (engine : Engine) (q : Quantity) {flags : Flags} :
    (⟨.repeated engine q first.node, flags, first.groups⟩ : Lowered).Fits groups
      (ts ++ [.quantity q]) where
  groups_eq := by
    rw [hf.groups_eq, List.countP_append]
    rfl
  lt_of_mem_captures g hg := hf.lt_of_mem_captures g (Node.captures_repeated engine q _ g hg)
  mem_of_mem_references g hg := List.mem_append_left _
    (hf.mem_of_mem_references g (Node.references_repeated engine q _ g hg))

end Lowered.Fits

section

variable (engine : Engine)

mutual

theorem Piece.fits_lower : ∀ (p : Piece) (flags : Flags) (groups : Nat),
    (p.lower engine flags groups).Fits groups p.tokens
  | .atom a, flags, groups => by
    cases a <;>
      exact ⟨rfl, by simp [Piece.lower, Atom.node, Node.captures],
        by simp [Piece.lower, Atom.node, Node.references, Piece.tokens]⟩
  | .flags fs, flags, groups =>
    ⟨rfl, by simp [Piece.lower, Node.captures], by simp [Piece.lower, Node.references]⟩
  | .group k bs, flags, groups => by
    rw [Piece.lower_group, Piece.tokens]
    exact (Branches.fits_lower bs _ _).group k
  | .repeated q p, flags, groups => (p.fits_lower flags groups).repeated engine q

theorem Branch.fits_lower : ∀ (b : Branch) (flags : Flags) (groups : Nat),
    (Branch.lower engine flags groups b).Fits groups b.tokens
  | [], flags, groups =>
    ⟨rfl, by simp [Branch.lower, Node.captures], by simp [Branch.lower, Node.references]⟩
  | p :: b, flags, groups =>
    (p.fits_lower flags groups).join (Branch.fits_lower b _ _) rfl rfl

/-- A lowered tree has the groups that open in its tokens, numbered in their order, and
refers to no other groups than the tokens do. -/
theorem Branches.fits_lower : ∀ (bs : Branches) (flags : Flags) (groups : Nat),
    (Branches.lower engine flags groups bs).Fits groups bs.tokens
  | [], flags, groups =>
    ⟨rfl, by simp [Branches.lower, Node.captures], by simp [Branches.lower, Node.references]⟩
  | [b], flags, groups => by
    rw [Branches.lower_singleton, Branches.tokens_singleton]
    exact Branch.fits_lower b flags groups
  | b :: c :: bs, flags, groups => by
    have hne : c :: bs ≠ [] := List.cons_ne_nil c bs
    rw [Branches.lower_cons engine flags groups hne, Branches.tokens_cons hne]
    have hbar : ∀ l : Lowered, ∀ groups ts, l.Fits groups ts → l.Fits groups (.bar :: ts) :=
      fun l groups ts hl => ⟨hl.groups_eq, hl.lt_of_mem_captures,
        fun g hg => List.mem_cons_of_mem _ (hl.mem_of_mem_references g hg)⟩
    exact (Branch.fits_lower b flags groups).join
      (hbar _ _ _ (Branches.fits_lower (c :: bs) _ _)) rfl rfl

end

end

/-! ## Moved groups -/

/-- The atom with the group moved that it refers to. -/
def Atom.renumber (offset : Nat) : Atom → Atom
  | groupAgain n => groupAgain (n + offset)
  | a => a

/-- Numbers that fit are moved. -/
theorem Atom.shift_eq_renumber {a : Atom}
    (h : ∀ n, a = .groupAgain n → n ≤ Lexeme.largestGroup) (offset : Nat) :
    a.shift offset = a.renumber offset := by
  cases a with
  | groupAgain n => rw [shift, if_pos (h n rfl), renumber]
  | _ => rfl

/-- The node with its groups moved. -/
def Lowered.renumber (offset : Nat) (l : Lowered) : Lowered :=
  ⟨l.node.renumber offset, l.flags, l.groups + offset⟩

theorem Node.renumber_repeated (engine : Engine) (q : Quantity) (n : Node) (offset : Nat) :
    repeated engine q (n.renumber offset) = (repeated engine q n).renumber offset := by
  unfold repeated repeatBasic repeatExtended
  cases engine <;> grind [renumber]

theorem GroupKind.renumber_around (k : GroupKind) (group offset : Nat) (n : Node) :
    k.around (group + offset) (n.renumber offset) = (k.around group n).renumber offset := by
  cases k <;> rfl

section

variable (engine : Engine) (offset : Nat)

mutual

theorem Piece.lower_renumber : ∀ (p : Piece) (flags : Flags) (groups : Nat),
    (p.mapAtoms (Atom.renumber offset)).lower engine flags (groups + offset) =
      (p.lower engine flags groups).renumber offset
  | .atom a, flags, groups => by cases a <;> rfl
  | .flags fs, flags, groups => rfl
  | .group k bs, flags, groups => by
    rw [Piece.mapAtoms, Piece.lower_group, Piece.lower_group, Nat.add_right_comm,
      Branches.lower_renumber bs, Nat.add_right_comm groups offset 1]
    exact congrArg (Lowered.mk · flags _) (k.renumber_around (groups + 1) offset _)
  | .repeated q p, flags, groups => by
    rw [Piece.mapAtoms, Piece.lower, Piece.lower, p.lower_renumber flags groups]
    exact congrArg (Lowered.mk · _ _) (Node.renumber_repeated engine q _ offset)

theorem Branch.lower_renumber : ∀ (b : Branch) (flags : Flags) (groups : Nat),
    Branch.lower engine flags (groups + offset) (Branch.mapAtoms (Atom.renumber offset) b) =
      (Branch.lower engine flags groups b).renumber offset
  | [], flags, groups => rfl
  | p :: b, flags, groups => by
    rw [Branch.mapAtoms, Branch.lower, Branch.lower, p.lower_renumber flags groups]
    dsimp only [Lowered.renumber]
    rw [Branch.lower_renumber b]
    rfl

/-- Moving the backreferences of a tree, and putting it behind as many more groups, moves all
groups of its node. -/
theorem Branches.lower_renumber : ∀ (bs : Branches) (flags : Flags) (groups : Nat),
    Branches.lower engine flags (groups + offset) (Branches.mapAtoms (Atom.renumber offset) bs) =
      (Branches.lower engine flags groups bs).renumber offset
  | [], flags, groups => rfl
  | [b], flags, groups => by
    rw [Branches.mapAtoms, Branches.mapAtoms, Branches.lower_singleton, Branches.lower_singleton,
      Branch.lower_renumber b flags groups]
  | b :: c :: bs, flags, groups => by
    have hne : c :: bs ≠ [] := List.cons_ne_nil c bs
    rw [Branches.mapAtoms, Branches.lower_cons _ _ _ hne,
      Branches.lower_cons _ _ _ (Branches.mapAtoms_ne_nil _ hne),
      Branch.lower_renumber b flags groups]
    dsimp only [Lowered.renumber]
    rw [Branches.lower_renumber (c :: bs)]
    rfl

end

end

/-! ## Ways of lowered trees -/

theorem Ways.seq_assoc (u v w : Ways) : seq (seq u v) w = seq u (seq v w) := by
  funext p r
  exact List.flatMap_assoc

@[simp] theorem Ways.unit_seq (w : Ways) : seq unit w = w := by
  funext p r
  exact List.flatMap_singleton _ _

@[simp] theorem Ways.seq_unit (w : Ways) : seq w unit = w := by
  funext p r
  exact List.flatMap_singleton' _

@[simp] theorem Node.ways_repeated_never (h : Haystack) (engine : Engine) (greedy : Bool)
    (n : Node) : (repeated engine ⟨0, some 0, greedy⟩ n).ways h = .unit := by
  cases engine with
  | basic => rfl
  | extended => exact Ways.unit_seq _

@[simp] theorem Node.ways_repeated_once (h : Haystack) (engine : Engine) (greedy : Bool)
    (n : Node) : (repeated engine ⟨1, some 1, greedy⟩ n).ways h = n.ways h := by
  have honce : (times 1 (.upTo 0) greedy n).ways h = n.ways h :=
    (Ways.seq_unit _).trans (Ways.seq_unit _)
  cases engine with
  | basic => exact honce
  | extended => exact honce

/-- The pieces of a row one after the other. -/
theorem Branch.ways_lower_append (h : Haystack) (engine : Engine) (b c : Branch) (flags : Flags)
    (groups : Nat) :
    let first := Branch.lower engine flags groups b
    (Branch.lower engine flags groups (b ++ c)).node.ways h =
      .seq (first.node.ways h)
        ((Branch.lower engine first.flags first.groups c).node.ways h) := by
  induction b generalizing flags groups with
  | nil => exact (Ways.unit_seq _).symm
  | cons p b ih =>
    rw [List.cons_append, Branch.lower, Branch.lower]
    exact (congrArg (Ways.seq _) (ih _ _)).trans (Ways.seq_assoc _ _ _).symm

/-- An assertion that a row does not match, in front of other pieces. -/
theorem Branch.ways_lower_notAhead (h : Haystack) (engine : Engine) (b rest : Branch)
    (flags : Flags) (groups : Nat) :
    let body := Branch.lower engine flags groups b
    (Branch.lower engine flags groups (.group .notAhead [b] :: rest)).node.ways h =
      .seq (.look true (body.node.ways h))
        ((Branch.lower engine flags body.groups rest).node.ways h) :=
  rfl

end FluentPattern
