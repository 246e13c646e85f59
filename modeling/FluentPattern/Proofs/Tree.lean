import FluentPattern.Dialect.Admission

/-!
# Trees and their tokens

A tree can be written as tokens again, and the first of them that the rules of an engine
refuse is the fault of the tree. So what an engine says about a pattern can be told from
its tree alone. Other atoms in the same places give other tokens in the same places.

Main statements: `Branches.tokens_mapAtoms`, `Branches.map_token_places` (every token that can
be refused has its place), `Branch.fault?_eq_none_iff`, `Branch.exists_refuseAt`.
-/

namespace FluentPattern

/-! ## Tokens of a tree -/

mutual

/-- The tokens of a piece. -/
def Piece.tokens : Piece → List Token
  | .atom a => [.atom a]
  | .flags fs => [.flags fs]
  | .group k branches => .opening k :: (Branches.tokens branches ++ [.closing])
  | .repeated q p => p.tokens ++ [.quantity q]

/-- The tokens of pieces one after the other. -/
def Branch.tokens : Branch → List Token
  | [] => []
  | p :: pieces => p.tokens ++ Branch.tokens pieces

/-- The tokens of branches, with a bar between each two of them. -/
def Branches.tokens : Branches → List Token
  | [] => []
  | b :: branches =>
    match branches with
    | [] => Branch.tokens b
    | _ :: _ => Branch.tokens b ++ .bar :: Branches.tokens branches

end

@[simp] theorem Branches.tokens_singleton (b : Branch) : Branches.tokens [b] = b.tokens := by
  rw [tokens]

theorem Branches.tokens_cons {bs : Branches} (h : bs ≠ []) (b : Branch) :
    Branches.tokens (b :: bs) = b.tokens ++ .bar :: Branches.tokens bs := by
  obtain ⟨c, bs, rfl⟩ := List.exists_cons_of_ne_nil h
  rw [tokens]

/-- A piece at the front of the first branch comes first. -/
theorem Branches.tokens_cons_cons (p : Piece) (b : Branch) (bs : Branches) :
    Branches.tokens ((p :: b) :: bs) = p.tokens ++ Branches.tokens (b :: bs) := by
  cases bs with
  | nil => rw [tokens_singleton, tokens_singleton, Branch.tokens]
  | cons c bs =>
    have hne : c :: bs ≠ [] := List.cons_ne_nil c bs
    rw [tokens_cons hne, tokens_cons hne, Branch.tokens, List.append_assoc]

theorem Branch.tokens_append (b c : Branch) : Branch.tokens (b ++ c) = b.tokens ++ c.tokens := by
  induction b with
  | nil => rfl
  | cons p b ih => rw [List.cons_append, tokens, tokens, ih, List.append_assoc]

mutual

theorem Piece.fault_notMem_tokens (f : Fault) : ∀ p : Piece, Token.fault f ∉ p.tokens
  | .atom a => by simp [Piece.tokens]
  | .flags fs => by simp [Piece.tokens]
  | .group k bs => by simp [Piece.tokens, Branches.fault_notMem_tokens f bs]
  | .repeated q p => by simp [Piece.tokens, p.fault_notMem_tokens f]

theorem Branch.fault_notMem_tokens (f : Fault) : ∀ b : Branch, Token.fault f ∉ b.tokens
  | [] => by simp [Branch.tokens]
  | p :: b => by simp [Branch.tokens, p.fault_notMem_tokens f, Branch.fault_notMem_tokens f b]

/-- Where something stands that cannot be read, there is no tree. -/
theorem Branches.fault_notMem_tokens (f : Fault) : ∀ bs : Branches, Token.fault f ∉ bs.tokens
  | [] => by simp [Branches.tokens]
  | [b] => by simp [Branch.fault_notMem_tokens f b]
  | b :: c :: bs => by
    rw [Branches.tokens_cons (List.cons_ne_nil c bs)]
    simp [Branch.fault_notMem_tokens f b, Branches.fault_notMem_tokens f (c :: bs)]

end

/-! ## Other atoms in the same places -/

mutual

/-- The piece with its atoms replaced. -/
def Piece.mapAtoms (f : Atom → Atom) : Piece → Piece
  | .atom a => .atom (f a)
  | .flags fs => .flags fs
  | .group k branches => .group k (Branches.mapAtoms f branches)
  | .repeated q p => .repeated q (p.mapAtoms f)

/-- The row with its atoms replaced. -/
def Branch.mapAtoms (f : Atom → Atom) : Branch → Branch
  | [] => []
  | p :: pieces => p.mapAtoms f :: Branch.mapAtoms f pieces

/-- The branches with their atoms replaced. -/
def Branches.mapAtoms (f : Atom → Atom) : Branches → Branches
  | [] => []
  | b :: branches => Branch.mapAtoms f b :: Branches.mapAtoms f branches

end

/-- The token with its atom replaced, if it is one. -/
def Token.mapAtom (f : Atom → Atom) : Token → Token
  | atom a => atom (f a)
  | t => t

section

variable (f : Atom → Atom)

theorem Branches.mapAtoms_ne_nil {bs : Branches} (h : bs ≠ []) : Branches.mapAtoms f bs ≠ [] := by
  obtain ⟨b, bs, rfl⟩ := List.exists_cons_of_ne_nil h
  rw [mapAtoms]
  exact List.cons_ne_nil _ _

mutual

theorem Piece.tokens_mapAtoms : ∀ p : Piece,
    (p.mapAtoms f).tokens = p.tokens.map (Token.mapAtom f)
  | .atom a => rfl
  | .flags fs => rfl
  | .group k bs => by
    rw [Piece.mapAtoms, Piece.tokens, Piece.tokens, Branches.tokens_mapAtoms bs]
    simp [Token.mapAtom]
  | .repeated q p => by
    rw [Piece.mapAtoms, Piece.tokens, Piece.tokens, p.tokens_mapAtoms]
    simp [Token.mapAtom]

theorem Branch.tokens_mapAtoms : ∀ b : Branch,
    (Branch.mapAtoms f b).tokens = b.tokens.map (Token.mapAtom f)
  | [] => rfl
  | p :: b => by
    rw [Branch.mapAtoms, Branch.tokens, Branch.tokens, p.tokens_mapAtoms,
      Branch.tokens_mapAtoms b, List.map_append]

/-- Replacing the atoms of a tree replaces those of its tokens. -/
theorem Branches.tokens_mapAtoms : ∀ bs : Branches,
    (Branches.mapAtoms f bs).tokens = bs.tokens.map (Token.mapAtom f)
  | [] => rfl
  | [b] => by
    rw [Branches.mapAtoms, Branches.mapAtoms, Branches.tokens_singleton,
      Branches.tokens_singleton, Branch.tokens_mapAtoms b]
  | b :: c :: bs => by
    have hne : c :: bs ≠ [] := List.cons_ne_nil c bs
    rw [Branches.mapAtoms, Branches.tokens_cons hne,
      Branches.tokens_cons (Branches.mapAtoms_ne_nil f hne), Branch.tokens_mapAtoms b,
      Branches.tokens_mapAtoms (c :: bs), List.map_append, List.map_cons]
    rfl

end

end

mutual

theorem Piece.mapAtoms_congr {f g : Atom → Atom} : ∀ p : Piece,
    (∀ a, Token.atom a ∈ p.tokens → f a = g a) → p.mapAtoms f = p.mapAtoms g
  | .atom a, h => congrArg Piece.atom (h a (by simp [Piece.tokens]))
  | .flags fs, _ => rfl
  | .group k bs, h => by
    rw [Piece.mapAtoms, Piece.mapAtoms,
      Branches.mapAtoms_congr bs fun a ha => h a (by simp [Piece.tokens, ha])]
  | .repeated q p, h => by
    rw [Piece.mapAtoms, Piece.mapAtoms,
      p.mapAtoms_congr fun a ha => h a (by simp [Piece.tokens, ha])]

theorem Branch.mapAtoms_congr {f g : Atom → Atom} : ∀ b : Branch,
    (∀ a, Token.atom a ∈ b.tokens → f a = g a) → Branch.mapAtoms f b = Branch.mapAtoms g b
  | [], _ => rfl
  | p :: b, h => by
    rw [Branch.mapAtoms, Branch.mapAtoms,
      p.mapAtoms_congr fun a ha => h a (by simp [Branch.tokens, ha]),
      Branch.mapAtoms_congr b fun a ha => h a (by simp [Branch.tokens, ha])]

/-- Only what happens to the atoms of the tree matters. -/
theorem Branches.mapAtoms_congr {f g : Atom → Atom} : ∀ bs : Branches,
    (∀ a, Token.atom a ∈ bs.tokens → f a = g a) → Branches.mapAtoms f bs = Branches.mapAtoms g bs
  | [], _ => rfl
  | [b], h => by
    rw [Branches.tokens_singleton] at h
    rw [Branches.mapAtoms, Branches.mapAtoms, Branch.mapAtoms_congr b h, Branches.mapAtoms,
      Branches.mapAtoms]
  | b :: c :: bs, h => by
    rw [Branches.tokens_cons (List.cons_ne_nil c bs)] at h
    have hb := Branch.mapAtoms_congr b fun a ha => h a (by simp [ha])
    have hbs := Branches.mapAtoms_congr (c :: bs) fun a ha => h a (by simp [ha])
    rw [Branches.mapAtoms, hb, hbs]
    rfl

end

/-! ## The first fault of a tree -/

/-- A place in a tree where rules may refuse a token. -/
structure Place where
  /-- The number of open groups. -/
  depth : Nat
  /-- The piece before the token, if the token is a quantity. -/
  before : Option Piece
  /-- The token. -/
  token : Token

mutual

/-- The places of a piece inside some groups, in order. -/
def Piece.places (depth : Nat) : Piece → List Place
  | .atom a => [⟨depth, none, .atom a⟩]
  | .flags fs => [⟨depth, none, .flags fs⟩]
  | .group k branches => ⟨depth, none, .opening k⟩ :: Branches.places (depth + 1) branches
  | .repeated q p => p.places depth ++ [⟨depth, some p, .quantity q⟩]

/-- The places of a row. -/
def Branch.places (depth : Nat) : Branch → List Place
  | [] => []
  | p :: pieces => p.places depth ++ Branch.places depth pieces

/-- The places of branches. -/
def Branches.places (depth : Nat) : Branches → List Place
  | [] => []
  | b :: branches => Branch.places depth b ++ Branches.places depth branches

end

theorem Branches.places_singleton (depth : Nat) (b : Branch) :
    Branches.places depth [b] = Branch.places depth b := by
  rw [places, places, List.append_nil]

theorem Branches.places_cons_cons (depth : Nat) (p : Piece) (b : Branch) (bs : Branches) :
    Branches.places depth ((p :: b) :: bs) = p.places depth ++ Branches.places depth (b :: bs) := by
  rw [places, places, Branch.places, List.append_assoc]

theorem Branch.places_append (depth : Nat) (b c : Branch) :
    Branch.places depth (b ++ c) = Branch.places depth b ++ Branch.places depth c := by
  induction b with
  | nil => rfl
  | cons p b ih => rw [List.cons_append, places, places, ih, List.append_assoc]

/-- The place with some more groups open. -/
def Place.deepen (n : Nat) (pl : Place) : Place :=
  { pl with depth := pl.depth + n }

/-- The place with the atoms of its tree replaced. -/
def Place.mapAtoms (f : Atom → Atom) (pl : Place) : Place :=
  ⟨pl.depth, pl.before.map (Piece.mapAtoms f), pl.token.mapAtom f⟩

section

variable (n : Nat)

mutual

theorem Piece.places_add : ∀ (p : Piece) (depth : Nat),
    p.places (depth + n) = (p.places depth).map (Place.deepen n)
  | .atom a, _ => rfl
  | .flags fs, _ => rfl
  | .group k bs, depth => by
    rw [Piece.places, Piece.places, Nat.add_right_comm, Branches.places_add bs]
    rfl
  | .repeated q p, depth => by
    rw [Piece.places, Piece.places, p.places_add, List.map_append]
    rfl

theorem Branch.places_add : ∀ (b : Branch) (depth : Nat),
    Branch.places (depth + n) b = (Branch.places depth b).map (Place.deepen n)
  | [], _ => rfl
  | p :: b, depth => by
    rw [Branch.places, Branch.places, p.places_add, Branch.places_add b, List.map_append]

/-- Inside more groups the places are deeper. -/
theorem Branches.places_add : ∀ (bs : Branches) (depth : Nat),
    Branches.places (depth + n) bs = (Branches.places depth bs).map (Place.deepen n)
  | [], _ => rfl
  | b :: bs, depth => by
    rw [Branches.places, Branches.places, Branch.places_add b, Branches.places_add bs,
      List.map_append]

end

end

section

variable (f : Atom → Atom)

mutual

theorem Piece.places_mapAtoms : ∀ (p : Piece) (depth : Nat),
    (p.mapAtoms f).places depth = (p.places depth).map (Place.mapAtoms f)
  | .atom a, _ => rfl
  | .flags fs, _ => rfl
  | .group k bs, depth => by
    rw [Piece.mapAtoms, Piece.places, Piece.places, Branches.places_mapAtoms bs]
    rfl
  | .repeated q p, depth => by
    rw [Piece.mapAtoms, Piece.places, Piece.places, p.places_mapAtoms, List.map_append]
    rfl

theorem Branch.places_mapAtoms : ∀ (b : Branch) (depth : Nat),
    Branch.places depth (Branch.mapAtoms f b) = (Branch.places depth b).map (Place.mapAtoms f)
  | [], _ => rfl
  | p :: b, depth => by
    rw [Branch.mapAtoms, Branch.places, Branch.places, p.places_mapAtoms, Branch.places_mapAtoms b,
      List.map_append]

/-- Other atoms in the same places. -/
theorem Branches.places_mapAtoms : ∀ (bs : Branches) (depth : Nat),
    Branches.places depth (Branches.mapAtoms f bs) =
      (Branches.places depth bs).map (Place.mapAtoms f)
  | [], _ => rfl
  | b :: bs, depth => by
    rw [Branches.mapAtoms, Branches.places, Branches.places, Branch.places_mapAtoms b,
      Branches.places_mapAtoms bs, List.map_append]

end

end

/-- Whether a token has a place of its own: a bar and the end of a group are never
refused. -/
def Token.isPlaced : Token → Bool
  | bar | closing => false
  | _ => true

mutual

theorem Piece.map_token_places : ∀ (p : Piece) (depth : Nat),
    (p.places depth).map Place.token = p.tokens.filter Token.isPlaced
  | .atom a, _ => rfl
  | .flags fs, _ => rfl
  | .group k bs, depth => by
    rw [Piece.places, Piece.tokens, List.map_cons, Branches.map_token_places bs,
      List.filter_cons_of_pos rfl, List.filter_append]
    exact congrArg _ (List.append_nil _).symm
  | .repeated q p, depth => by
    rw [Piece.places, Piece.tokens, List.map_append, p.map_token_places, List.filter_append]
    rfl

theorem Branch.map_token_places : ∀ (b : Branch) (depth : Nat),
    (Branch.places depth b).map Place.token = b.tokens.filter Token.isPlaced
  | [], _ => rfl
  | p :: b, depth => by
    rw [Branch.places, Branch.tokens, List.map_append, p.map_token_places,
      Branch.map_token_places b, List.filter_append]

/-- The tokens at the places of a tree are its tokens but for bars and ends of groups. -/
theorem Branches.map_token_places : ∀ (bs : Branches) (depth : Nat),
    (Branches.places depth bs).map Place.token = bs.tokens.filter Token.isPlaced
  | [], _ => rfl
  | [b], depth => by
    rw [Branches.places_singleton, Branches.tokens_singleton, Branch.map_token_places b]
  | b :: c :: bs, depth => by
    rw [Branches.places, List.map_append, Branch.map_token_places b,
      Branches.map_token_places (c :: bs), Branches.tokens_cons (List.cons_ne_nil c bs),
      List.filter_append, List.filter_cons_of_neg (by simp [Token.isPlaced])]

end

theorem Branch.mem_tokens_of_mem_places {b : Branch} {depth : Nat} {pl : Place}
    (h : pl ∈ Branch.places depth b) : pl.token ∈ b.tokens := by
  have hmem := List.mem_map_of_mem (f := Place.token) h
  rw [Branch.map_token_places] at hmem
  exact (List.mem_filter.1 hmem).1

/-- Every token that has a place stands at one. -/
theorem Branch.exists_mem_places {b : Branch} {t : Token} (h : t ∈ b.tokens)
    (ht : t.isPlaced = true) (depth : Nat) : ∃ pl ∈ Branch.places depth b, pl.token = t := by
  refine List.mem_map.1 ?_
  rw [Branch.map_token_places]
  exact List.mem_filter.2 ⟨h, ht⟩

/-- The fault of the token at a place. -/
def Rules.refuseAt (rules : Rules) (pl : Place) : Option Fault :=
  rules.refuse pl.depth pl.before pl.token

section

variable (rules : Rules) (depth : Nat)

/-- The fault of the first token of a piece that the rules refuse, inside some groups. -/
def Piece.fault? (p : Piece) : Option Fault :=
  (p.places depth).findSome? rules.refuseAt

/-- The fault of the first token of a row that the rules refuse. -/
def Branch.fault? (b : Branch) : Option Fault :=
  (Branch.places depth b).findSome? rules.refuseAt

/-- The fault of the first token of branches that the rules refuse. -/
def Branches.fault? (bs : Branches) : Option Fault :=
  (Branches.places depth bs).findSome? rules.refuseAt

theorem Piece.fault?_atom (a : Atom) :
    (Piece.atom a).fault? rules depth = rules.refuse depth none (.atom a) := by
  rw [fault?, places, List.findSome?_cons, Rules.refuseAt]
  cases rules.refuse depth none (.atom a) <;> rfl

theorem Piece.fault?_flags (fs : Flags) :
    (Piece.flags fs).fault? rules depth = rules.refuse depth none (.flags fs) := by
  rw [fault?, places, List.findSome?_cons, Rules.refuseAt]
  cases rules.refuse depth none (.flags fs) <;> rfl

theorem Piece.fault?_group (k : GroupKind) (bs : Branches) :
    (Piece.group k bs).fault? rules depth =
      (rules.refuse depth none (.opening k)).or (Branches.fault? rules (depth + 1) bs) := by
  rw [fault?, places, List.findSome?_cons, Rules.refuseAt]
  cases rules.refuse depth none (.opening k) <;> rfl

theorem Piece.fault?_repeated (q : Quantity) (p : Piece) :
    (Piece.repeated q p).fault? rules depth =
      (p.fault? rules depth).or (rules.refuse depth (some p) (.quantity q)) := by
  rw [fault?, places, List.findSome?_append, List.findSome?_cons, Rules.refuseAt]
  cases rules.refuse depth (some p) (.quantity q) <;> rfl

theorem Branches.fault?_singleton (b : Branch) :
    Branches.fault? rules depth [b] = Branch.fault? rules depth b := by
  rw [fault?, places_singleton, Branch.fault?]

/-- A piece at the front of the first branch comes first. -/
theorem Branches.fault?_cons_cons (p : Piece) (b : Branch) (bs : Branches) :
    Branches.fault? rules depth ((p :: b) :: bs) =
      (p.fault? rules depth).or (Branches.fault? rules depth (b :: bs)) := by
  rw [fault?, places_cons_cons, List.findSome?_append, fault?, Piece.fault?]

theorem Branch.fault?_cons (p : Piece) (b : Branch) :
    Branch.fault? rules depth (p :: b) =
      (p.fault? rules depth).or (Branch.fault? rules depth b) := by
  rw [fault?, places, List.findSome?_append, Piece.fault?, fault?]

variable {rules depth}

theorem Branch.fault?_eq_none_iff {b : Branch} : Branch.fault? rules depth b = none ↔
    ∀ pl ∈ Branch.places depth b, rules.refuseAt pl = none :=
  List.findSome?_eq_none_iff

/-- The fault of a row is the fault of one of its places. -/
theorem Branch.exists_refuseAt {b : Branch} {f : Fault} (h : Branch.fault? rules depth b = some f) :
    ∃ pl ∈ Branch.places depth b, rules.refuseAt pl = some f :=
  List.exists_of_findSome?_eq_some h

end

end FluentPattern
