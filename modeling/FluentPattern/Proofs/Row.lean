import FluentPattern.Proofs.Spelling.Reading
import FluentPattern.Proofs.Spelling.Signs
import FluentPattern.Proofs.Written
import Mathlib.Data.List.Forall2

/-!
# Rows of pieces

A row is a text of the grammar without a bar outside its groups. Escaped text is a
row of characters, and so is every content that a call writes. A row in a group is a
row, with or without a quantity, and so are the segments of a builder one after the
other.

Main statements: `Content.IsGiven.isRow`, `Text.IsRow.wrapped`,
`Segment.IsFormed.spells`.
-/

namespace FluentPattern

/-- The text spells pieces one after the other. -/
def Text.IsRow (t : Text) : Prop :=
  ∃ b, Spells t [b]

theorem Text.IsRow.nil : Text.IsRow [] :=
  ⟨[], .nil⟩

theorem Text.IsRow.settled {t : Text} (h : t.IsRow) : Settled t := by
  obtain ⟨b, hb⟩ := h
  exact hb.settled

/-- Renumbering a row gives a row. -/
theorem Text.IsRow.shift {t : Text} (h : t.IsRow) (d : Nat) :
    Text.IsRow (shiftReferences d t) := by
  obtain ⟨b, hb⟩ := h
  exact ⟨_, hb.shift d⟩

/-- A row in a group is a row, whatever quantity follows. -/
theorem Text.IsRow.group {t : Text} (h : t.IsRow) {k : GroupKind} (hk : k.IsWritable)
    (q : Option Quantity) : Text.IsRow (k.text ++ (t ++ ')' :: (Quantity.suffix q ++ []))) := by
  obtain ⟨b, hb⟩ := h
  exact ⟨_, .group k q hk hb .nil⟩

/-- A text of the grammar in a group that captures nothing is one piece. -/
theorem Spells.wrapped_append {t : Text} {bs : Branches} (h : Spells t bs)
    (q : Option Quantity) :
    Spells (t.wrapped ++ Quantity.suffix q) [[Piece.times q (.group .plain bs)]] := by
  have hg := Spells.group .plain q trivial h .nil
  rw [List.append_nil] at hg
  simpa [Text.wrapped, GroupKind.text] using hg

theorem Spells.wrapped {t : Text} {bs : Branches} (h : Spells t bs) :
    Spells t.wrapped [[.group .plain bs]] := by
  have hw := h.wrapped_append none
  rwa [Quantity.suffix, List.append_nil] at hw

theorem Text.IsRow.wrapped_append {t : Text} (h : t.IsRow) (q : Option Quantity) :
    Text.IsRow (t.wrapped ++ Quantity.suffix q) := by
  obtain ⟨b, hb⟩ := h
  exact ⟨_, hb.wrapped_append q⟩

theorem Text.IsRow.wrapped {t : Text} (h : t.IsRow) : Text.IsRow t.wrapped := by
  obtain ⟨b, hb⟩ := h
  exact ⟨_, hb.wrapped⟩

/-- A literal is embedded as it is, or in a group that sets flags. -/
theorem Built.scopedLiteral_eq (flags : Flags) :
    (∀ p : Built, p.flags = flags → p.scopedLiteral = p.literal) ∨
      ∃ fs : Flags, (GroupKind.flagged fs).IsWritable ∧ ∀ p : Built, p.flags = flags →
        p.scopedLiteral = (GroupKind.flagged fs).text ++
          (p.literal ++ ')' :: (Quantity.suffix none ++ [])) := by
  by_cases h : flags.inlineCode = []
  · exact .inl fun p hp => Built.scopedLiteral_of_inlineCode_eq_nil (hp ▸ h)
  · have hcode : Flags.inlineCode { flags with everyMatch := false } = flags.inlineCode := by
      obtain ⟨i, m, g⟩ := flags
      cases i <;> cases m <;> cases g <;> rfl
    refine .inr ⟨{ flags with everyMatch := false }, ⟨hcode ▸ h, rfl⟩, fun p hp => ?_⟩
    rw [scopedLiteral, hp, if_neg (by simpa using h), GroupKind.text, hcode]
    simp [Quantity.suffix]

/-- The flags of a pattern stand in a group around its literal. -/
theorem Text.IsRow.scopedLiteral {p : Built} (hp : p.literal.IsRow) :
    Text.IsRow p.scopedLiteral := by
  rcases Built.scopedLiteral_eq p.flags with h | ⟨fs, hk, h⟩
  · rwa [h p rfl]
  · rw [h p rfl]
    exact hp.group hk none

/-! ## Escaped text -/

/-- Characters that stand for themselves after a `\`. -/
theorem Token.escaped_of_mem {cs : Text}
    (hcs : cs.all (fun c => !c.isDigit && escaped c == .atom (.char c)) = true) {c : Char}
    (hc : c ∈ cs) : c.isDigit = false ∧ escaped c = .atom (.char c) := by
  have h := List.all_eq_true.1 hcs c hc
  simpa using h

theorem Text.escaped_of_isSpecialOutside {c : Char} (h : Text.isSpecialOutside c = true) :
    c.isDigit = false ∧ Token.escaped c = .atom (.char c) :=
  Token.escaped_of_mem (by decide) (List.contains_iff_mem.1 h)

theorem Text.ofChar?_of_not_isSpecialOutside {c : Char} (h : Text.isSpecialOutside c = false) :
    Atom.ofChar? c = some (.char c) := by
  unfold Atom.ofChar?
  split <;> first | rfl | exact absurd h (by decide)

/-- Escaped text spells its characters. -/
theorem spells_escapeOutside (t : Text) :
    Spells t.escapeOutside [t.map fun c => .atom (.char c)] := by
  induction t with
  | nil => exact .nil
  | cons c t ih =>
    rw [Text.escapeOutside, Text.escape_cons, Text.escapeChar]
    cases h : Text.isSpecialOutside c with
    | true =>
      obtain ⟨hd, he⟩ := Text.escaped_of_isSpecialOutside h
      exact .escape hd he ih
    | false => exact .single (Text.ofChar?_of_not_isSpecialOutside h) ih

/-! ## Members of classes -/

/-- A character as a member of a class. -/
def Token.Member.ofChar (c : Char) : Token.Member :=
  if Text.isSpecialInside c then .escaped c else .plain c

theorem Token.Member.text_ofChar (c : Char) :
    (ofChar c).text = Text.escapeChar Text.isSpecialInside c := by
  unfold ofChar Text.escapeChar
  split <;> rfl

theorem Text.escaped_of_isSpecialInside {c : Char} (h : Text.isSpecialInside c = true) :
    c.isDigit = false ∧ Token.escaped c = .atom (.char c) :=
  Token.escaped_of_mem (by decide) (List.contains_iff_mem.1 h)

theorem Token.Member.isWritable_ofChar (c : Char) : (ofChar c).IsWritable := by
  unfold ofChar
  cases h : Text.isSpecialInside c with
  | true => exact (Text.escaped_of_isSpecialInside h).1
  | false => refine ⟨?_, ?_, ?_, ?_⟩ <;> rintro rfl <;> exact absurd h (by decide)

/-- A member made of a character stands for it. -/
theorem Token.itemOf_ofChar (c : Char) : itemOf (.ofChar c) = .ok (.range c c) := by
  unfold Token.Member.ofChar
  cases h : Text.isSpecialInside c with
  | true =>
    rw [if_pos rfl, itemOf, (Text.escaped_of_isSpecialInside h).2]
  | false =>
    have hc : c ≠ '[' := by
      rintro rfl
      exact absurd h (by decide)
    rw [if_neg Bool.false_ne_true, itemOf]
    simpa using hc

/-- No member made of a character is half of an operator. -/
theorem Token.isOperator_ofChar (c : Char) (m : Member) :
    isOperator (.ofChar c) m = false ∧ isOperator m (.ofChar c) = false := by
  unfold Token.Member.ofChar
  cases h : Text.isSpecialInside c with
  | true => constructor <;> cases m <;> rfl
  | false =>
    have hc : c ≠ '&' ∧ c ≠ '-' ∧ c ≠ '~' := by
      refine ⟨?_, ?_, ?_⟩ <;> rintro rfl <;> exact absurd h (by decide)
    rw [if_neg Bool.false_ne_true]
    cases m with
    | escaped d => exact ⟨rfl, rfl⟩
    | plain d =>
      constructor
      · simp [isOperator, hc.1, hc.2.1, hc.2.2]
      · cases hd : d == c with
        | false => simp [isOperator, hd]
        | true => simp [isOperator, eq_of_beq hd, hc.1, hc.2.1, hc.2.2]

theorem Token.Member.ofChar_ne_dash (c : Char) : ofChar c ≠ .plain '-' := by
  unfold ofChar
  split
  · exact Member.noConfusion
  · rename_i h
    rintro hc
    obtain rfl := Member.plain.inj hc
    exact h (by decide)

/-- Escaped members stand one by one for their characters. -/
theorem Token.itemsOf_map_ofChar : ∀ t : Text,
    itemsOf (t.map Member.ofChar) = .ok (t.map fun c => .range c c)
  | [] => rfl
  | [a] => by
    rw [List.map_singleton, itemsOf, itemOf_ofChar]
    rfl
  | [a, b] => by
    rw [List.map_cons, List.map_singleton, itemsOf, (isOperator_ofChar a _).1, itemOf_ofChar,
      itemOf_ofChar]
    rfl
  | a :: b :: c :: t => by
    have ih := itemsOf_map_ofChar (b :: c :: t)
    rw [List.map_cons, List.map_cons] at ih
    rw [List.map_cons, List.map_cons, List.map_cons, itemsOf, (isOperator_ofChar a _).1,
      (isOperator_ofChar b _).1, Bool.or_self, if_neg Bool.false_ne_true,
      if_neg (Member.ofChar_ne_dash b), itemOf_ofChar, ih]
    rfl

/-- The members that are written for a range. -/
def Token.Member.between (first last : Char) : List Token.Member :=
  [ofChar first, plain '-', ofChar last]

theorem Token.Member.isWritable_of_mem_between {first last : Char} {m : Token.Member}
    (hm : m ∈ between first last) : m.IsWritable := by
  simp only [between, List.mem_cons, List.not_mem_nil, or_false] at hm
  rcases hm with rfl | rfl | rfl
  · exact isWritable_ofChar first
  · exact ⟨by decide, by decide, by decide, by decide⟩
  · exact isWritable_ofChar last

theorem Token.membersText_between (first last : Char) :
    membersText (Member.between first last) = Text.rangeMembers first last := by
  simp only [Member.between, membersText, List.flatMap_cons, List.flatMap_nil, Member.text_ofChar]
  simp [Member.text, Text.rangeMembers, Text.escapeInside]

/-- The members of a range stand for the range. -/
theorem Token.itemsOf_between (first last : Char) :
    itemsOf (Member.between first last) = .ok [.range first last] := by
  rw [Member.between, itemsOf, (isOperator_ofChar first _).1, (isOperator_ofChar last _).2,
    Bool.or_self, if_neg Bool.false_ne_true, if_pos rfl, rangeOf, itemOf_ofChar, itemOf_ofChar]
  rfl

/-- The members that calls write are read as members again. -/
theorem Text.IsMembers.exists_members {t : Text} (h : t.IsMembers) :
    ∃ ms items, ms ≠ [] ∧ (∀ m ∈ ms, Token.Member.IsWritable m) ∧ Token.membersText ms = t ∧
      Token.itemsOf ms = .ok items := by
  cases h with
  | @chars t ht =>
    refine ⟨t.map .ofChar, _, by simpa using ht, ?_, ?_, Token.itemsOf_map_ofChar t⟩
    · intro m hm
      obtain ⟨c, -, rfl⟩ := List.mem_map.1 hm
      exact Token.Member.isWritable_ofChar c
    · rw [Token.membersText, List.flatMap_map]
      exact congrArg (List.flatMap · t) (funext Token.Member.text_ofChar)
  | range first last =>
    exact ⟨Token.Member.between first last, [.range first last], List.cons_ne_nil _ _,
      fun _ => Token.Member.isWritable_of_mem_between, Token.membersText_between first last,
      Token.itemsOf_between first last⟩
  | letters =>
    exact ⟨[.plain 'A', .plain '-', .plain 'Z', .plain 'a', .plain '-', .plain 'z'], _,
      by decide, by simp [Token.Member.IsWritable], rfl, rfl⟩
  | lowerLetters =>
    exact ⟨[.plain 'a', .plain '-', .plain 'z'], _, by decide,
      by simp [Token.Member.IsWritable], rfl, rfl⟩
  | upperLetters =>
    exact ⟨[.plain 'A', .plain '-', .plain 'Z'], _, by decide,
      by simp [Token.Member.IsWritable], rfl, rfl⟩

/-! ## Contents -/

/-- A content that a call writes is a row. -/
theorem Content.IsGiven.isRow {c : Content} (h : c.IsGiven) : Text.IsRow c.literal := by
  cases h with
  | text _ => exact ⟨_, spells_escapeOutside _⟩
  | anyChar => exact ⟨_, .single (by rfl) .nil⟩
  | oneOf hm =>
    obtain ⟨ms, items, hne, hw, rfl, hi⟩ := hm.exists_members
    exact ⟨_, .bracket false hne hw hi .nil⟩
  | noneOf hm =>
    obtain ⟨ms, items, hne, hw, rfl, hi⟩ := hm.exists_members
    exact ⟨_, .bracket true hne hw hi .nil⟩

theorem isRow_groupAgain (n : Nat) : Text.IsRow (Content.groupAgain n).literal := by
  have hs := Spells.reference n (t := []) rfl .nil
  rw [List.append_nil] at hs
  exact ⟨_, hs⟩

/-- A letter that names a class after a `\` is a row. -/
theorem isRow_named {literal : Text} (h : literal = ['\\', 's'] ∨ literal = ['\\', 'S']) :
    literal.IsRow := by
  rcases h with rfl | rfl
  · exact ⟨_, .escape rfl rfl .nil⟩
  · exact ⟨_, .escape rfl rfl .nil⟩

/-! ## Segments -/

/-- The kind of group that an opening opens. -/
def Opening.kind : Opening → GroupKind
  | group => .plain
  | capture => .capture
  | ahead => .ahead
  | notAhead => .notAhead

theorem Opening.text_kind (o : Opening) : o.kind.text = o.text := by
  cases o <;> rfl

theorem Opening.isWritable_kind (o : Opening) : o.kind.IsWritable := by
  cases o <;> trivial

/-- A segment that is written as one group: it has alternatives, and each is a row. -/
structure Segment.IsFormed (s : Segment) : Prop where
  ne_nil : s.alternatives ≠ []
  isRow : ∀ a ∈ s.alternatives, Text.IsRow a

theorem Segment.isFormed_singleton {o : Opening} {a : Text} (ha : a.IsRow) :
    Segment.IsFormed ⟨o, [a]⟩ :=
  ⟨List.cons_ne_nil a [], fun _ hx => List.mem_singleton.1 hx ▸ ha⟩

theorem Segment.IsFormed.push {s : Segment} (hs : s.IsFormed) {a : Text} (ha : a.IsRow) :
    (s.push a).IsFormed := by
  refine ⟨by simp [Segment.push], fun x hx => ?_⟩
  rcases List.mem_append.1 hx with hx | hx
  · exact hs.isRow x hx
  · exact List.mem_singleton.1 hx ▸ ha

/-- Rows joined by bars spell a branch each. -/
theorem spells_intercalate {ts : List Text} {bs : Branches} (hne : ts ≠ [])
    (h : List.Forall₂ (fun t b => Spells t [b]) ts bs) : Spells (['|'].intercalate ts) bs := by
  induction h with
  | nil => exact absurd rfl hne
  | @cons t b ts bs hb h ih =>
    cases h with
    | nil => simpa [List.intercalate] using hb
    | cons hc h =>
      have hj := hb.append_bar (ih (List.cons_ne_nil _ _))
      simpa [List.intercalate] using hj

theorem exists_forall₂_spells {ts : List Text} (hrow : ∀ t ∈ ts, Text.IsRow t) :
    ∃ bs, List.Forall₂ (fun t b => Spells t [b]) ts bs := by
  induction ts with
  | nil => exact ⟨[], .nil⟩
  | cons t ts ih =>
    obtain ⟨b, hb⟩ := hrow t List.mem_cons_self
    obtain ⟨bs, hbs⟩ := ih fun x hx => hrow x (List.mem_cons_of_mem _ hx)
    exact ⟨b :: bs, .cons hb hbs⟩

/-- A segment before a text of the grammar is one more piece: a group of its kind with a
branch for each alternative. -/
theorem Segment.spells_append {s : Segment} {bs : Branches} (hne : s.alternatives ≠ [])
    (hbs : List.Forall₂ (fun t b => Spells t [b]) s.alternatives bs) {t : Text} {b : Branch}
    {cs : Branches} (ht : Spells t (b :: cs)) :
    Spells (s.text ++ t) ((.group s.opening.kind bs :: b) :: cs) := by
  have hg := Spells.group s.opening.kind none s.opening.isWritable_kind
    (spells_intercalate hne hbs) ht
  simpa [Segment.text, Opening.text_kind, Quantity.suffix, Piece.times] using hg

theorem Segment.IsFormed.spells {s : Segment} (hs : s.IsFormed) :
    ∃ bs, List.Forall₂ (fun t b => Spells t [b]) s.alternatives bs ∧
      ∀ {t : Text} {b : Branch} {cs : Branches}, Spells t (b :: cs) →
        Spells (s.text ++ t) ((.group s.opening.kind bs :: b) :: cs) := by
  obtain ⟨bs, hbs⟩ := exists_forall₂_spells hs.isRow
  exact ⟨bs, hbs, fun ht => Segment.spells_append hs.ne_nil hbs ht⟩

/-- Whether a piece is the group that a segment is written as: it has the kind of the
segment and, in order, one branch for each alternative, which is what the alternative
alone is read as. -/
def Segment.IsReadAs (s : Segment) (p : Piece) : Prop :=
  ∃ bs, p = .group s.opening.kind bs ∧
    List.Forall₂ (fun a b => readPattern .grammar a = .ok [b]) s.alternatives bs

/-- Segments one after the other are read as one group each. -/
theorem exists_spells_flatMap_text {ss : List Segment} (h : ∀ s ∈ ss, s.IsFormed) :
    ∃ ps, Spells (ss.flatMap Segment.text) [ps] ∧ List.Forall₂ Segment.IsReadAs ss ps := by
  induction ss with
  | nil => exact ⟨[], .nil, .nil⟩
  | cons s ss ih =>
    obtain ⟨ps, hps, hall⟩ := ih fun x hx => h x (List.mem_cons_of_mem _ hx)
    obtain ⟨bs, hbs, hspell⟩ := (h s List.mem_cons_self).spells
    refine ⟨.group s.opening.kind bs :: ps, ?_, .cons ⟨bs, rfl, ?_⟩ hall⟩
    · exact hspell hps
    · exact hbs.imp fun _ _ hab => hab.readPattern

end FluentPattern
