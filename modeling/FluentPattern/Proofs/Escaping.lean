import FluentPattern.Proofs.Append
import FluentPattern.Proofs.Matching.Units

/-!
# Escaped text

Text is escaped for one of two places, outside or inside a class, and each place has special
characters of its own. In either place the escaped text is read as the characters of the text and as
nothing else, and so are the bounds of a range. Taking one `\` off each escape gives the text back,
and the escapes are no backreferences, so renumbering leaves them alone.

Main statements: `Spells.isReadAs`, `lexemes_escape_append`, `Text.isReadAs_escaped`.
-/

namespace FluentPattern

/-! ## Atoms in a row -/

/-- The text is read as pieces one after the other, by the grammar of the dialect and by the rules of
both engines. -/
structure Text.IsReadAs (t : Text) (b : Branch) : Prop where
  tokens : FluentPattern.tokens t = b.tokens
  grammar : readPattern .grammar t = .ok [b]
  basic : readPattern .basic t = .ok [b]
  extended : readExtended t = .ok [b]

/-- Whether every engine reads an atom: it is no backreference and has no range in the wrong
order. -/
def Atom.IsCommon (a : Atom) : Prop :=
  (Token.atom a).needsBacktracking = false ∧ a.hasReversedRange = false

section

variable {as : List Atom}

theorem Branch.tokens_map_atom (as : List Atom) :
    Branch.tokens (as.map .atom) = as.map .atom := by
  induction as with
  | nil => rfl
  | cons a as ih =>
    rw [List.map_cons, Branch.tokens, ih]
    rfl

theorem Branch.fault?_map_atom {rules : Rules}
    (h : ∀ a ∈ as, rules.refuse 0 none (.atom a) = none) :
    Branch.fault? rules 0 (as.map .atom) = none := by
  induction as with
  | nil => rfl
  | cons a as ih =>
    rw [List.map_cons, Branch.fault?_cons, Piece.fault?_atom, h a List.mem_cons_self,
      ih fun x hx => h x (List.mem_cons_of_mem _ hx)]
    rfl

theorem Atom.IsCommon.refuse_basic {a : Atom} (ha : a.IsCommon) :
    Rules.basic.refuse 0 none (.atom a) = none := by
  obtain ⟨hback, hrange⟩ := ha
  cases a with
  | groupAgain n => cases hback
  | bracket k => exact if_neg (ne_true_of_eq_false hrange)
  | _ => rfl

theorem Atom.IsCommon.refuse_extended {a : Atom} (ha : a.IsCommon) (bytes : Nat) :
    (Rules.extended bytes).refuse 0 none (.atom a) = none := by
  cases a with
  | groupAgain n => cases ha.1
  | _ => rfl

/-- Atoms that every engine reads are read in a row. -/
theorem Spells.isReadAs {t : Text} (h : Spells t [as.map .atom])
    (has : ∀ a ∈ as, a.IsCommon) : t.IsReadAs (as.map .atom) := by
  have htokens : tokens t = as.map .atom := by
    rw [h.tokens_eq, Branches.tokens_singleton, Branch.tokens_map_atom]
  have hread {rules : Rules} (hr : rules.IsLocal)
      (hrules : ∀ a ∈ as, rules.refuse 0 none (.atom a) = none) :
      FluentPattern.readPattern rules t = .ok [as.map .atom] := by
    rw [h.readPattern_rules hr, Branches.fault?_singleton, Branch.fault?_map_atom hrules]
    rfl
  have hback : ∀ x ∈ tokens t, x.needsBacktracking = false := by
    rw [htokens]
    exact List.forall_mem_map.2 fun a ha => (has a ha).1
  have hlate : (tokens t).findSome? Token.lateFault? = none := by
    rw [htokens, List.findSome?_eq_none_iff]
    exact List.forall_mem_map.2 fun a ha => if_neg (ne_true_of_eq_false (has a ha).2)
  have hplain : (tokens t).findSome? Token.plainFault? = none := by
    rw [htokens, List.findSome?_eq_none_iff]
    exact List.forall_mem_map.2 fun a _ => rfl
  have hextended := hread (Rules.isLocal_extended t.byteLength)
    fun a ha => (has a ha).refuse_extended _
  refine ⟨?_, h.readPattern, hread Rules.isLocal_basic fun a ha => (has a ha).refuse_basic, ?_⟩
  · rw [htokens, Branch.tokens_map_atom]
  · rw [FluentPattern.readPattern] at hextended
    rw [readExtended, hextended]
    show (if !referencesOpen 0 (tokens t) then _ else _) = _
    rw [referencesOpen_of_forall hback, hlate, List.any_eq_false.2 fun x hx => ?_, hplain]
    · rfl
    · exact ne_true_of_eq_false (hback x hx)

end

/-! ## Escapes -/

/-- A character as the lexeme that it is written as. -/
def Lexeme.ofChar (special : Char → Bool) (c : Char) : Lexeme :=
  if special c then .pair c else .plain c

/-- The lexeme without the `\` of an escape. -/
def Lexeme.unescaped : Lexeme → Text
  | pair c => [c]
  | l => l.text

/-- The text with one `\` taken off each escape. -/
def Text.unescaped (t : Text) : Text :=
  (lexemes t).flatMap Lexeme.unescaped

/-- The text is written with escapes and means some characters: taking the escapes off gives these,
there is no backreference, and so renumbering leaves the text alone. -/
structure Text.Escapes (t original : Text) : Prop where
  unescaped : t.unescaped = original
  countReferences : countReferences t = 0
  shiftReferences : ∀ offset, shiftReferences offset t = t

/-- Characters of which the special ones are escaped are read one by one. -/
theorem lexemes_escape_append {special : Char → Bool} (hbackslash : special '\\' = true)
    (hdigit : ∀ c, special c = true → c.isDigit = false) (t rest : Text) :
    lexemes (Text.escape special t ++ rest) = t.map (.ofChar special) ++ lexemes rest := by
  induction t with
  | nil => rfl
  | cons c t ih =>
    rw [Text.escape_cons, List.append_assoc, List.map_cons, List.cons_append, ← ih,
      Text.escapeChar, Lexeme.ofChar]
    cases hc : special c with
    | true => exact lexemes_pair (hdigit c hc) _
    | false =>
      refine lexemes_plain ?_ _
      rintro rfl
      rw [hbackslash] at hc
      cases hc

/-- A text that falls apart into characters and escapes means what is left of these. -/
theorem Text.escapes_of_lexemes {t : Text} {ls : List Lexeme} (ht : lexemes t = ls)
    (hls : ∀ l ∈ ls, l.isReference = false) : t.Escapes (ls.flatMap Lexeme.unescaped) := by
  refine ⟨?_, ?_, shiftReferences_of_fixed (ht ▸ hls)⟩
  · rw [Text.unescaped, ht]
  · rw [FluentPattern.countReferences, ht, List.countP_eq_zero]
    exact fun l hl => ne_true_of_eq_false (hls l hl)

theorem Lexeme.isReference_ofChar (special : Char → Bool) (c : Char) :
    (ofChar special c).isReference = false := by
  unfold ofChar
  split <;> rfl

theorem Lexeme.unescaped_ofChar (special : Char → Bool) (c : Char) :
    (ofChar special c).unescaped = [c] := by
  unfold ofChar
  split <;> rfl

/-- Characters of which the special ones are escaped mean these characters. -/
theorem Text.escapes_escape {special : Char → Bool} (hbackslash : special '\\' = true)
    (hdigit : ∀ c, special c = true → c.isDigit = false) (t : Text) :
    (escape special t).Escapes t := by
  have hlexemes := lexemes_escape_append hbackslash hdigit t []
  rw [List.append_nil, lexemes_nil, List.append_nil] at hlexemes
  have h := escapes_of_lexemes hlexemes (List.forall_mem_map.2 fun c _ =>
    Lexeme.isReference_ofChar special c)
  rw [List.flatMap_map] at h
  simpa only [Lexeme.unescaped_ofChar, List.flatMap_singleton'] using h

theorem Text.escapes_escapeOutside (t : Text) : t.escapeOutside.Escapes t :=
  escapes_escape rfl (fun _ hc => (escaped_of_isSpecialOutside hc).1) t

theorem Text.escapes_escapeInside (t : Text) : t.escapeInside.Escapes t :=
  escapes_escape rfl (fun _ hc => (escaped_of_isSpecialInside hc).1) t

/-- The members of a range mean its bounds with a dash between them. -/
theorem Text.escapes_rangeMembers (first last : Char) :
    (rangeMembers first last).Escapes [first, '-', last] := by
  have hinside (t rest : Text) :
      lexemes (t.escapeInside ++ rest) = t.map (.ofChar isSpecialInside) ++ lexemes rest :=
    lexemes_escape_append rfl (fun _ hc => (escaped_of_isSpecialInside hc).1) t rest
  have hlast := hinside [last] []
  rw [List.append_nil, lexemes_nil, List.append_nil] at hlast
  have hlexemes : lexemes (rangeMembers first last) =
      [.ofChar isSpecialInside first, .plain '-', .ofChar isSpecialInside last] := by
    rw [rangeMembers, hinside, lexemes_plain (by decide), hlast]
    rfl
  have hfixed : ∀ l ∈ [Lexeme.ofChar isSpecialInside first, .plain '-',
      .ofChar isSpecialInside last], l.isReference = false :=
    List.forall_mem_cons.2 ⟨Lexeme.isReference_ofChar _ _, List.forall_mem_cons.2 ⟨rfl,
      List.forall_mem_singleton.2 (Lexeme.isReference_ofChar _ _)⟩⟩
  have h := escapes_of_lexemes hlexemes hfixed
  simp only [List.flatMap_cons, List.flatMap_nil, Lexeme.unescaped_ofChar] at h
  exact h

/-! ## Classes -/

/-- The content that is a class of some members, or of all other characters. -/
def Content.classOf (negated : Bool) (members : Text) : Content :=
  if negated then .noneOf members else .oneOf members

theorem Content.literal_classOf (negated : Bool) (ms : List Token.Member) :
    (classOf negated (Token.membersText ms)).literal = classText negated ms [] := by
  cases negated <;> simp [classOf, literal, classText]

namespace BracketClass

/-- The class of some characters, or of all others. -/
def ofChars (negated : Bool) (members : Text) : BracketClass :=
  ⟨negated, members.map fun c => .range c c⟩

/-- The class of a range of characters, or of all others. -/
def ofRange (negated : Bool) (first last : Char) : BracketClass :=
  ⟨negated, [.range first last]⟩

/-- The characters of a class, where case is not ignored. -/
def charSet (k : BracketClass) : CharSet :=
  ⟨k.items, false, k.negated⟩

end BracketClass

theorem BracketClass.contains_ofRange (first last : Char) (negated : Bool) (c : Char) :
    (ofRange negated first last).charSet.contains c = true ↔
      (first ≤ c ∧ c ≤ last ↔ negated = false) := by
  have hlists : (ofRange negated first last).charSet.lists c = true ↔ first ≤ c ∧ c ≤ last := by
    simp only [CharSet.lists, charSet, ofRange, List.any_cons, List.any_nil, Bool.or_false,
      ClassItem.holds, Bool.and_eq_true, decide_eq_true_eq]
  rw [CharSet.contains, ← hlists, charSet, Bool.false_and, Bool.or_false, ofRange]
  cases negated <;> simp

/-- Escaped text is one character after the other. -/
theorem Text.isReadAs_chars (t : Text) :
    t.escapeOutside.IsReadAs (t.map fun c => .atom (.char c)) := by
  have hspells := spells_escapeOutside t
  have hrow : t.map (fun c => Piece.atom (.char c)) = (t.map Atom.char).map .atom := by
    rw [List.map_map]
    rfl
  rw [hrow] at hspells ⊢
  exact hspells.isReadAs (List.forall_mem_map.2 fun c _ => ⟨rfl, rfl⟩)

/-- A class without a range in the wrong order is read by every engine. -/
theorem Spells.isReadAs_bracket {t : Text} {k : BracketClass} (h : Spells t [[.atom (.bracket k)]])
    (hk : ∀ item ∈ k.items, item.isReversed = false) : t.IsReadAs [.atom (.bracket k)] := by
  have hcommon : (Atom.bracket k).IsCommon :=
    ⟨rfl, List.any_eq_false.2 fun item hitem => ne_true_of_eq_false (hk item hitem)⟩
  have hrow : Spells t [[Atom.bracket k].map .atom] := h
  exact hrow.isReadAs fun a ha => List.mem_singleton.1 ha ▸ hcommon

section

variable (negated : Bool)

/-- Escaped members in brackets are one class of their characters. -/
theorem Text.isReadAs_members {members : Text} (hne : members ≠ []) :
    (Content.classOf negated members.escapeInside).literal.IsReadAs
      [.atom (.bracket (.ofChars negated members))] := by
  rw [← Token.membersText_map_ofChar, Content.literal_classOf]
  refine (spells_class negated hne).isReadAs_bracket (List.forall_mem_map.2 fun c _ => ?_)
  exact decide_eq_false (Char.lt_irrefl c)

/-- Escaped bounds in brackets are one class of one range. -/
theorem Text.isReadAs_range {first last : Char} (hle : first ≤ last) :
    (Content.classOf negated (rangeMembers first last)).literal.IsReadAs
      [.atom (.bracket (.ofRange negated first last))] := by
  rw [← Token.membersText_between, Content.literal_classOf]
  have hspells := Spells.bracket negated (List.cons_ne_nil _ _)
    (fun _ => Token.Member.isWritable_of_mem_between) (Token.itemsOf_between first last) .nil
  refine hspells.isReadAs_bracket (List.forall_mem_singleton.2 ?_)
  exact decide_eq_false (Char.not_lt.2 hle)

end

/-- Escaped text is read as its characters. In brackets, escaped members are one class of exactly
these characters or of all others, and escaped bounds are one range. Each of the three means the
characters that it was made from once the escapes are taken off, and holds no backreference, so that
renumbering leaves it alone. -/
theorem Text.isReadAs_escaped (t : Text) {members : Text} (hne : members ≠ [])
    {first last : Char} (hle : first ≤ last) :
    (t.escapeOutside.Escapes t ∧
      t.escapeOutside.IsReadAs (t.map fun c => .atom (.char c))) ∧
    (members.escapeInside.Escapes members ∧ ∀ negated,
      (Content.classOf negated members.escapeInside).literal.IsReadAs
        [.atom (.bracket (.ofChars negated members))] ∧
      ∀ c, (BracketClass.ofChars negated members).charSet.contains c = true ↔
        (c ∈ members ↔ negated = false)) ∧
    ((rangeMembers first last).Escapes [first, '-', last] ∧ ∀ negated,
      (Content.classOf negated (rangeMembers first last)).literal.IsReadAs
        [.atom (.bracket (.ofRange negated first last))] ∧
      ∀ c, (BracketClass.ofRange negated first last).charSet.contains c = true ↔
        (first ≤ c ∧ c ≤ last ↔ negated = false)) := by
  refine ⟨⟨escapes_escapeOutside t, isReadAs_chars t⟩, ⟨escapes_escapeInside members,
    fun negated => ?_⟩, escapes_rangeMembers first last, fun negated => ?_⟩
  · exact ⟨isReadAs_members negated hne, CharSet.contains_ranges members negated⟩
  · exact ⟨isReadAs_range negated hle, BracketClass.contains_ofRange first last negated⟩

/-- Text that is special through and through: a closing bracket and a caret first, a doubled `&`, a
dash, and a backslash before a digit; and a range from `*` to `]`. -/
theorem Text.isReadAs_escaped_special :
    let t : Text := "]^&&-\\1".toList
    t ≠ [] ∧ '*' ≤ ']' ∧
      t.escapeOutside = "\\]\\^&&-\\\\1".toList ∧
      t.escapeOutside.IsReadAs (t.map fun c => .atom (.char c)) ∧
      (Content.classOf true t.escapeInside).literal = "[^\\]\\^\\&\\&\\-\\\\1]".toList ∧
      (BracketClass.ofChars true t).charSet.contains '-' = false ∧
      (Content.classOf false (rangeMembers '*' ']')).literal = "[*-\\]]".toList ∧
      (rangeMembers '*' ']').Escapes ['*', '-', ']'] := by
  intro t
  have hne : t ≠ [] := List.cons_ne_nil _ _
  have hle : '*' ≤ ']' := by decide
  obtain ⟨⟨-, hread⟩, ⟨-, hmembers⟩, hrange, -⟩ := isReadAs_escaped t hne hle
  have hdash : (BracketClass.ofChars true t).charSet.contains '-' = false := by
    rw [Bool.eq_false_iff, ne_eq, (hmembers true).2]
    decide
  exact ⟨hne, hle, by decide, hread, by decide, hdash, by decide, hrange⟩

end FluentPattern
