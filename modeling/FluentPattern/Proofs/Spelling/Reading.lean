import FluentPattern.Proofs.Spelling
import FluentPattern.Proofs.Tree

/-!
# Reading written patterns

The tokens of each part of the grammar, and what the reader makes of them. While a
text of the grammar is read, the groups around it stay as they are, and its pieces
and branches are added to the innermost one, unless the rules refuse a token: then the
first fault of the tree is the fault of the text.

Main statements: `Spells.tokens_append` (the tokens of a text are those of its tree),
`Spells.readPattern_rules` (the reader finds the branches that the grammar gives, or
their first fault), `Spells.readPattern`.
-/

namespace FluentPattern

/-! ## Tokens of the parts -/

theorem tokens_single {c : Char} {a : Atom} (h : Atom.ofChar? c = some a) (t : Text) :
    tokens (c :: t) = .atom a :: tokens t := by
  have hs : Token.scan c t = (.atom a, t) := by
    unfold Atom.ofChar? at h
    split at h <;> simp_all [Token.scan]
  rw [tokens_cons, hs]

theorem tokens_escape {c : Char} (hc : c.isDigit = false) (t : Text) :
    tokens ('\\' :: c :: t) = Token.escaped c :: tokens t := by
  have hs : Token.scan '\\' (c :: t) = (Token.escaped c, t) := by
    simp [Token.scan, Token.scanEscape, hc]
  rw [tokens_cons, hs]

theorem tokens_reference (n : Nat) {t : Text} (ht : t.startsWithDigit = false) :
    tokens ('\\' :: (Text.decimal n ++ t)) = .atom (.groupAgain n) :: tokens t := by
  obtain ⟨c, ds, hd⟩ := List.exists_cons_of_ne_nil (Text.decimal_ne_nil n)
  have hds : ∀ x ∈ c :: ds, x.isDigit = true := fun x hx =>
    Text.isDigit_of_mem_decimal (n := n) (hd ▸ hx)
  have hc := hds c List.mem_cons_self
  have hr : ∀ x ∈ ds, x.isDigit = true := fun x hx => hds x (List.mem_cons_of_mem _ hx)
  have hn : Text.readDecimal (c :: ds) = n := by rw [← hd, Text.readDecimal_decimal]
  have hs : Token.scan '\\' (c :: ds ++ t) = (.atom (.groupAgain n), t) := by
    rw [List.cons_append, Token.scan, Token.scanEscape, if_pos hc, Text.digits_append hr ht,
      Text.afterDigits_append hr ht, hn]
  rw [hd, tokens_cons, hs]

theorem scanMembers_membersText {ms : List Token.Member} (hm : ∀ m ∈ ms, m.IsWritable)
    (t : Text) : Token.scanMembers (Token.membersText ms ++ ']' :: t) = some (ms, t) := by
  induction ms with
  | nil => rw [Token.membersText, List.flatMap_nil, List.nil_append, Token.scanMembers]
  | cons m ms ih =>
    have ih := ih fun x hx => hm x (List.mem_cons_of_mem _ hx)
    have hw := hm m List.mem_cons_self
    rw [Token.membersText, List.flatMap_cons, List.append_assoc]
    cases m with
    | plain c =>
      obtain ⟨h₁, h₂, -, -⟩ := hw
      rw [Token.Member.text, List.singleton_append, Token.scanMembers]
      · rw [Token.membersText] at ih
        rw [ih]
        rfl
      · exact h₂
      · simp [h₁]
      · rintro _ _ rfl
        exact absurd rfl h₁
    | escaped c =>
      rw [Token.membersText] at ih
      rw [Token.Member.text, List.cons_append, List.singleton_append, Token.scanMembers, ih]
      rfl

/-- The first member of a class neither negates nor closes it. -/
theorem membersText_eq_cons {ms : List Token.Member} (hne : ms ≠ [])
    (hm : ∀ m ∈ ms, m.IsWritable) :
    ∃ c t, Token.membersText ms = c :: t ∧ c ≠ '^' ∧ c ≠ ']' := by
  obtain ⟨m, ms, rfl⟩ := List.exists_cons_of_ne_nil hne
  have hw := hm m List.mem_cons_self
  cases m with
  | plain c => exact ⟨c, _, rfl, hw.2.2.2, hw.2.1⟩
  | escaped c => exact ⟨'\\', _, rfl, by decide, by decide⟩

theorem tokens_bracket (negated : Bool) {ms : List Token.Member} {items : List ClassItem}
    (hne : ms ≠ []) (hm : ∀ m ∈ ms, m.IsWritable) (hi : Token.itemsOf ms = .ok items)
    (t : Text) :
    tokens (classText negated ms t) = .atom (.bracket ⟨negated, items⟩) :: tokens t := by
  obtain ⟨c, u, hcu, h₁, h₂⟩ := membersText_eq_cons hne hm
  have hbody : Token.scanClassBody (Token.membersText ms ++ ']' :: t) = some (ms, t) := by
    rw [← scanMembers_membersText hm t, hcu, List.cons_append, Token.scanClassBody]
    exact fun _ h => h₂ (List.cons.inj h).1
  have hneg : Token.scanNegation
      ((if negated then ['^'] else []) ++ (Token.membersText ms ++ ']' :: t)) =
        (negated, Token.membersText ms ++ ']' :: t) := by
    cases negated with
    | true => rfl
    | false =>
      rw [hcu]
      exact Token.scanNegation.eq_2 _ fun _ h => h₁ (List.cons.inj h).1
  have hs : Token.scan '[' ((if negated then ['^'] else []) ++
      (Token.membersText ms ++ ']' :: t)) = (.atom (.bracket ⟨negated, items⟩), t) := by
    rw [Token.scan, Token.scanClass, hneg]
    simp only [hbody, hi]
  rw [classText, tokens_cons, hs]

theorem tokens_opening {k : GroupKind} (hk : k.IsWritable) {t : Text}
    (ht : t.head? ≠ some '?') : tokens (k.text ++ t) = .opening k :: tokens t := by
  cases k with
  | capture =>
    have hs : Token.scanGroup t = (.opening .capture, t) := by
      unfold Token.scanGroup
      split <;> simp_all
    exact (tokens_cons '(' t).trans (by rw [Token.scan, hs])
  | flagged fs =>
    obtain ⟨i, m, g⟩ := fs
    obtain ⟨hne, hg⟩ := hk
    obtain rfl : g = false := hg
    rw [GroupKind.text, List.cons_append, tokens_cons]
    cases i <;> cases m
    · exact absurd rfl hne
    all_goals rfl
  | _ => exact tokens_cons '(' _

theorem tokens_closing (t : Text) : tokens (')' :: t) = .closing :: tokens t :=
  tokens_cons ')' t

theorem tokens_bar (t : Text) : tokens ('|' :: t) = .bar :: tokens t :=
  tokens_cons '|' t

theorem tokens_quantity (q : Quantity) {t : Text} (ht : t.head? ≠ some '?') :
    tokens (q.text ++ t) = .quantity q :: tokens t := by
  obtain ⟨m, n, g⟩ := q
  have isDigit {k : Nat} : ∀ c ∈ Text.decimal k, c.isDigit = true :=
    fun c hc => Text.isDigit_of_mem_decimal hc
  have hr (least : Nat) (most : Option Nat) :
      Token.scanReluctance least most ((if g then [] else ['?']) ++ t) =
        (.quantity ⟨least, most, g⟩, t) := by
    cases g with
    | false => rfl
    | true =>
      refine Token.scanReluctance.eq_2 _ _ _ ?_
      rintro u rfl
      exact ht rfl
  have hu (whole : Text) : Token.scanUpperBound m whole
      (n.elim [] Text.decimal ++ '}' :: ((if g then [] else ['?']) ++ t)) =
        (.quantity ⟨m, n, g⟩, t) := by
    have hd : ∀ c ∈ n.elim [] Text.decimal, c.isDigit = true := by
      cases n with
      | none => simp
      | some n => exact isDigit
    rw [Token.scanUpperBound, Text.afterDigits_append hd (by rfl), Text.digits_append hd (by rfl)]
    cases n with
    | none => exact hr m none
    | some n =>
      have hne : (Text.decimal n).isEmpty = false := by
        simpa using Text.decimal_ne_nil n
      simp only [Option.elim, hne, Text.readDecimal_decimal]
      exact hr m (some n)
  have hs : Token.scan '{' (Text.decimal m ++ ',' :: (n.elim [] Text.decimal ++
      '}' :: ((if g then [] else ['?']) ++ t))) = (.quantity ⟨m, n, g⟩, t) := by
    have hne : (Text.decimal m).isEmpty = false := by
      simpa using Text.decimal_ne_nil m
    rw [Token.scan, Token.scanBounds, Text.afterDigits_append isDigit (by rfl),
      Text.digits_append isDigit (by rfl), Text.readDecimal_decimal, hne]
    exact hu _
  simp only [Quantity.text, List.cons_append, List.append_assoc]
  rw [tokens_cons, hs]

theorem tokens_suffix (q : Option Quantity) {t : Text} (ht : t.head? ≠ some '?') :
    tokens (Quantity.suffix q ++ t) = (q.map Token.quantity).toList ++ tokens t := by
  cases q with
  | none => rfl
  | some q => exact tokens_quantity q ht

/-! ## What the reader makes of a text -/

/-- A group in progress after branches are read: the first one goes on with the branch
in progress, and a bar stands before each other one. -/
def Unfinished.read (u : Unfinished) : Branches → Unfinished
  | [] => u
  | [b] => { u with pieces := b.reverse ++ u.pieces }
  | b :: bs => ({ u with pieces := b.reverse ++ u.pieces } : Unfinished).endBranch.read bs

theorem Unfinished.read_nil_cons {bs : Branches} (hbs : bs ≠ []) (u : Unfinished) :
    u.read ([] :: bs) = u.endBranch.read bs := by
  obtain ⟨b, bs, rfl⟩ := List.exists_cons_of_ne_nil hbs
  rfl

theorem Unfinished.read_cons_cons (p : Piece) (b : Branch) (bs : Branches) (u : Unfinished) :
    u.read ((p :: b) :: bs) = (u.add p).read (b :: bs) := by
  cases bs with
  | nil => simp [Unfinished.read, Unfinished.add]
  | cons c bs => simp [Unfinished.read, Unfinished.add]

theorem Unfinished.close_read (b : Branch) (bs : Branches) (u : Unfinished) :
    (u.read (b :: bs)).close = u.branches.reverse ++ (u.pieces.reverse ++ b) :: bs := by
  induction bs generalizing b u with
  | nil => simp [Unfinished.read, Unfinished.close, Unfinished.endBranch]
  | cons c bs ih =>
    rw [Unfinished.read, ih]
    · simp [Unfinished.endBranch]
    · simp

theorem Unfinished.close_read_empty {bs : Branches} (hbs : bs ≠ []) :
    (({} : Unfinished).read bs).close = bs := by
  obtain ⟨b, bs, rfl⟩ := List.exists_cons_of_ne_nil hbs
  exact Unfinished.close_read b bs {}

/-- Rules that look at the piece before a token only where the token is a quantity or a
brace, and that refuse no bar and no end of a group. -/
structure Rules.IsLocal (rules : Rules) : Prop where
  atom : ∀ depth before a, rules.refuse depth before (.atom a) = rules.refuse depth none (.atom a)
  flags : ∀ depth before fs,
    rules.refuse depth before (.flags fs) = rules.refuse depth none (.flags fs)
  opening : ∀ depth before k,
    rules.refuse depth before (.opening k) = rules.refuse depth none (.opening k)
  closing : ∀ depth before, rules.refuse depth before .closing = none
  bar : ∀ depth before, rules.refuse depth before .bar = none

theorem Rules.isLocal_grammar : Rules.grammar.IsLocal :=
  ⟨fun _ _ _ => rfl, fun _ _ _ => rfl, fun _ _ _ => rfl, fun _ _ => rfl, fun _ _ => rfl⟩

theorem Rules.isLocal_basic : Rules.basic.IsLocal :=
  ⟨fun _ _ _ => rfl, fun _ _ _ => rfl, fun _ _ _ => rfl, fun _ _ => rfl, fun _ _ => rfl⟩

theorem Rules.isLocal_extended (bytes : Nat) : (Rules.extended bytes).IsLocal :=
  ⟨fun _ _ a => by cases a <;> rfl, fun _ _ _ => rfl, fun _ _ _ => rfl, fun _ _ => rfl,
    fun _ _ => rfl⟩

namespace Reading

/-- The fault, if there is one, or else what comes next. -/
def faultOr (fault : Option Fault) (next : Except Fault Reading) : Except Fault Reading :=
  fault.elim next .error

theorem faultOr_or (f g : Option Fault) (next : Except Fault Reading) :
    faultOr (f.or g) next = faultOr f (faultOr g next) := by
  cases f <;> rfl

/-- A token is read after the fault that the rules find in it. -/
theorem readAll_cons (rules : Rules) (r : Reading) (t : Token) (ts : List Token) :
    r.readAll rules (t :: ts) =
      faultOr (rules.refuse r.depth r.inner.pieces.head? t)
        (match r.accept t with
        | .ok r => r.readAll rules ts
        | .error f => .error f) := by
  rw [readAll, step]
  cases rules.refuse r.depth r.inner.pieces.head? t <;> rfl

/-- The quantity after a group applies to the group. -/
theorem readAll_suffix (rules : Rules) (q : Option Quantity) (k : GroupKind) (cs : Branches)
    (r : Reading) (ts : List Token) :
    (r.add (.group k cs)).readAll rules ((q.map Token.quantity).toList ++ ts) =
      faultOr (q.bind fun q => rules.refuse r.depth (some (.group k cs)) (.quantity q))
        ((r.add (Piece.times q (.group k cs))).readAll rules ts) := by
  cases q with
  | none => rfl
  | some q => exact readAll_cons rules _ _ _

end Reading

open Reading (faultOr)

theorem Piece.fault?_times (rules : Rules) (depth : Nat) (q : Option Quantity) (p : Piece) :
    (Piece.times q p).fault? rules depth =
      (p.fault? rules depth).or (q.bind fun q => rules.refuse depth (some p) (.quantity q)) := by
  cases q with
  | none => exact (Option.or_none).symm
  | some q => exact Piece.fault?_repeated rules depth q p

/-- A text of the grammar is read up to its end, and its branches are added to the
innermost open group, unless the tree of the text has a fault. -/
theorem Spells.readAll {t : Text} {bs : Branches} (h : Spells t bs) {rules : Rules}
    (hr : rules.IsLocal) {u : Text} (hd : u.startsWithDigit = false) (hq : u.head? ≠ some '?')
    (r : Reading) :
    r.readAll rules (tokens (t ++ u)) =
      faultOr (Branches.fault? rules r.depth bs)
        (Reading.readAll rules { r with inner := r.inner.read bs } (tokens u)) := by
  induction h generalizing u r with
  | nil => rfl
  | bar ht ih =>
    rw [List.cons_append, tokens_bar, Unfinished.read_nil_cons ht.ne_nil, Reading.readAll_cons,
      hr.bar]
    exact ih hd hq { r with inner := r.inner.endBranch }
  | single ha _ ih =>
    rw [List.cons_append, tokens_single ha, Unfinished.read_cons_cons, Reading.readAll_cons,
      hr.atom, Branches.fault?_cons_cons, Piece.fault?_atom,
      Reading.faultOr_or]
    exact congrArg (faultOr _) (ih hd hq (r.add _))
  | escape hc ha _ ih =>
    rw [List.cons_append, List.cons_append, tokens_escape hc, ha, Unfinished.read_cons_cons,
      Reading.readAll_cons, hr.atom, Branches.fault?_cons_cons, Piece.fault?_atom,
      Reading.faultOr_or]
    exact congrArg (faultOr _) (ih hd hq (r.add _))
  | @reference n t _ _ ht _ ih =>
    have htr : (t ++ u).startsWithDigit = false := by
      cases t with
      | nil => exact hd
      | cons c t => exact ht
    rw [List.cons_append, List.append_assoc, tokens_reference n htr, Unfinished.read_cons_cons,
      Reading.readAll_cons, hr.atom, Branches.fault?_cons_cons, Piece.fault?_atom,
      Reading.faultOr_or]
    exact congrArg (faultOr _) (ih hd hq (r.add _))
  | @bracket negated ms _ t _ _ hne hm hi _ ih =>
    rw [classText_append, tokens_bracket negated hne hm hi, Unfinished.read_cons_cons,
      Reading.readAll_cons, hr.atom, Branches.fault?_cons_cons, Piece.fault?_atom,
      Reading.faultOr_or]
    exact congrArg (faultOr _) (ih hd hq (r.add _))
  | @group k q s t cs _ _ hk hs ht ihs iht =>
    have hqt : (t ++ u).head? ≠ some '?' := ht.head?_append_ne hq
    have hqs : (s ++ ')' :: (Quantity.suffix q ++ (t ++ u))).head? ≠ some '?' :=
      hs.head?_append_ne (by simp)
    have hopen := ihs (u := ')' :: (Quantity.suffix q ++ (t ++ u))) rfl (by simp)
      ⟨{}, (k, r.inner) :: r.outer⟩
    have hclose := iht hd hq (r.add (Piece.times q (.group k cs)))
    simp only [List.append_assoc, List.cons_append]
    rw [tokens_opening hk hqs, Reading.readAll_cons, hr.opening, Unfinished.read_cons_cons,
      Branches.fault?_cons_cons, Piece.fault?_times, Piece.fault?_group, Reading.faultOr_or,
      Reading.faultOr_or, Reading.faultOr_or]
    refine congrArg (faultOr _) (hopen.trans (congrArg (faultOr _) ?_))
    rw [tokens_closing, tokens_suffix q hqt, Reading.readAll_cons, hr.closing]
    show Reading.readAll rules
      ⟨r.inner.add (.group k (({} : Unfinished).read cs).close), r.outer⟩ _ = _
    rw [Unfinished.close_read_empty hs.ne_nil]
    refine (Reading.readAll_suffix rules q k cs r _).trans (congrArg (faultOr _) hclose)

/-- The reader finds the branches that the grammar gives, unless their tree has a fault. -/
theorem Spells.readPattern_rules {t : Text} {bs : Branches} (h : Spells t bs) {rules : Rules}
    (hr : rules.IsLocal) :
    FluentPattern.readPattern rules t = (Branches.fault? rules 0 bs).elim (.ok bs) .error := by
  have hread := h.readAll hr (u := []) rfl (by simp) {}
  rw [List.append_nil] at hread
  rw [FluentPattern.readPattern, readTokens, hread, tokens_nil]
  show (match faultOr (Branches.fault? rules 0 bs) _ with | .ok r => r.finish | .error f => _) = _
  cases Branches.fault? rules 0 bs with
  | some f => rfl
  | none => exact congrArg Except.ok (Unfinished.close_read_empty h.ne_nil)

/-- The rules of the grammar find no fault in a text of the grammar. -/
theorem Spells.fault?_grammar {t : Text} {bs : Branches} (h : Spells t bs) (depth : Nat) :
    Branches.fault? .grammar depth bs = none := by
  induction h generalizing depth with
  | nil => rfl
  | bar _ ih => exact ih depth
  | single _ _ ih | escape _ _ _ ih | reference _ _ _ ih | bracket _ _ _ _ _ ih =>
    rw [Branches.fault?_cons_cons, ih]
    rfl
  | group k q _ _ _ ihs iht =>
    rw [Branches.fault?_cons_cons, Piece.fault?_times, Piece.fault?_group, ihs, iht]
    cases q <;> rfl

/-- The reader finds the branches that the grammar gives. -/
theorem Spells.readPattern {t : Text} {bs : Branches} (h : Spells t bs) :
    readPattern .grammar t = .ok bs := by
  rw [h.readPattern_rules Rules.isLocal_grammar, h.fault?_grammar]
  rfl

/-! ## The tokens of a text -/

/-- The tokens of a text of the grammar are those of its tree. -/
theorem Spells.tokens_append {t : Text} {bs : Branches} (h : Spells t bs) {u : Text}
    (hd : u.startsWithDigit = false) (hq : u.head? ≠ some '?') :
    tokens (t ++ u) = bs.tokens ++ tokens u := by
  induction h generalizing u with
  | nil => rfl
  | bar ht ih =>
    rw [List.cons_append, tokens_bar, ih hd hq, Branches.tokens_cons ht.ne_nil]
    rfl
  | single ha _ ih =>
    rw [List.cons_append, tokens_single ha, ih hd hq, Branches.tokens_cons_cons]
    rfl
  | escape hc ha _ ih =>
    rw [List.cons_append, List.cons_append, tokens_escape hc, ha, ih hd hq,
      Branches.tokens_cons_cons]
    rfl
  | @reference n t _ _ ht _ ih =>
    have htr : (t ++ u).startsWithDigit = false := by
      cases t with
      | nil => exact hd
      | cons c t => exact ht
    rw [List.cons_append, List.append_assoc, tokens_reference n htr, ih hd hq,
      Branches.tokens_cons_cons]
    rfl
  | bracket negated hne hm hi _ ih =>
    rw [classText_append, tokens_bracket negated hne hm hi, ih hd hq, Branches.tokens_cons_cons]
    rfl
  | @group k q s t cs _ _ hk hs ht ihs iht =>
    have hqt : (t ++ u).head? ≠ some '?' := ht.head?_append_ne hq
    have hqs : (s ++ ')' :: (Quantity.suffix q ++ (t ++ u))).head? ≠ some '?' :=
      hs.head?_append_ne (by simp)
    have htimes : (Piece.times q (.group k cs)).tokens =
        Token.opening k :: (cs.tokens ++ .closing :: (q.map Token.quantity).toList) := by
      cases q <;> simp [Piece.times, Piece.tokens]
    simp only [List.append_assoc, List.cons_append]
    rw [tokens_opening hk hqs, ihs rfl (by simp), tokens_closing, tokens_suffix q hqt, iht hd hq,
      Branches.tokens_cons_cons, htimes]
    simp only [List.append_assoc, List.cons_append]

theorem Spells.tokens_eq {t : Text} {bs : Branches} (h : Spells t bs) : tokens t = bs.tokens := by
  have ht := h.tokens_append (u := []) rfl (by simp)
  rwa [List.append_nil, tokens_nil, List.append_nil] at ht

end FluentPattern
