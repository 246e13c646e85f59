import FluentPattern.Compiled
import FluentPattern.Proofs.Row

/-!
# Trees of finished patterns

The flags of a finished pattern stand in front of its literal where it is compiled, and
in a group around the literal where it is embedded. So the tree of the expression and
the tree of an embedded copy are made from the tree of the literal.

Main statements: `Built.readPattern_expression`, `Built.compile_eq_ok`,
`Built.compiles_basic_iff`, `Built.compiles_extended_iff` (what each engine asks of the tree),
`Built.spells_embedded`.
-/

namespace FluentPattern

/-! ## Flags inside a pattern -/

/-- The flags that are written inside a pattern, if there are any. -/
def Flags.inline? (fs : Flags) : Option Flags :=
  if fs.inlineCode.isEmpty then none else some { fs with everyMatch := false }

theorem Flags.inlineCode_inline (fs : Flags) :
    Flags.inlineCode { fs with everyMatch := false } = fs.inlineCode := by
  obtain ⟨i, m, g⟩ := fs
  cases i <;> cases m <;> cases g <;> rfl

theorem Flags.isWritable_of_inline? {fs gs : Flags} (h : fs.inline? = some gs) :
    (GroupKind.flagged gs).IsWritable ∧ gs.inlineCode = fs.inlineCode := by
  unfold inline? at h
  split at h
  · cases h
  · rename_i hne
    obtain rfl := Option.some.inj h
    rw [inlineCode_inline]
    refine ⟨⟨?_, rfl⟩, rfl⟩
    rw [inlineCode_inline]
    simpa using hne

/-- The flags in front of a pattern are one token. -/
theorem tokens_inlineGroup (fs : Flags) (t : Text) :
    tokens (fs.inlineGroup ++ t) = (fs.inline?.map Token.flags).toList ++ tokens t := by
  obtain ⟨i, m, g⟩ := fs
  cases i <;> cases m
  · cases g <;> rfl
  all_goals
    cases g
    all_goals exact tokens_cons '(' _

namespace Built

variable (p : Built)

/-! ## The tree of the expression -/

/-- The pieces of an expression whose literal has the pieces `b`. -/
def expressionRow (b : Branch) : Branch :=
  (p.flags.inline?.map Piece.flags).toList ++ b

variable {p} {b : Branch}

theorem tokens_expression : tokens p.expression.text =
    (p.flags.inline?.map Token.flags).toList ++ tokens p.literal :=
  tokens_inlineGroup p.flags p.literal

theorem tokens_expressionRow :
    (p.expressionRow b).tokens = (p.flags.inline?.map Token.flags).toList ++ b.tokens := by
  unfold expressionRow
  cases p.flags.inline? <;> rfl

/-- The tokens of an expression are those of its tree. -/
theorem tokens_expression_eq (hb : Spells p.literal [b]) :
    tokens p.expression.text = (p.expressionRow b).tokens := by
  rw [tokens_expression, tokens_expressionRow, hb.tokens_eq, Branches.tokens_singleton]

/-- The expression is read up to its end, unless its pieces have a fault. -/
theorem readAll_expression (hb : Spells p.literal [b]) {rules : Rules} (hr : rules.IsLocal) :
    Reading.readAll rules {} (tokens p.expression.text) =
      Reading.faultOr (Branch.fault? rules 0 (p.expressionRow b))
        (.ok ⟨⟨[], (p.expressionRow b).reverse⟩, []⟩) := by
  have hread (r : Reading) := hb.readAll hr (u := []) rfl (by simp) r
  rw [List.append_nil, tokens_nil] at hread
  rw [tokens_expression, expressionRow]
  cases p.flags.inline? with
  | none =>
    refine (hread {}).trans ?_
    rw [Branches.fault?_singleton]
    exact congrArg (Reading.faultOr _) (by simp [Reading.readAll, Unfinished.read])
  | some fs =>
    have h := hread (Reading.add {} (.flags fs))
    rw [Branches.fault?_singleton] at h
    refine (Reading.readAll_cons rules {} (.flags fs) _).trans ?_
    show _ = Reading.faultOr (Branch.fault? rules 0 (.flags fs :: b)) _
    rw [hr.flags, Branch.fault?_cons, Piece.fault?_flags, Reading.faultOr_or]
    refine congrArg (Reading.faultOr _) (h.trans (congrArg (Reading.faultOr _) ?_))
    simp [Reading.readAll, Reading.add, Unfinished.add, Unfinished.read]

/-- The reader finds the pieces of the expression, unless they have a fault. -/
theorem readPattern_expression (hb : Spells p.literal [b]) {rules : Rules} (hr : rules.IsLocal) :
    readPattern rules p.expression.text =
      (Branch.fault? rules 0 (p.expressionRow b)).elim (.ok [p.expressionRow b]) .error := by
  rw [readPattern, readTokens, readAll_expression hb hr]
  cases Branch.fault? rules 0 (p.expressionRow b) with
  | some f => rfl
  | none => simp [Reading.faultOr, Reading.finish, Unfinished.close, Unfinished.endBranch]

/-! ## Compiled patterns -/

theorem value_compile : p.compile.value =
    ((readFor p.engine p.expression.text).map fun bs =>
      ⟨.ofBranches p.expression bs, p.flags⟩).mapError (CompileError.mk p.engine) := by
  have hengine : p.expression.engine = p.engine := rfl
  unfold compile Expression.compile
  rw [hengine]
  cases readFor p.engine p.expression.text <;> rfl

theorem compile_eq_ok_iff {c : Compiled} : p.compile.value = .ok c ↔
    ∃ bs, readFor p.engine p.expression.text = .ok bs ∧
      c = ⟨.ofBranches p.expression bs, p.flags⟩ := by
  rw [value_compile]
  cases readFor p.engine p.expression.text with
  | ok bs => simp [Except.map, Except.mapError, eq_comm]
  | error f => simp [Except.map, Except.mapError]

theorem compile_eq_error_iff {e : CompileError} : p.compile.value = .error e ↔
    ∃ f, readFor p.engine p.expression.text = .error f ∧ e = ⟨p.engine, f⟩ := by
  rw [value_compile]
  cases readFor p.engine p.expression.text with
  | ok bs => simp [Except.map, Except.mapError]
  | error f => simp [Except.map, Except.mapError, eq_comm]

variable (p) in
/-- Why the engine refuses the expression, if it does. -/
def fault? : Option Fault :=
  match readFor p.engine p.expression.text with
  | .ok _ => none
  | .error f => some f

theorem compiles_of_fault? (h : p.fault? = none) : ∃ c, p.compile.value = .ok c := by
  unfold fault? at h
  split at h
  · rename_i bs hbs
    exact ⟨_, compile_eq_ok_iff.2 ⟨bs, hbs, rfl⟩⟩
  · cases h

theorem compile_of_fault? {f : Fault} (h : p.fault? = some f) :
    p.compile.value = .error ⟨p.engine, f⟩ := by
  unfold fault? at h
  split at h
  · cases h
  · rename_i g hg
    exact compile_eq_error_iff.2 ⟨g, hg, by rw [Option.some.inj h]⟩

/-- The basic engine looks for a fault in the tree, and then at its size. -/
theorem readBasic_expression (hb : Spells p.literal [b]) :
    readBasic p.expression.text =
      match Branch.fault? .basic 0 (p.expressionRow b) with
      | some f => .error f
      | none =>
        if Branches.depth [p.expressionRow b] > basicDepth then .error .tooDeep
        else if Branches.weight [p.expressionRow b] > basicWeight then .error .tooLarge
        else .ok [p.expressionRow b] := by
  rw [readBasic, readPattern_expression hb Rules.isLocal_basic]
  cases Branch.fault? .basic 0 (p.expressionRow b) <;> rfl

/-- The extended engine looks for a fault in the tree, then at the backreferences, and then
at bounds and ranges. -/
theorem readExtended_expression (hb : Spells p.literal [b]) :
    readExtended p.expression.text =
      match Branch.fault? (.extended (Text.byteLength p.expression.text)) 0 (p.expressionRow b) with
      | some f => .error f
      | none =>
        if !referencesOpen 0 (p.expressionRow b).tokens then .error .noSuchGroup
        else
          match (p.expressionRow b).tokens.findSome? Token.lateFault? with
          | some f => .error f
          | none =>
            if (p.expressionRow b).tokens.any Token.needsBacktracking then
              .ok [p.expressionRow b]
            else
              match (p.expressionRow b).tokens.findSome? Token.plainFault? with
              | some f => .error f
              | none => .ok [p.expressionRow b] := by
  have ht := tokens_expression_eq hb
  have hr := readPattern_expression hb
    (Rules.isLocal_extended (Text.byteLength p.expression.text))
  rw [readPattern, ht] at hr
  rw [readExtended, ht, hr]
  cases Branch.fault? _ 0 (p.expressionRow b) <;> rfl

/-- What an engine admits of an expression is its tree. -/
theorem eq_of_readFor (hb : Spells p.literal [b]) {bs : Branches}
    (h : readFor p.engine p.expression.text = .ok bs) : bs = [p.expressionRow b] := by
  cases he : p.engine with
  | basic =>
    rw [he, readFor, readBasic_expression hb] at h
    split at h
    · cases h
    · split at h
      · cases h
      · split at h <;> cases h
        rfl
  | extended =>
    rw [he, readFor, readExtended_expression hb] at h
    grind

/-- A compiled pattern was made from the tree of its literal. -/
theorem compile_eq_ok (hb : Spells p.literal [b]) {c : Compiled} (h : p.compile.value = .ok c) :
    c = ⟨.ofBranches p.expression [p.expressionRow b], p.flags⟩ := by
  obtain ⟨bs, hbs, rfl⟩ := compile_eq_ok_iff.1 h
  rw [eq_of_readFor hb hbs]

theorem compiles_iff :
    (∃ c, p.compile.value = .ok c) ↔ ∃ bs, readFor p.engine p.expression.text = .ok bs := by
  simp only [compile_eq_ok_iff]
  exact ⟨fun ⟨_, bs, h, _⟩ => ⟨bs, h⟩, fun ⟨bs, h⟩ => ⟨_, bs, h, rfl⟩⟩

/-- What the basic engine asks of a tree. -/
theorem compiles_basic_iff (hb : Spells p.literal [b]) (he : p.extended = false) :
    (∃ c, p.compile.value = .ok c) ↔
      Branch.fault? .basic 0 (p.expressionRow b) = none ∧
        Branches.depth [p.expressionRow b] ≤ basicDepth ∧
          Branches.weight [p.expressionRow b] ≤ basicWeight := by
  have hengine : p.engine = .basic := by rw [engine, he]; rfl
  rw [compiles_iff, hengine, readFor, readBasic_expression hb]
  cases Branch.fault? .basic 0 (p.expressionRow b) with
  | some f => simp
  | none =>
    dsimp only
    split
    · simp; omega
    · split
      · simp; omega
      · simp; omega

/-- What the extended engine asks of a tree. -/
theorem compiles_extended_iff (hb : Spells p.literal [b]) (he : p.extended = true) :
    (∃ c, p.compile.value = .ok c) ↔
      Branch.fault? (.extended (Text.byteLength p.expression.text)) 0 (p.expressionRow b) = none ∧
        referencesOpen 0 (p.expressionRow b).tokens = true ∧
          (∀ t ∈ (p.expressionRow b).tokens, t.lateFault? = none) ∧
            ((p.expressionRow b).tokens.any Token.needsBacktracking = false →
              ∀ t ∈ (p.expressionRow b).tokens, t.plainFault? = none) := by
  have hengine : p.engine = .extended := by rw [engine, he]; rfl
  rw [compiles_iff, hengine, readFor, readExtended_expression hb, ← List.findSome?_eq_none_iff,
    ← List.findSome?_eq_none_iff]
  cases Branch.fault? _ 0 (p.expressionRow b) <;>
    cases referencesOpen 0 (p.expressionRow b).tokens <;>
      cases (p.expressionRow b).tokens.findSome? Token.lateFault? <;>
        cases (p.expressionRow b).tokens.any Token.needsBacktracking <;>
          cases (p.expressionRow b).tokens.findSome? Token.plainFault? <;> simp

/-! ## Embedded patterns -/

variable (p) in
/-- The pieces of a pattern as it is embedded, whose literal has the pieces `b`. -/
def scopedRow (b : Branch) : Branch :=
  match p.flags.inline? with
  | none => b
  | some fs => [.group (.flagged fs) [b]]

theorem spells_scopedLiteral (hb : Spells p.literal [b]) :
    Spells p.scopedLiteral [p.scopedRow b] := by
  unfold scopedRow scopedLiteral
  cases h : p.flags.inline? with
  | none =>
    have hcode : p.flags.inlineCode.isEmpty = true := by
      unfold Flags.inline? at h
      split at h
      · assumption
      · cases h
    rwa [if_pos hcode]
  | some fs =>
    obtain ⟨hw, hcode⟩ := Flags.isWritable_of_inline? h
    have hg := Spells.group (.flagged fs) none hw hb .nil
    have hne : p.flags.inlineCode.isEmpty = false := by
      simpa [← hcode] using hw.1
    rw [hne]
    simpa [GroupKind.text, Quantity.suffix, Piece.times, hcode] using hg

theorem mapAtoms_scopedRow (f : Atom → Atom) :
    Branch.mapAtoms f (p.scopedRow b) = p.scopedRow (Branch.mapAtoms f b) := by
  unfold scopedRow
  cases p.flags.inline? <;> rfl

/-- An embedded pattern has the tree of its literal with its backreferences moved. -/
theorem spells_embedded (hb : Spells p.literal [b]) (offset : Nat) :
    Spells (p.embedded offset) [p.scopedRow (Branch.mapAtoms (Atom.shift offset) b)] := by
  have hs := (spells_scopedLiteral hb).shift offset
  rwa [Branches.mapAtoms, Branches.mapAtoms, mapAtoms_scopedRow] at hs

end Built

end FluentPattern
