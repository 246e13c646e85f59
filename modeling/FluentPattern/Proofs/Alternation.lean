import FluentPattern.Proofs.Embedding
import FluentPattern.Proofs.Matching.Anchored

/-!
# Alternations

A pattern that matches one of some alternatives, and that from the start of the input to
its end, matches exactly the inputs that one of the alternatives matches so alone. Each
alternative stands in a group of its own behind the groups of those before it, and keeps its
flags and its backreferences to itself. If another alternative asks for the extended engine,
then an alternative that does not is matched by that engine as well: it may prefer other
ways there, but they stop at the same positions.

Main statements: `Call.build_alternation`, `Choice.stopsAt_embedded` (an alternative in any
place), `Call.isMatch_alternation`.
-/

namespace FluentPattern

/-! ## Choices -/

/-- What is offered as an alternative: a text, or a pattern given by its calls. -/
inductive Choice where
  /-- A text, meaning exactly one of it. -/
  | text (t : Text)
  /-- A pattern. -/
  | pattern (calls : List Call)

namespace Choice

/-- The call that offers it. -/
def call (w : OperandWord) : Choice → Call
  | text t => .textOperand w t
  | pattern calls => .patternOperand w calls

/-- The calls of the pattern that it means. -/
def calls : Choice → List Call
  | text t => [.text .once t]
  | pattern calls => calls

/-- The pattern that it means. -/
def built (x : Choice) : Built :=
  (Call.build x.calls).value

theorem value_apply_call (w : OperandWord) (b : Builder) (x : Choice) :
    ((x.call w).apply b).value = (w.apply b (.pattern (Call.builder x.calls))).value := by
  cases x with
  | pattern calls => cases w <;> rfl
  | text t =>
    cases w with
    | or => exact (b.value_or (.text t)).trans (b.value_or (.pattern _)).symm
    | _ => rfl

/-- The alternatives as they are written, behind some groups. -/
def alternatives (groups : Nat) : List Choice → List Text
  | [] => []
  | x :: xs =>
    (x.built.embedded groups).wrapped :: alternatives (groups + x.built.groups) xs

end Choice

/-- An alternation from the start of the input to its end. -/
def Call.alternation (x : Choice) (xs : List Choice) : List Call :=
  .word .inputStart :: x.call .either :: (xs.map (·.call .or) ++ [.word .inputEnd])

/-! ## The built alternation -/

/-- A builder that would write some segments, with nothing said about the next one and no
flags. -/
structure Builder.Writes (b : Builder) (ss : List Segment) (groups : Nat) (extended : Bool) :
    Prop where
  written_eq : b.written = ss
  pending_eq : b.pending = {}
  groups_eq : b.groups = groups
  flags_eq : b.flags = {}
  extended_eq : b.extended = extended

/-- A segment is written behind all that is in progress. -/
theorem Builder.writes_addSegment {b : Builder} (hwaiting : b.waiting = {}) (hflags : b.flags = {})
    (s : Segment) : (b.addSegment s).value.Writes (b.written ++ [s]) b.groups b.extended := by
  rw [value_addSegment_eq, hwaiting]
  exact ⟨written_of_idle rfl rfl, rfl, rfl, hflags, rfl⟩

theorem Builder.writes_inputStart :
    (Builder.empty.addSegment .inputStart).value.Writes [.inputStart] 0 false :=
  writes_addSegment (b := .empty) rfl rfl .inputStart

namespace Builder.Writes

variable {b : Builder} {ss : List Segment} {groups : Nat} {extended : Bool}

theorem waiting_eq (hb : b.Writes ss groups extended) : b.waiting = {} := by
  rw [waiting, hb.pending_eq]
  rfl

theorem keptFragment_eq (hb : b.Writes ss groups extended) : b.keptFragment = {} := by
  rw [keptFragment, hb.waiting_eq]
  split <;> rfl

theorem addSegment (hb : b.Writes ss groups extended) (s : Segment) :
    (b.addSegment s).value.Writes (ss ++ [s]) groups extended := by
  have hwrites := writes_addSegment hb.waiting_eq hb.flags_eq s
  rwa [hb.written_eq, hb.groups_eq, hb.extended_eq] at hwrites

theorem keptGroups_eq (hb : b.Writes ss groups extended) : b.keptGroups = groups := by
  rw [keptGroups, capturesNothing, hb.pending_eq]
  exact hb.groups_eq

theorem build (hb : b.Writes ss groups extended) :
    b.build.value = ⟨ss.flatMap Segment.text, {}, groups, extended⟩ := by
  rw [value_build, hb.keptGroups_eq, hb.written_eq, hb.flags_eq, hb.extended_eq]

theorem either (hb : b.Writes ss groups extended) (x : Choice) :
    ((x.call .either).apply b).value.Writes
      (ss ++ [⟨.group, [(x.built.embedded groups).wrapped]⟩]) (groups + x.built.groups)
      (extended || x.built.extended) := by
  have hvalue : ((x.call .either).apply b).value = _ :=
    (x.value_apply_call .either b).trans (value_either b _)
  rw [hvalue, hb.keptFragment_eq, hb.keptGroups_eq, hb.written_eq]
  refine ⟨?_, rfl, rfl, hb.flags_eq, congrArg (· || _) hb.extended_eq⟩
  simp only [written, heldSegments, Fragment.segment?_eq, Option.map_none, Option.toList_none,
    List.append_nil]
  rfl

theorem or {o : Opening} {as : List Text} (hb : b.Writes (ss ++ [⟨o, as⟩]) groups extended)
    (x : Choice) :
    ((x.call .or).apply b).value.Writes
      (ss ++ [⟨o, as ++ [(x.built.embedded groups).wrapped]⟩]) (groups + x.built.groups)
      (extended || x.built.extended) := by
  have hvalue : ((x.call .or).apply b).value = _ :=
    (x.value_apply_call .or b).trans (value_or_pattern b _)
  rw [hvalue, hb.keptGroups_eq, hb.written_eq]
  refine ⟨?_, rfl, rfl, hb.flags_eq, congrArg (· || _) hb.extended_eq⟩
  refine (written_of_idle rfl rfl).trans ?_
  simp only [addAlternative, List.getLast?_append, List.getLast?_singleton, Option.some_or,
    List.dropLast_concat]
  rfl

/-- Further alternatives, by induction on them. -/
theorem ors {o : Opening} {as : List Text} (hb : b.Writes (ss ++ [⟨o, as⟩]) groups extended)
    (xs : List Choice) :
    (Call.applyAll b (xs.map (·.call .or))).value.Writes
      (ss ++ [⟨o, as ++ Choice.alternatives groups xs⟩])
      (groups + (xs.map (·.built.groups)).sum) (extended || xs.any (·.built.extended)) := by
  induction xs generalizing b as groups extended with
  | nil => simpa [Choice.alternatives, Call.applyAll] using hb
  | cons x xs ih =>
    have hnext := ih (hb.or x)
    rw [List.append_assoc, List.singleton_append, Nat.add_assoc, Bool.or_assoc] at hnext
    exact hnext

end Builder.Writes

/-- The alternatives of an alternation are written in one group between the ends of the
input. -/
theorem Call.build_alternation (x : Choice) (xs : List Choice) :
    (build (alternation x xs)).value =
      ⟨[.group ['^'], ⟨.group, Choice.alternatives 0 (x :: xs)⟩, .group ['$']].flatMap
          Segment.text, {}, ((x :: xs).map (·.built.groups)).sum,
        (x :: xs).any (·.built.extended)⟩ := by
  have hwrites := ((Builder.writes_inputStart.either x).ors xs).addSegment .inputEnd
  have hvalue := builder_framed (x.call .either :: xs.map (·.call .or))
  show (builder (alternation x xs)).build.value = _
  rw [alternation, ← List.cons_append, hvalue]
  refine hwrites.build.trans ?_
  simp [Choice.alternatives, Segment.inputStart, Segment.inputEnd]

/-! ## The tree of an alternation -/

namespace Choice

/-- Pieces for each choice. -/
abbrev Rows :=
  Choice → Branch

/-- Pieces for each choice, as its literal is read. -/
def Rows.Spell (row : Rows) : Prop :=
  ∀ x, Spells x.built.literal [row x]

theorem Rows.exists_spell : ∃ row : Rows, row.Spell := by
  choose row hrow using fun x : Choice => (Call.isFormed_builder x.calls).isRow_literal
  exact ⟨row, hrow⟩

/-- The row of a choice that is embedded behind some groups. -/
def embeddedRow (row : Rows) (groups : Nat) (x : Choice) : Branch :=
  x.built.scopedRow (Branch.mapAtoms (Atom.shift groups) (row x))

/-- The branch of an alternative behind some groups. -/
def branch (row : Rows) (groups : Nat) (x : Choice) : Branch :=
  [.group .plain [x.built.scopedRow (Branch.mapAtoms (Atom.shift groups) (row x))]]

/-- The branches of alternatives behind some groups. -/
def branches (row : Rows) (groups : Nat) : List Choice → Branches
  | [] => []
  | x :: xs => branch row groups x :: branches row (groups + x.built.groups) xs

/-- The tree of an alternation. -/
def tree (row : Rows) (xs : List Choice) : Branch :=
  [.group .plain [[.atom .start]], .group .plain (branches row 0 xs),
    .group .plain [[.atom .stop]]]

variable {row : Rows} (hrow : row.Spell)

include hrow

theorem forall₂_branches (groups : Nat) (xs : List Choice) :
    List.Forall₂ (fun t b => Spells t [b]) (alternatives groups xs) (branches row groups xs) := by
  induction xs generalizing groups with
  | nil => exact .nil
  | cons x xs ih => exact .cons (Built.spells_embedded (hrow x) groups).wrapped (ih _)

theorem spells_alternation (x : Choice) (xs : List Choice) :
    Spells (Call.build (Call.alternation x xs)).value.literal [tree row (x :: xs)] := by
  rw [Call.build_alternation]
  have hbody := Segment.spells_append (s := ⟨.group, alternatives 0 (x :: xs)⟩)
    (List.cons_ne_nil _ _) (forall₂_branches hrow 0 (x :: xs)) Segment.spells_inputEnd
  exact hbody.begun

end Choice

/-! ## The ways of an alternation -/

namespace Choice

/-- What an engine may be asked of the pieces of a choice: the numbers of its groups fit,
and if the basic engine is enough for it, then they mean the same in both. -/
structure IsAdmitted (row : Rows) (x : Choice) : Prop where
  le_largestGroup : ∀ n, .atom (.groupAgain n) ∈ (row x).tokens → n ≤ Lexeme.largestGroup
  isPlain : x.built.extended = false → ∀ t ∈ (row x).tokens, t.isPlain = true

/-- Some way of the choice alone matches the whole input. -/
def Fills (row : Rows) (h : Haystack) (x : Choice) : Prop :=
  ((Branch.lower x.built.engine x.built.scope 0 (row x)).node.ways h).StopsAt 0 .empty h.size

variable {row : Rows} (hrow : row.Spell) (h : Haystack) {x : Choice} {engine : Engine}

include hrow

/-- Behind some groups an embedded choice stops where it stops alone, whichever engine matches
it. -/
theorem stopsAt_embeddedRow (hx : x.IsAdmitted row)
    (hengine : x.built.extended = true → engine = .extended) (groups q : Nat) :
    ((Branch.lower engine .empty groups (embeddedRow row groups x)).node.ways h).StopsAt 0 .empty
        q ↔
      ((Branch.lower x.built.engine x.built.scope 0 (row x)).node.ways h).StopsAt 0 .empty q := by
  have hempty : ∀ g, groups < g → Record.empty g = fun _ => none := fun _ _ => rfl
  have hways := Branch.ways_lower_shift h (Call.groupZero_notMem_tokens (hrow x))
    hx.le_largestGroup engine x.built.scope hempty 0
  have halone : ((Branch.lower engine .empty groups (embeddedRow row groups x)).node.ways h).StopsAt
      0 .empty q ↔
        ((Branch.lower engine x.built.scope 0 (row x)).node.ways h).StopsAt 0 .empty q := by
    rw [embeddedRow, Built.ways_scopedRow, Ways.StopsAt, hways]
    simp only [List.mem_map, exists_exists_and_eq_and]
    rfl
  rw [halone, Built.engine]
  cases he : x.built.extended with
  | true => rw [hengine he]; rfl
  | false =>
    cases engine with
    | basic => rfl
    | extended =>
      have hsame := (Branch.sameStops_lower h (row x) x.built.scope 0 0 (hx.isPlain he)).1
      exact (hsame 0 (Nat.zero_le _) .empty .empty q).symm

/-- An alternative behind some groups matches the whole input if it does so alone. -/
theorem stopsAt_branch (hx : x.IsAdmitted row)
    (hengine : x.built.extended = true → engine = .extended) (groups : Nat) :
    ((Branch.lower engine .empty groups (branch row groups x)).node.ways h).StopsAt 0 .empty
        h.size ↔ x.Fills row h := by
  have hbranch : (Branch.lower engine .empty groups (branch row groups x)).node.ways h =
      (Branch.lower engine .empty groups (embeddedRow row groups x)).node.ways h :=
    Ways.seq_unit _
  rw [hbranch]
  exact stopsAt_embeddedRow hrow h hx hengine groups h.size

theorem groups_embeddedRow (groups : Nat) (flags : Flags) :
    (Branch.lower engine flags groups (embeddedRow row groups x)).groups =
      groups + x.built.groups := by
  have hcount := (Built.spells_embedded (hrow x) groups).openings_eq
  rw [Branches.tokens_singleton] at hcount
  have hembedded := (Call.isCounted_builder x.calls).openings_embedded groups
  rw [(Branch.fits_lower engine _ flags groups).groups_eq]
  exact congrArg (groups + ·) (hcount.symm.trans hembedded)

theorem groups_branch (groups : Nat) (flags : Flags) :
    (Branch.lower engine flags groups (branch row groups x)).groups = groups + x.built.groups :=
  groups_embeddedRow hrow groups flags

/-- Some way of an alternation matches the whole input if one of an alternative alone does, by
induction on the alternatives. -/
theorem stopsAt_branches {xs : List Choice} (hne : xs ≠ [])
    (hxs : ∀ x ∈ xs, x.IsAdmitted row)
    (hengine : ∀ x ∈ xs, x.built.extended = true → engine = .extended) (groups : Nat) :
    ((Branches.lower engine .empty groups (branches row groups xs)).node.ways h).StopsAt 0 .empty
        h.size ↔ ∃ x ∈ xs, x.Fills row h := by
  induction xs generalizing groups with
  | nil => exact absurd rfl hne
  | cons x xs ih =>
    have hfirst := stopsAt_branch hrow h (hxs x List.mem_cons_self)
      (hengine x List.mem_cons_self) groups
    cases xs with
    | nil =>
      rw [branches, branches, Branches.lower_singleton, hfirst]
      simp
    | cons y ys =>
      have hbranches : branches row (groups + x.built.groups) (y :: ys) ≠ [] :=
        List.cons_ne_nil _ _
      have hrest := ih (List.cons_ne_nil y ys) (fun z hz => hxs z (List.mem_cons_of_mem _ hz))
        (fun z hz => hengine z (List.mem_cons_of_mem _ hz)) (groups + x.built.groups)
      rw [branches, Branches.lower_cons _ _ _ hbranches]
      dsimp only
      rw [groups_branch hrow]
      refine Ways.stopsAt_alt.trans ((or_congr hfirst hrest).trans ?_)
      simp only [List.mem_cons, exists_eq_or_imp]

/-- An alternation matches if one of its alternatives alone matches the whole input. -/
theorem isSome_leftmost_tree {xs : List Choice} (hne : xs ≠ [])
    (hxs : ∀ x ∈ xs, x.IsAdmitted row)
    (hengine : ∀ x ∈ xs, x.built.extended = true → engine = .extended) :
    (Ways.leftmost h.size ((Branch.lower engine .empty 0 (tree row xs)).node.ways h)).isSome =
        true ↔ ∃ x ∈ xs, x.Fills row h := by
  have hframed := Branch.isSome_leftmost_framed h engine (b := [.group .plain (branches row 0 xs)])
    rfl
  refine hframed.trans ?_
  have hone : (Branch.lower engine .empty 0 [.group .plain (branches row 0 xs)]).node.ways h =
      (Branches.lower engine .empty 0 (branches row 0 xs)).node.ways h := Ways.seq_unit _
  rw [hone]
  exact stopsAt_branches hrow h hne hxs hengine 0

end Choice

/-! ## What compiles alone -/

theorem Atom.shift_zero (a : Atom) : a.shift 0 = a := by
  cases a with
  | groupAgain n =>
    rw [shift]
    split <;> rfl
  | _ => rfl

/-- What the basic engine takes means the same in both. -/
theorem Token.isPlain_of_basic {depth : Nat} {before : Option Piece} {t : Token}
    (h : Rules.basic.refuse depth before t = none) : t.isPlain = true := by
  have hplain : t.plainFault? = none := by
    cases t with
    | quantity q =>
      simp only [Rules.basic, Rules.grammar] at h
      grind [Token.plainFault?]
    | _ => rfl
  rw [isPlain, Token.needsBacktracking_of_basic h, hplain]
  rfl

/-- What the basic engine compiles means the same in both. -/
theorem Built.isPlain_of_compiles_basic {p : Built} {b : Branch} (hb : Spells p.literal [b])
    (he : p.extended = false) (hc : ∃ c, p.compile.value = .ok c) {t : Token} (ht : t ∈ b.tokens) :
    t.isPlain = true := by
  obtain rfl | rfl | ⟨pl, hpl, rfl⟩ := exists_place_or ht
  · rfl
  · rfl
  · exact Token.isPlain_of_basic (refuseAt_basic_of_compiles hb he hc hpl)

namespace Choice

variable {row : Rows} (hrow : row.Spell)

theorem mem_tokens_embeddedRow {x : Choice} {t : Token} (h : t ∈ (row x).tokens) :
    t ∈ (embeddedRow row 0 x).tokens := by
  obtain ⟨before, after, -, -, hscoped⟩ :=
    x.built.tokens_scopedRow (Branch.mapAtoms (Atom.shift 0) (row x))
  have hshift : t ∈ (Branch.mapAtoms (Atom.shift 0) (row x)).tokens := by
    rw [Branch.tokens_mapAtoms]
    refine List.mem_map.2 ⟨t, h, ?_⟩
    cases t with
    | atom a => exact congrArg Token.atom a.shift_zero
    | _ => rfl
  rw [embeddedRow, hscoped]
  simp [hshift]

theorem mem_tokens_branch {x : Choice} {t : Token} (h : t ∈ (embeddedRow row 0 x).tokens) :
    t ∈ (branch row 0 x).tokens := by
  simp only [branch, Branch.tokens, Piece.tokens, Branches.tokens_singleton]
  exact List.mem_append_left _ (List.mem_cons_of_mem _ (List.mem_append_left _ h))

/-- What compiles as all that a pattern captures and needs an engine for may be asked of the
engines beside others. -/
theorem isAdmitted_of_compiles {x : Choice} {calls : List Call} {tree : Branch}
    (htree : Spells (Call.build calls).value.literal [tree])
    (hmem : ∀ t ∈ (embeddedRow row 0 x).tokens, t ∈ tree.tokens)
    (hgroups : (Call.build calls).value.groups = x.built.groups)
    (hextended : (Call.build calls).value.extended = x.built.extended)
    (hfit : x.built.groups ≤ Lexeme.largestGroup)
    (hc : ∃ c, (Call.build calls).value.compile.value = .ok c) : x.IsAdmitted row where
  le_largestGroup n hn := by
    have hle := le_of_referencesOpen (Built.referencesOpen_of_compiles htree hc)
      (hmem _ (mem_tokens_embeddedRow hn))
    have hopenings : openings (Call.build calls).value.literal = (Call.build calls).value.groups :=
      (Call.isCounted_builder calls).openings_literal
    rw [htree.openings_eq, Branches.tokens_singleton, hgroups] at hopenings
    rw [Nat.zero_add, hopenings] at hle
    exact Nat.le_trans hle hfit
  isPlain hx t ht := Built.isPlain_of_compiles_basic htree (hextended.trans hx) hc
    (hmem t (mem_tokens_embeddedRow ht))

include hrow

/-- What compiles as the only alternative may be asked of the engines beside others. -/
theorem isAdmitted_of_compiles_alternation {x : Choice}
    (hfit : x.built.groups ≤ Lexeme.largestGroup)
    (hc : ∃ c, (Call.build (Call.alternation x [])).value.compile.value = .ok c) :
    x.IsAdmitted row := by
  refine isAdmitted_of_compiles (spells_alternation hrow x []) (fun t ht => ?_) ?_ ?_ hfit hc
  · have hbranch : t ∈ (branch row 0 x).tokens := mem_tokens_branch ht
    simp [tree, branches, Branch.tokens, Piece.tokens, hbranch]
  · rw [Call.build_alternation]
    simp
  · rw [Call.build_alternation]
    simp

end Choice

namespace Call

theorem isMatch_alternation_iff {row : Choice.Rows} (hrow : row.Spell) {x : Choice}
    {xs : List Choice} (hxs : ∀ y ∈ x :: xs, y.IsAdmitted row) {c : Compiled}
    (hc : (build (alternation x xs)).value.compile.value = .ok c) {t : Text} {a : Bool}
    (ha : c.isMatch t = .ok a) : a = true ↔ ∃ y ∈ x :: xs, y.Fills row t.toArray := by
  have hscope : (build (alternation x xs)).value.scope = .empty := by
    rw [build_alternation]
    rfl
  have hengine (y : Choice) (hy : y ∈ x :: xs) (he : y.built.extended = true) :
      (build (alternation x xs)).value.engine = .extended := by
    have hany : (x :: xs).any (·.built.extended) = true := List.any_eq_true.2 ⟨y, hy, he⟩
    rw [build_alternation, Built.engine, hany]
    rfl
  rw [isMatch_eq (Choice.spells_alternation hrow x xs) hc ha, hscope]
  exact Choice.isSome_leftmost_tree hrow t.toArray (List.cons_ne_nil x xs) hxs hengine

/-- An alternation from the start of the input to its end matches a text if and only if one
of its alternatives, alone between the ends of the input, matches it. That holds if all of
them compile, by whichever engines, and no query gives up. The numbers of the groups of each
alternative fit in 64 bits. -/
theorem isMatch_alternation (x : Choice) (xs : List Choice)
    (hfit : ∀ y ∈ x :: xs, (build y.calls).value.groups ≤ Lexeme.largestGroup) {c : Compiled}
    (hc : (build (alternation x xs)).value.compile.value = .ok c) {t : Text} {a : Bool}
    (ha : c.isMatch t = .ok a)
    (halone : ∀ y ∈ x :: xs, ∃ d b,
      (build (alternation y [])).value.compile.value = .ok d ∧ d.isMatch t = .ok b) :
    a = true ↔ ∃ y ∈ x :: xs, ∃ d,
      (build (alternation y [])).value.compile.value = .ok d ∧ d.isMatch t = .ok true := by
  obtain ⟨row, hrow⟩ := Choice.Rows.exists_spell
  have hadmitted (y : Choice) (hy : y ∈ x :: xs) : y.IsAdmitted row := by
    obtain ⟨d, -, hd, -⟩ := halone y hy
    exact Choice.isAdmitted_of_compiles_alternation hrow (hfit y hy) ⟨d, hd⟩
  rw [isMatch_alternation_iff hrow hadmitted hc ha]
  refine exists_congr fun y => and_congr_right fun hy => ?_
  obtain ⟨d, b, hd, hb⟩ := halone y hy
  have hone : ∀ z ∈ [y], z.IsAdmitted row := fun z hz => List.mem_singleton.1 hz ▸ hadmitted y hy
  have hfills := isMatch_alternation_iff hrow hone hd hb
  simp only [List.mem_singleton, exists_eq_left] at hfills
  rw [← hfills]
  exact Built.eq_true_iff_exists_compiled hd hb

/-- A text beside a pattern that asks for the extended engine, which it does not do alone. -/
theorem isMatch_alternation_textAgainOrText :
    let x : Choice := .pattern [.text .once ['a'], .word .captured, .count .exactly 1,
      .count .groupAgain 1]
    let y : Choice := .text ['b']
    ∃ c, (build (alternation x [y])).value.compile.value = .ok c ∧ c.isMatch ['b'] = .ok true ∧
      ∃ z ∈ [x, y], ∃ d,
        (build (alternation z [])).value.compile.value = .ok d ∧ d.isMatch ['b'] = .ok true := by
  intro x y
  obtain ⟨c, hc, ha⟩ := Built.exists_compiled (p := (build (alternation x [y])).value)
    (f := fun c => c.isMatch ['b']) (a := .ok true) (by decide +kernel)
  obtain ⟨d, hd, hb⟩ := Built.exists_compiled (p := (build (alternation x [])).value)
    (f := fun c => c.isMatch ['b']) (a := .ok false) (by decide +kernel)
  obtain ⟨d', hd'⟩ := Built.compiles_of_fault? (p := (build (alternation y [])).value)
    (by decide +kernel)
  obtain ⟨row, hrow⟩ := Choice.Rows.exists_spell
  obtain ⟨b', hb'⟩ := exists_isMatch (t := ['b']) (Choice.spells_alternation hrow y []) hd' rfl
  refine ⟨c, hc, ha, (isMatch_alternation x [y] ?_ hc ha ?_).1 rfl⟩
  · exact List.forall_mem_cons.2 ⟨by decide +kernel,
      List.forall_mem_cons.2 ⟨by decide +kernel, List.forall_mem_nil _⟩⟩
  · exact List.forall_mem_cons.2 ⟨⟨d, false, hd, hb⟩,
      List.forall_mem_cons.2 ⟨⟨d', b', hd', hb'⟩, List.forall_mem_nil _⟩⟩

end Call

end FluentPattern
