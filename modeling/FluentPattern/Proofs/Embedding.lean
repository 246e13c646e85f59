import FluentPattern.Proofs.Append
import FluentPattern.Proofs.Matching.Answers

/-!
# Embedding and matching

A pattern that is appended to units that match only the empty text finds what it finds
alone, and each of its groups captures what it captures alone, numbered behind the groups
of the units. Its tree is the same but for the numbers of its groups and for a quantity of
one around it, and its flags stand around its literal instead of in front of it.

Main statements: `Branch.ways_lower_shift` (an embedded pattern goes the ways that it goes
alone), `Call.find_append_emptyUnits`.
-/

namespace FluentPattern

/-! ## Embedded patterns -/

/-- No backreference of a built pattern names group zero. -/
theorem Call.groupZero_notMem_tokens {calls : List Call} {row : Branch}
    (hrow : Spells (Call.build calls).value.literal [row]) :
    .atom (.groupAgain 0) ∉ row.tokens := by
  intro hmem
  have hdemand := (Call.isLabelled_builder calls).demand_literal
  have hle := demand_le_demandOf hmem
  rw [← hrow.demand_row] at hle
  exact absurd (Nat.le_trans hle (hdemand ▸ Bool.toNat_le _)) (by decide)

/-- Where all numbers fit, moving the backreferences of a row, and putting it behind as many
groups, moves all groups of its node. -/
theorem Branch.lower_shift {b : Branch}
    (hle : ∀ n, .atom (.groupAgain n) ∈ b.tokens → n ≤ Lexeme.largestGroup) (engine : Engine)
    (flags : Flags) (offset : Nat) :
    Branch.lower engine flags offset (Branch.mapAtoms (Atom.shift offset) b) =
      (Branch.lower engine flags 0 b).renumber offset := by
  have hshift : Branch.mapAtoms (Atom.shift offset) b = Branch.mapAtoms (Atom.renumber offset) b :=
    Branch.mapAtoms_congr b fun a ha =>
      Atom.shift_eq_renumber (fun n hn => hle n (hn ▸ ha)) offset
  have hlower := Branch.lower_renumber engine offset b flags 0
  rwa [Nat.zero_add, ← hshift] at hlower

/-- Behind some groups an embedded pattern goes the ways that it goes alone, and passes its
groups behind what was passed before. -/
theorem Branch.ways_lower_shift (h : Haystack) {b : Branch}
    (hzero : .atom (.groupAgain 0) ∉ b.tokens)
    (hle : ∀ n, .atom (.groupAgain n) ∈ b.tokens → n ≤ Lexeme.largestGroup) (engine : Engine)
    (flags : Flags) {offset : Nat} {before : Record}
    (hbefore : ∀ g, offset < g → before g = fun _ => none) (p : Nat) :
    (Branch.lower engine flags offset (Branch.mapAtoms (Atom.shift offset) b)).node.ways h p
        before =
      ((Branch.lower engine flags 0 b).node.ways h p .empty).map
        (Way.change (before.behind offset)) := by
  have hfits := Branch.fits_lower engine b flags 0
  have hways := Node.ways_renumber h (n := (Branch.lower engine flags 0 b).node)
    (fun hg => absurd (hfits.lt_of_mem_captures 0 hg) (Nat.lt_irrefl 0))
    (fun hg => hzero (hfits.mem_of_mem_references 0 hg)) before offset p .empty
  rw [Record.behind_empty hbefore] at hways
  rw [Branch.lower_shift hle]
  exact hways

/-! ## Empty units -/

/-- Units that capture and repeat a text no time, so that each matches only the empty
text. -/
def Call.emptyUnits (ts : List Text) : List Call :=
  ts.flatMap fun t => [.count .exactly 0, .text .text t, .word .captured]

namespace Builder

/-- The fragment of an empty unit. -/
def emptyFragment (t : Text) : Fragment :=
  { min := some 0, max := some 0, content := some (.text t.escapeOutside), capture := true }

theorem value_emptyUnit {b : Builder} (hb : b.waiting = {}) {t : Text} (ht : t ≠ []) :
    (Call.applyAll b [.count .exactly 0, .text .text t, .word .captured]).value =
      { b with segments := b.written, held := none, groups := b.groups + 1,
               pending := emptyFragment t } := by
  have hvalue : (Call.applyAll b [.count .exactly 0, .text .text t, .word .captured]).value =
      ((b.exactly 0).value.text t).value.captured := rfl
  have hne : t.isEmpty = false := by simpa using ht
  rw [hvalue, text, hne, value_exactly, hb, if_neg Bool.false_ne_true, value_withContent]
  rfl

/-- Empty units are written one after the other, and each is counted as a group. -/
theorem value_emptyUnits {b : Builder} (hb : b.waiting = {}) {ts : List Text}
    (hts : ∀ t ∈ ts, t ≠ []) :
    let d := (Call.applyAll b (Call.emptyUnits ts)).value
    d.written = b.written ++
        ts.map (fun t => (emptyFragment t).segmentOf (.text t.escapeOutside)) ∧
      d.waiting = {} ∧ d.groups = b.groups + ts.length ∧ d.flags = b.flags ∧
        d.extended = b.extended := by
  induction ts generalizing b with
  | nil => exact ⟨by simp [Call.emptyUnits, Call.applyAll], hb, rfl, rfl, rfl⟩
  | cons t ts ih =>
    have hsplit : Call.emptyUnits (t :: ts) =
        [.count .exactly 0, .text .text t, .word .captured] ++ Call.emptyUnits ts := rfl
    rw [hsplit, Call.value_applyAll_append, value_emptyUnit hb (hts t List.mem_cons_self)]
    obtain ⟨hwritten, hwaiting, hgroups, hflags, hextended⟩ :=
      ih (b := { b with segments := b.written, held := none, groups := b.groups + 1,
                        pending := emptyFragment t }) rfl
        fun u hu => hts u (List.mem_cons_of_mem _ hu)
    refine ⟨hwritten.trans ?_, hwaiting, hgroups.trans ?_, hflags, hextended⟩
    · simp [written, heldSegments, Fragment.segment?_eq, emptyFragment]
    · simp only [List.length_cons]
      omega

/-- The piece of an empty unit. -/
def emptyPiece (t : Text) : Piece :=
  .group .capture [[.repeated ⟨0, some 0, true⟩ (.group .plain [t.map fun c => .atom (.char c)])]]

theorem spells_emptyUnits (ts : List Text) :
    Spells ((ts.map fun t => (emptyFragment t).segmentOf (.text t.escapeOutside)).flatMap
      Segment.text) [ts.map emptyPiece] := by
  induction ts with
  | nil => exact .nil
  | cons t ts ih =>
    exact (emptyFragment t).spells_append (c := .text t.escapeOutside) (spells_escapeOutside t) ih

end Builder

theorem Builder.countP_isCapture_emptyPiece (t : Text) :
    (Builder.emptyPiece t).tokens.countP Token.isCapture = 1 := by
  have hchars : (Branch.tokens (t.map fun c => .atom (.char c))).countP Token.isCapture = 0 := by
    induction t with
    | nil => rfl
    | cons c t ih => exact ih
  simp [emptyPiece, Piece.tokens, Branch.tokens, Token.isCapture, List.countP_cons,
    List.countP_append, hchars]

/-- Empty units match the empty text in one way, on which they pass no groups but their
own. -/
theorem Branch.ways_lower_emptyUnits (h : Haystack) (engine : Engine) (flags : Flags)
    (ts : List Text) (groups : Nat) :
    let l := Branch.lower engine flags groups (ts.map Builder.emptyPiece)
    l.flags = flags ∧ l.groups = groups + ts.length ∧
      ∀ p r, ∃ r', l.node.ways h p r = [⟨p, r'⟩] ∧ ∀ g, groups + ts.length < g → r' g = r g := by
  induction ts generalizing groups with
  | nil => exact ⟨rfl, rfl, fun p r => ⟨r, rfl, fun _ _ => rfl⟩⟩
  | cons t ts ih =>
    obtain ⟨hflags, hgroups, hways⟩ := ih (groups + 1)
    have hlength : groups + (t :: ts).length = groups + 1 + ts.length := by
      rw [List.length_cons]
      omega
    have hcount : ((Builder.emptyPiece t).lower engine flags groups).groups = groups + 1 := by
      rw [(Piece.fits_lower engine _ flags groups).groups_eq,
        Builder.countP_isCapture_emptyPiece]
    have hkeep : ((Builder.emptyPiece t).lower engine flags groups).flags = flags := rfl
    have hunit : ((Builder.emptyPiece t).lower engine flags groups).node.ways h =
        .capture (groups + 1) .unit := by
      refine congrArg (Ways.capture (groups + 1)) ?_
      exact (Ways.seq_unit _).trans (Node.ways_repeated_never h engine true _)
    rw [List.map_cons, Branch.lower, hcount, hkeep, hlength]
    refine ⟨hflags, hgroups, fun p r => ?_⟩
    obtain ⟨r', hr', hbeyond⟩ :=
      hways p ((r.pass (groups + 1) .opening p).pass (groups + 1) .closing p)
    refine ⟨r', ?_, fun g hg => ?_⟩
    · show Ways.seq _ _ p r = _
      rw [hunit]
      exact (List.append_nil _).trans hr'
    · rw [hbeyond g hg]
      funext s
      have hne : groups + 1 ≠ g := by omega
      simp [Record.pass, hne]

/-! ## Appending to empty units -/

namespace Call

variable {calls : List Call} {ts : List Text}

theorem builder_emptyUnits (hts : ∀ t ∈ ts, t ≠ []) :
    (builder (emptyUnits ts)).written =
        ts.map (fun t => (Builder.emptyFragment t).segmentOf (.text t.escapeOutside)) ∧
      (builder (emptyUnits ts)).waiting = {} ∧ (builder (emptyUnits ts)).groups = ts.length ∧
        (builder (emptyUnits ts)).flags = {} ∧ (builder (emptyUnits ts)).extended = false := by
  obtain ⟨hwritten, hwaiting, hgroups, hflags, hextended⟩ :=
    Builder.value_emptyUnits (b := .empty) rfl hts
  exact ⟨hwritten, hwaiting, hgroups.trans (Nat.zero_add _), hflags, hextended⟩

/-- The ways of an appended pattern behind a unit that adds nothing to them. -/
theorem ways_lower_appendedPiece {b : Builder} (hb : b.waiting = {}) (p : Built) (row : Branch)
    (h : Haystack) (engine : Engine) :
    (Branch.lower engine .empty b.groups [b.appendedPiece p row]).node.ways h =
      (Branch.lower engine p.scope b.groups
        (Branch.mapAtoms (Atom.shift b.groups) row)).node.ways h := by
  have hpiece : b.appendedPiece p row = .group .plain [[.repeated ⟨1, some 1, true⟩
      (.group .plain [p.scopedRow (Branch.mapAtoms (Atom.shift b.groups) row)])]] := by
    rw [Builder.appendedPiece, hb]
    rfl
  rw [hpiece, ← Built.ways_scopedRow]
  refine (Ways.seq_unit _).trans ((Ways.seq_unit _).trans ?_)
  exact Node.ways_repeated_once h engine true _

/-- The tree of a pattern that is appended to empty units, the engine that matches it, which is
the one of the pattern, and its flags, which are none. -/
theorem spells_append_emptyUnits (hts : ∀ t ∈ ts, t ≠ []) {row : Branch}
    (hrow : Spells (build calls).value.literal [row]) :
    let q := (build (emptyUnits ts ++ [.pattern .append calls])).value
    Spells q.literal [ts.map Builder.emptyPiece ++
        [(builder (emptyUnits ts)).appendedPiece (build calls).value row]] ∧
      q.engine = (build calls).value.engine ∧ q.scope = .empty := by
  intro q
  obtain ⟨hwritten, -, -, hflags, hextended⟩ := builder_emptyUnits hts
  have hhost : Spells (builder (emptyUnits ts)).build.value.literal
      [ts.map Builder.emptyPiece] := by
    rw [Builder.value_build, hwritten]
    exact Builder.spells_emptyUnits ts
  have hq : q = ((builder (emptyUnits ts)).append (builder calls)).value.build.value :=
    build_append _ _
  refine ⟨hq ▸ Builder.spells_append hhost hrow, ?_, ?_⟩
  · rw [hq, Builder.build_append, Built.engine, hextended]
    rfl
  · rw [hq, Builder.build_append, Built.scope, hflags]
    rfl

/-- What a pattern that is appended to empty units finds is what it finds alone, its groups
moved behind those of the units. -/
theorem leftmost_append_emptyUnits (hts : ∀ t ∈ ts, t ≠ []) {row : Branch}
    (hrow : Spells (build calls).value.literal [row])
    (hle : ∀ n, .atom (.groupAgain n) ∈ row.tokens → n ≤ Lexeme.largestGroup) (t : Text) :
    let p := (build calls).value
    let q := (build (emptyUnits ts ++ [.pattern .append calls])).value
    ∃ tree : Branch, ∃ before : Nat → Record, Spells q.literal [tree] ∧
      Ways.leftmost t.length ((Branch.lower q.engine q.scope 0 tree).node.ways t.toArray) =
        (Ways.leftmost t.length ((Branch.lower p.engine p.scope 0 row).node.ways t.toArray)).map
          fun m => (m.1, m.2.change ((before m.1).behind ts.length)) := by
  intro p q
  obtain ⟨-, hwaiting, hgroups, -, -⟩ := builder_emptyUnits hts
  obtain ⟨htree, hengine, hscope⟩ := spells_append_emptyUnits hts hrow
  obtain ⟨hkeep, hcount, hunits⟩ := Branch.ways_lower_emptyUnits t.toArray p.engine .empty ts 0
  choose before hbefore hbeyond using fun p => hunits p .empty
  rw [Nat.zero_add] at hcount hbeyond
  have hways (start : Nat) : (Branch.lower q.engine q.scope 0 (ts.map Builder.emptyPiece ++
      [(builder (emptyUnits ts)).appendedPiece p row])).node.ways t.toArray start .empty =
        ((Branch.lower p.engine p.scope 0 row).node.ways t.toArray start .empty).map
          (Way.change ((before start).behind ts.length)) := by
    have hsplit := Branch.ways_lower_append t.toArray p.engine (ts.map Builder.emptyPiece)
      [(builder (emptyUnits ts)).appendedPiece p row] .empty 0
    dsimp only at hsplit
    rw [hkeep, hcount, ← hgroups, ways_lower_appendedPiece hwaiting, hgroups] at hsplit
    rw [hengine, hscope, hsplit, Ways.seq, hbefore start, List.flatMap_singleton]
    exact Branch.ways_lower_shift t.toArray (groupZero_notMem_tokens hrow) hle p.engine p.scope
      (hbeyond start) start
  refine ⟨_, before, htree, ?_⟩
  rw [Ways.leftmost, Ways.leftmost, map_firstFrom]
  refine firstFrom_congr fun start _ _ => ?_
  rw [Ways.best, Ways.best, hways, List.head?_map, Option.map_map, Option.map_map]
  rfl

/-- A pattern that is appended to units which match only the empty text matches as it
matches alone, and each of its groups captures what it captures alone, behind the groups of
the units. The numbers of its groups fit in 64 bits. -/
theorem find_append_emptyUnits (calls : List Call) (ts : List Text) (hts : ∀ t ∈ ts, t ≠ [])
    (hfit : (build calls).value.groups ≤ Lexeme.largestGroup) {c d : Compiled}
    (hc : (build calls).value.compile.value = .ok c)
    (hd : (build (emptyUnits ts ++ [.pattern .append calls])).value.compile.value = .ok d)
    (t : Text) :
    (∀ x y, c.find t = .ok x → d.find t = .ok y → y = x) ∧
      ∀ n, 1 ≤ n → n ≤ (build calls).value.groups →
        ∀ x y, c.group t n = .ok x → d.group t (ts.length + n) = .ok y → y = x := by
  obtain ⟨row, hrow⟩ := (isFormed_builder calls).isRow_literal
  have hle (n : Nat) (hn : .atom (.groupAgain n) ∈ row.tokens) : n ≤ Lexeme.largestGroup := by
    have hopen := le_of_referencesOpen (Built.referencesOpen_of_compiles hrow ⟨c, hc⟩) hn
    have hcount := (isCounted_builder calls).openings_literal
    rw [hrow.openings_eq, Branches.tokens_singleton] at hcount
    rw [Nat.zero_add, hcount] at hopen
    exact Nat.le_trans hopen hfit
  obtain ⟨tree, before, htree, hleftmost⟩ := leftmost_append_emptyUnits hts hrow hle t
  refine ⟨fun x y hx hy => ?_, fun n hn _ x y hx hy => ?_⟩
  · rw [find_eq hrow hc hx, find_eq htree hd hy, hleftmost, Option.map_map]
    rfl
  · rw [group_eq hrow hc (Nat.ne_of_gt hn) hx, group_eq htree hd (by omega) hy, hleftmost,
      Option.bind_map]
    refine congrArg (Option.bind _) (funext fun m => ?_)
    have hspan : ((before m.1).behind ts.length m.2.record).span? (n + ts.length) =
        m.2.record.span? n := Record.span?_behind hn
    rw [Nat.add_comm] at hspan
    exact congrArg (Option.map _) hspan

/-- A text and the same text again, case ignored, behind one empty unit: both patterns find the
same match, and the group that is repeated is the second one behind the unit. -/
theorem find_append_emptyUnits_textAgain :
    let calls : List Call := [.flag .ignoreCase, .text .once ['a'], .word .captured,
      .count .exactly 1, .count .groupAgain 1]
    let t : Text := ['x', 'a', 'A', 'a', 'a']
    ∃ c d, (build calls).value.compile.value = .ok c ∧
      (build (emptyUnits [['b']] ++ [.pattern .append calls])).value.compile.value = .ok d ∧
        c.find t = .ok (some ⟨3, 5, ['a', 'a']⟩) ∧ d.find t = .ok (some ⟨3, 5, ['a', 'a']⟩) ∧
        c.group t 1 = .ok (some ⟨3, 4, ['a']⟩) ∧ d.group t 2 = .ok (some ⟨3, 4, ['a']⟩) := by
  intro calls t
  obtain ⟨c, hc, hcanswers⟩ := Built.exists_compiled (p := (build calls).value)
    (f := fun c => (c.find t, c.group t 1))
    (a := (.ok (some ⟨3, 5, ['a', 'a']⟩), .ok (some ⟨3, 4, ['a']⟩))) (by decide +kernel)
  obtain ⟨hfind, hgroup⟩ := Prod.mk.inj hcanswers
  obtain ⟨d, hd, hdanswers⟩ := Built.exists_compiled
    (p := (build (emptyUnits [['b']] ++ [.pattern .append calls])).value)
    (f := fun d => (d.find t).toOption.isSome && (d.group t 2).toOption.isSome) (a := true)
    (by decide +kernel)
  obtain ⟨hdfind, hdgroup⟩ := Bool.and_eq_true_iff.1 hdanswers
  obtain ⟨x, hx⟩ := Except.exists_of_isSome hdfind
  obtain ⟨y, hy⟩ := Except.exists_of_isSome hdgroup
  obtain ⟨hsame, hgroups⟩ := find_append_emptyUnits calls [['b']] (by decide) (by decide +kernel)
    hc hd t
  obtain rfl := hsame _ _ hfind hx
  obtain rfl := hgroups 1 (Nat.le_refl 1) (by decide +kernel) _ _ hgroup hy
  exact ⟨c, d, hc, hd, hfind, hx, hgroup, hy⟩

end Call

end FluentPattern
