import FluentPattern.Proofs.Alternation
import FluentPattern.Proofs.AnyRun
import FluentPattern.Proofs.Matching.Units

/-!
# Exclusions

A pattern that excludes some choices in a row, and that from the start of the input to its
end, matches exactly the inputs on one line that no choice matches the beginning of. Each
choice stands in an assertion of its own behind the groups of those before it, and the run of
any characters that one of them has added is replaced by that of the next one.

Main statements: `Builder.Writes.nors` (the run is replaced), `Choice.mem_ways_lookRow`
(assertions in a row), `Call.isMatch_exclusion`.
-/

namespace FluentPattern

/-- Choices that are excluded from the start of the input, and a run of any characters up to
its end. -/
def Call.exclusion (x y : Choice) (ys : List Choice) : List Call :=
  .word .inputStart :: x.call .neither :: ((y :: ys).map (·.call .nor) ++ [.word .inputEnd])

/-- A choice behind the start of the input. -/
def Call.beginning (x : Choice) : List Call :=
  [.word .inputStart, x.call .either]

/-- The assertions against choices as they are written, behind some groups. -/
def Choice.lookaheads (groups : Nat) : List Choice → List Segment
  | [] => []
  | x :: xs =>
    ⟨.notAhead, [x.built.embedded groups]⟩ :: lookaheads (groups + x.built.groups) xs

/-! ## The built exclusion -/

namespace Builder.Writes

variable {b : Builder} {ss : List Segment} {groups : Nat} {extended : Bool}

theorem neither (hb : b.Writes ss groups extended) (x : Choice) :
    ((x.call .neither).apply b).value.Writes
      (ss ++ [⟨.notAhead, [x.built.embedded groups]⟩]) (groups + x.built.groups) true := by
  have hvalue : ((x.call .neither).apply b).value = _ :=
    (x.value_apply_call .neither b).trans (value_look b _ .notAhead)
  rw [hvalue, hb.keptFragment_eq, hb.keptGroups_eq, hb.written_eq]
  exact ⟨written_of_idle rfl rfl, rfl, rfl, hb.flags_eq, rfl⟩

theorem anything (hb : b.Writes ss groups extended) :
    b.anything.value.pending = .anyRun ∧ b.anything.value.dropRun.Writes ss groups extended := by
  rw [value_anything, hb.waiting_eq, hb.written_eq]
  exact ⟨rfl, written_of_idle rfl rfl, rfl, hb.groups_eq, hb.flags_eq, hb.extended_eq⟩

/-- One more exclusion replaces a run that is in progress. -/
theorem nor (hb : b.dropRun.Writes ss groups extended) (x : Choice) :
    let d := ((x.call .nor).apply b).value
    d.pending = .anyRun ∧ d.dropRun.Writes (ss ++ [⟨.notAhead, [x.built.embedded groups]⟩])
      (groups + x.built.groups) true := by
  have hneither := hb.neither x
  rw [x.value_apply_call] at hneither ⊢
  exact hneither.anything

/-- Further exclusions share the run of the last one, by induction on them. -/
theorem nors (hb : b.dropRun.Writes ss groups extended) (x : Choice) (xs : List Choice) :
    let d := (Call.applyAll b ((x :: xs).map (·.call .nor))).value
    d.pending = .anyRun ∧ d.dropRun.Writes (ss ++ Choice.lookaheads groups (x :: xs))
      (groups + ((x :: xs).map (·.built.groups)).sum) true := by
  induction xs generalizing b ss groups extended x with
  | nil => simpa [Choice.lookaheads, Call.applyAll] using hb.nor x
  | cons y ys ih =>
    obtain ⟨hpending, hwrites⟩ := ih (hb.nor x).2 y
    rw [List.append_assoc, List.singleton_append, Nat.add_assoc] at hwrites
    exact ⟨hpending, hwrites⟩

end Builder.Writes

namespace Call

variable (x y : Choice) (ys : List Choice)

theorem writes_exclusion :
    (builder (exclusion x y ys)).Writes
      (.inputStart :: (Choice.lookaheads 0 (x :: y :: ys) ++ [.anyRun, .inputEnd]))
      ((x :: y :: ys).map (·.built.groups)).sum true := by
  have hfirst := Builder.writes_inputStart.neither x
  generalize hb : ((x.call .neither).apply (Builder.empty.addSegment .inputStart).value).value = b
    at hfirst
  -- nothing is in progress behind the first exclusion, so the second one drops nothing
  have hkept : b.dropRun = b := Builder.dropRun_of_not (by rw [hfirst.pending_eq]; rfl)
  obtain ⟨hpending, hwrites⟩ := Builder.Writes.nors (hkept.symm ▸ hfirst) y ys
  have hvalue : builder (exclusion x y ys) =
      ((applyAll b ((y :: ys).map (·.call .nor))).value.addSegment .inputEnd).value := by
    rw [exclusion, ← List.cons_append, builder_framed, ← hb]
    rfl
  have hrun := Fragment.isOpenAnyRun_iff.2 hpending
  have hend := Builder.writes_addSegment (by rw [Builder.waiting, hpending]; rfl)
    (Builder.flags_dropRun _ ▸ hwrites.flags_eq) .inputEnd
  rw [Builder.written_of_isOpenAnyRun hrun, hwrites.written_eq, ← Builder.groups_dropRun,
    hwrites.groups_eq, ← Builder.extended_dropRun, hwrites.extended_eq] at hend
  rw [hvalue]
  simpa [Choice.lookaheads, Nat.add_assoc] using hend

theorem build_exclusion :
    (build (exclusion x y ys)).value =
      ⟨(Segment.inputStart :: (Choice.lookaheads 0 (x :: y :: ys) ++
          [.anyRun, .inputEnd])).flatMap Segment.text, {},
        ((x :: y :: ys).map (·.built.groups)).sum, true⟩ :=
  (writes_exclusion x y ys).build

theorem build_beginning :
    (build (beginning x)).value =
      ⟨[Segment.inputStart, .group (x.built.embedded 0).wrapped].flatMap Segment.text, {},
        x.built.groups, x.built.extended⟩ := by
  have hbuild := (Builder.writes_inputStart.either x).build
  rw [Nat.zero_add, Bool.false_or] at hbuild
  exact hbuild

end Call

/-! ## The trees -/

namespace Choice

/-- The assertions against choices behind some groups. -/
def lookRow (row : Rows) (groups : Nat) : List Choice → Branch
  | [] => []
  | x :: xs =>
    .group .notAhead [embeddedRow row groups x] :: lookRow row (groups + x.built.groups) xs

/-- The pieces of an exclusion between the ends of the input. -/
def exclusionRow (row : Rows) (xs : List Choice) : Branch :=
  lookRow row 0 xs ++ [Fragment.anyRun.piece [.atom .any]]

variable {row : Rows} (hrow : row.Spell)

include hrow

theorem spells_lookaheads_append (groups : Nat) (xs : List Choice) {t : Text} {b : Branch}
    (ht : Spells t [b]) :
    Spells ((lookaheads groups xs).flatMap Segment.text ++ t) [lookRow row groups xs ++ b] := by
  induction xs generalizing groups with
  | nil => exact ht
  | cons x xs ih =>
    have hembedded : Spells (x.built.embedded groups) [embeddedRow row groups x] :=
      Built.spells_embedded (hrow x) groups
    rw [lookaheads, List.flatMap_cons, List.append_assoc]
    exact Segment.spells_append (s := ⟨.notAhead, [x.built.embedded groups]⟩)
      (List.cons_ne_nil _ _) (.cons hembedded .nil) (ih _)

theorem spells_exclusion (x y : Choice) (ys : List Choice) :
    Spells (Call.build (Call.exclusion x y ys)).value.literal
      [(exclusionRow row (x :: y :: ys)).ended.begun] := by
  have hrun := Fragment.anyRun.spells_append (c := .anyChar) (.single rfl .nil)
    Segment.spells_inputEnd
  have hbody := (spells_lookaheads_append hrow 0 (x :: y :: ys) hrun).begun
  rw [Call.build_exclusion, List.flatMap_cons, List.flatMap_append]
  rw [Branch.ended, exclusionRow, List.append_assoc]
  exact hbody

theorem spells_beginning (x : Choice) :
    Spells (Call.build (Call.beginning x)).value.literal
      [Branch.begun [.group .plain [branch row 0 x]]] := by
  rw [Call.build_beginning]
  have hbranch : Spells (x.built.embedded 0).wrapped [branch row 0 x] :=
    (Built.spells_embedded (hrow x) 0).wrapped
  have halone := Segment.spells_append (s := .group (x.built.embedded 0).wrapped)
    (List.cons_ne_nil _ _) (.cons hbranch .nil) .nil
  exact halone.begun

end Choice

/-! ## The ways of an exclusion -/

theorem Ways.exists_mem_iff_exists_stopsAt {w : Ways} {p : Nat} {r : Record} :
    (∃ v, v ∈ w p r) ↔ ∃ q, w.StopsAt p r q :=
  ⟨fun ⟨v, hv⟩ => ⟨v.stop, v, hv, rfl⟩, fun ⟨_, v, hv, _⟩ => ⟨v, hv⟩⟩

/-- Where nothing matches, an assertion against it goes on as if it was not there. -/
theorem Ways.mem_look_true {w : Ways} {p : Nat} {r : Record} {v : Way} :
    v ∈ look true w p r ↔ v = ⟨p, r⟩ ∧ ¬∃ q, w.StopsAt p r q := by
  rw [← exists_mem_iff_exists_stopsAt]
  unfold look
  cases w p r with
  | nil => simp
  | cons u vs => simp

/-- A run of any characters leads from the start of the input to its end if the input is one
line. -/
theorem Fragment.stopsAt_anyRun (h : Haystack) (engine : Engine) (groups : Nat) (r : Record) :
    ((Branch.lower engine .empty groups [anyRun.piece [.atom .any]]).node.ways h).StopsAt 0 r
      h.size ↔ '\n' ∉ h.toList := by
  have hany (groups : Nat) : ((Branch.lower engine .empty groups [.atom .any]).node.ways h).Reads h
      CharSet.notLineFeed.words := Atom.reads h engine groups rfl
  have hreads := reads_piece (f := .anyRun) (q := ⟨0, none, true⟩) hany rfl rfl groups
  rw [hreads 0 (Nat.zero_le _), Haystack.between_all, Quantity.mem_powers_words]
  simp only [CharSet.contains_notLineFeed]
  constructor
  · rintro ⟨-, -, -, hall⟩ hfeed
    exact hall _ hfeed rfl
  · intro hline
    refine ⟨Nat.zero_le _, Nat.le_refl _, ⟨Nat.zero_le _, by simp⟩, ?_⟩
    rintro c hc rfl
    exact hline hc

namespace Choice

/-- Some way of the choice alone leads from the start of the input. -/
def Begins (row : Rows) (h : Haystack) (x : Choice) : Prop :=
  ∃ q, ((Branch.lower x.built.engine x.built.scope 0 (row x)).node.ways h).StopsAt 0 .empty q

variable {row : Rows}

theorem exists_eq_group_of_mem_lookRow {groups : Nat} {xs : List Choice} :
    ∀ p ∈ lookRow row groups xs, ∃ k bs, p = .group k bs := by
  induction xs generalizing groups with
  | nil => exact List.forall_mem_nil _
  | cons x xs ih => exact List.forall_mem_cons.2 ⟨⟨_, _, rfl⟩, ih⟩

variable (hrow : row.Spell) (h : Haystack)

include hrow

/-- Assertions in a row go on if no choice begins the input, by induction on the choices. -/
theorem mem_ways_lookRow {xs : List Choice} (hxs : ∀ x ∈ xs, x.IsAdmitted row) (groups : Nat)
    {v : Way} :
    v ∈ (Branch.lower .extended .empty groups (lookRow row groups xs)).node.ways h 0 .empty ↔
      v = ⟨0, .empty⟩ ∧ ∀ x ∈ xs, ¬x.Begins row h := by
  induction xs generalizing groups with
  | nil => simp [lookRow, Branch.lower, Node.ways, Ways.unit]
  | cons x xs ih =>
    obtain ⟨hx, hxs⟩ := List.forall_mem_cons.1 hxs
    have hgroups : (Branch.lower .extended .empty groups (embeddedRow row groups x)).groups =
        groups + x.built.groups := groups_embeddedRow hrow groups .empty
    have hbegins : (∃ q, ((Branch.lower .extended .empty groups
        (embeddedRow row groups x)).node.ways h).StopsAt 0 .empty q) ↔ x.Begins row h :=
      exists_congr fun q => stopsAt_embeddedRow hrow h hx (fun _ => rfl) groups q
    rw [lookRow, Branch.ways_lower_notAhead, hgroups]
    simp only [Ways.seq, List.mem_flatMap, Ways.mem_look_true, hbegins, List.forall_mem_cons]
    constructor
    · rintro ⟨_, ⟨rfl, hnot⟩, hv⟩
      obtain ⟨rfl, hall⟩ := (ih hxs _).1 hv
      exact ⟨rfl, hnot, hall⟩
    · rintro ⟨rfl, hnot, hall⟩
      exact ⟨_, ⟨rfl, hnot⟩, (ih hxs _).2 ⟨rfl, hall⟩⟩

/-- An exclusion matches if no choice begins the input and the input is one line. -/
theorem isSome_leftmost_exclusionRow {xs : List Choice} (hxs : ∀ x ∈ xs, x.IsAdmitted row) :
    (Ways.leftmost h.size ((Branch.lower .extended .empty 0
        (exclusionRow row xs).ended.begun).node.ways h)).isSome = true ↔
      '\n' ∉ h.toList ∧ ∀ x ∈ xs, ¬x.Begins row h := by
  have hgroups : ∀ p ∈ exclusionRow row xs, ∃ k bs, p = .group k bs := by
    intro p hp
    rcases List.mem_append.1 hp with hp | hp
    · exact exists_eq_group_of_mem_lookRow p hp
    · exact ⟨_, _, List.mem_singleton.1 hp⟩
  have hways := Branch.ways_lower_append h .extended (lookRow row 0 xs)
    [Fragment.anyRun.piece [.atom .any]] .empty 0
  dsimp only at hways
  rw [Branch.flags_lower_groups _ _ _ exists_eq_group_of_mem_lookRow] at hways
  rw [Branch.isSome_leftmost_framed h .extended (Branch.flags_lower_groups _ _ _ hgroups),
    exclusionRow, hways, Ways.stopsAt_seq]
  simp only [mem_ways_lookRow hrow h hxs, and_assoc, exists_eq_left, Fragment.stopsAt_anyRun]
  exact and_comm

/-- What compiles behind the start of the input may be asked of the engines beside others. -/
theorem isAdmitted_of_compiles_beginning {x : Choice}
    (hfit : x.built.groups ≤ Lexeme.largestGroup)
    (hc : ∃ c, (Call.build (Call.beginning x)).value.compile.value = .ok c) :
    x.IsAdmitted row := by
  have hgroups : (Call.build (Call.beginning x)).value.groups = x.built.groups := by
    rw [Call.build_beginning]
  have hextended : (Call.build (Call.beginning x)).value.extended = x.built.extended := by
    rw [Call.build_beginning]
  refine isAdmitted_of_compiles (spells_beginning hrow x) (fun t ht => ?_) hgroups hextended
    hfit hc
  have hbranch : t ∈ (branch row 0 x).tokens := mem_tokens_branch ht
  simp [Branch.begun, Branch.tokens, Piece.tokens, hbranch]

end Choice

namespace Call

section

variable {row : Choice.Rows} (hrow : row.Spell) {c : Compiled} {t : Text} {a : Bool}

include hrow

theorem isMatch_exclusion_iff {x y : Choice} {ys : List Choice}
    (hxs : ∀ z ∈ x :: y :: ys, z.IsAdmitted row)
    (hc : (build (exclusion x y ys)).value.compile.value = .ok c) (ha : c.isMatch t = .ok a) :
    a = true ↔ '\n' ∉ t ∧ ∀ z ∈ x :: y :: ys, ¬z.Begins row t.toArray := by
  have hlabel : (build (exclusion x y ys)).value.engine = .extended ∧
      (build (exclusion x y ys)).value.scope = .empty := by
    rw [build_exclusion]
    exact ⟨rfl, rfl⟩
  rw [isMatch_eq (Choice.spells_exclusion hrow x y ys) hc ha, hlabel.1, hlabel.2]
  exact Choice.isSome_leftmost_exclusionRow hrow t.toArray hxs

theorem isMatch_beginning_iff {x : Choice} (hx : x.IsAdmitted row)
    (hc : (build (beginning x)).value.compile.value = .ok c) (ha : c.isMatch t = .ok a) :
    a = true ↔ x.Begins row t.toArray := by
  have hlabel : (build (beginning x)).value.engine = x.built.engine ∧
      (build (beginning x)).value.scope = .empty := by
    rw [build_beginning]
    exact ⟨rfl, rfl⟩
  have hengine (he : x.built.extended = true) : x.built.engine = .extended := by
    rw [Built.engine, he]
    rfl
  have hways : (Branch.lower x.built.engine .empty 0
      [.group .plain [Choice.branch row 0 x]]).node.ways t.toArray =
        (Branch.lower x.built.engine .empty 0 (Choice.embeddedRow row 0 x)).node.ways t.toArray :=
    (Ways.seq_unit _).trans (Ways.seq_unit _)
  rw [isMatch_eq (Choice.spells_beginning hrow x) hc ha, hlabel.1, hlabel.2]
  refine (Branch.isSome_leftmost_begun t.toArray _ _).trans ?_
  rw [hways, Ways.exists_mem_iff_exists_stopsAt]
  exact exists_congr fun q => Choice.stopsAt_embeddedRow hrow t.toArray hx hengine 0 q

end

/-- A pattern that excludes choices in a row is read as the start of the input, one assertion
against each choice in their order, one run of any characters, and the end of the input. It
matches a text if and only if the text is one line and no choice, alone behind the start of
the input, matches it. That holds if all of them compile and no query gives up. The numbers
of the groups of each choice fit in 64 bits. -/
theorem isMatch_exclusion (x y : Choice) (ys : List Choice) :
    (∃ ps, readPattern .grammar (build (exclusion x y ys)).value.literal = .ok [ps] ∧
      List.Forall₂ Segment.IsReadAs
        (.inputStart :: (Choice.lookaheads 0 (x :: y :: ys) ++ [.anyRun, .inputEnd])) ps) ∧
    ∀ {c : Compiled} {t : Text} {a : Bool},
      (∀ z ∈ x :: y :: ys, (build z.calls).value.groups ≤ Lexeme.largestGroup) →
      (build (exclusion x y ys)).value.compile.value = .ok c → c.isMatch t = .ok a →
      (∀ z ∈ x :: y :: ys, ∃ d b,
        (build (beginning z)).value.compile.value = .ok d ∧ d.isMatch t = .ok b) →
      (a = true ↔ '\n' ∉ t ∧ ¬∃ z ∈ x :: y :: ys, ∃ d,
        (build (beginning z)).value.compile.value = .ok d ∧ d.isMatch t = .ok true) := by
  constructor
  · obtain ⟨ps, -, hread, hall⟩ := exists_readPattern_build (exclusion x y ys)
    rw [Builder.value_flush, (writes_exclusion x y ys).written_eq] at hall
    exact ⟨ps, hread, hall⟩
  · intro c t a hfit hc ha halone
    obtain ⟨row, hrow⟩ := Choice.Rows.exists_spell
    have hadmitted (z : Choice) (hz : z ∈ x :: y :: ys) : z.IsAdmitted row := by
      obtain ⟨d, -, hd, -⟩ := halone z hz
      exact Choice.isAdmitted_of_compiles_beginning hrow (hfit z hz) ⟨d, hd⟩
    rw [isMatch_exclusion_iff hrow hadmitted hc ha, not_exists]
    refine and_congr_right fun _ => forall_congr' fun z => ?_
    rw [not_and]
    refine forall_congr' fun hz => not_congr ?_
    obtain ⟨d, b, hd, hb⟩ := halone z hz
    rw [← isMatch_beginning_iff hrow (hadmitted z hz) hd hb]
    exact Built.eq_true_iff_exists_compiled hd hb

/-- Two choices with a group each, one of them named again, the other one without regard to
case. -/
theorem isMatch_exclusion_groups :
    let x : Choice := .pattern [.text .once ['a'], .word .captured, .count .exactly 1,
      .count .groupAgain 1]
    let y : Choice := .pattern [.flag .ignoreCase, .text .once ['B'], .word .captured]
    ∃ c, (build (exclusion x y [])).value.compile.value = .ok c ∧ c.isMatch ['a', 'b'] = .ok true ∧
      '\n' ∉ ['a', 'b'] ∧ ¬∃ z ∈ [x, y], ∃ d,
        (build (beginning z)).value.compile.value = .ok d ∧ d.isMatch ['a', 'b'] = .ok true := by
  intro x y
  obtain ⟨c, hc, ha⟩ := Built.exists_compiled (p := (build (exclusion x y [])).value)
    (f := fun c => c.isMatch ['a', 'b']) (a := .ok true) (by decide +kernel)
  obtain ⟨d, hd, hb⟩ := Built.exists_compiled (p := (build (beginning x)).value)
    (f := fun c => c.isMatch ['a', 'b']) (a := .ok false) (by decide +kernel)
  obtain ⟨d', hd'⟩ := Built.compiles_of_fault? (p := (build (beginning y)).value)
    (by decide +kernel)
  obtain ⟨row, hrow⟩ := Choice.Rows.exists_spell
  obtain ⟨b', hb'⟩ := exists_isMatch (t := ['a', 'b']) (Choice.spells_beginning hrow y) hd' rfl
  refine ⟨c, hc, ha, ((isMatch_exclusion x y []).2 ?_ hc ha ?_).1 rfl⟩
  · exact List.forall_mem_cons.2 ⟨by decide +kernel,
      List.forall_mem_cons.2 ⟨by decide +kernel, List.forall_mem_nil _⟩⟩
  · exact List.forall_mem_cons.2 ⟨⟨d, false, hd, hb⟩,
      List.forall_mem_cons.2 ⟨⟨d', b', hd', hb'⟩, List.forall_mem_nil _⟩⟩

end Call

end FluentPattern
