import FluentPattern.Proofs.Copy

/-!
# Flags beside a pattern

A flag is kept beside the pattern and takes no part in writing it: a move does to the rest of the
builder what it does under any other flags. So a call that sets a flag may stand anywhere among
the calls, also between a quantity and its content or behind a first alternative that waits. The
flags of an embedded pattern stay with it: those that can be written inside a pattern stand in one
group around its copy, and `g` is not seen by the host at all.

Main statements: `Call.value_applyAll_withFlags` (calls under other flags),
`Call.build_flagsInserted` (calls that set flags inserted among other calls, and the pattern
embedded in hosts).
-/

namespace FluentPattern

/-! ## Sets of flags -/

namespace Flags

theorem contains_union (s t : Flags) (f : Flag) :
    (s.union t).contains f = (s.contains f || t.contains f) := by
  cases f <;> rfl

theorem contains_foldl_insert (fs : List Flag) (s : Flags) (f : Flag) :
    (fs.foldl insert s).contains f = true ↔ s.contains f = true ∨ f ∈ fs := by
  induction fs generalizing s with
  | nil => simp
  | cons g fs ih =>
    rw [List.foldl_cons, ih, contains_insert, List.mem_cons, Bool.or_eq_true, beq_iff_eq,
      eq_comm (a := g), or_comm (a := f = g), or_assoc]

theorem contains_ofList (fs : List Flag) (f : Flag) :
    (ofList fs).contains f = true ↔ f ∈ fs := by
  rw [ofList, contains_foldl_insert]
  cases f <;> simp [empty, contains]

/-- The letters stand in their canonical order. -/
theorem code_sublist (s : Flags) : s.code.Sublist ['i', 'm', 'g'] :=
  List.filter_sublist.map Flag.letter

theorem letter_mem_code (s : Flags) (f : Flag) : f.letter ∈ s.code ↔ s.contains f = true := by
  obtain ⟨i, m, g⟩ := s
  cases f <;> cases i <;> cases m <;> cases g <;> decide

/-- Flags that cannot be written inside a pattern are not written around it. -/
theorem inlineCode_union_ofList {fs : List Flag} (hfs : ∀ f ∈ fs, f = .everyMatch) (s : Flags) :
    (s.union (ofList fs)).inlineCode = s.inlineCode := by
  have hout {f : Flag} (hf : f ≠ .everyMatch) : (ofList fs).contains f = false :=
    eq_false_of_ne_true fun h => hf (hfs f ((contains_ofList fs f).1 h))
  have hi : (ofList fs).ignoreCase = false := hout (f := .ignoreCase) nofun
  have hm : (ofList fs).multiLine = false := hout (f := .multiLine) nofun
  have hunion : s.union (ofList fs) =
      { s with everyMatch := s.everyMatch || (ofList fs).everyMatch } := by
    rw [union, hi, hm, Bool.or_false, Bool.or_false]
  rw [hunion]
  obtain ⟨i, m, g⟩ := s
  cases i <;> cases m <;> cases g <;> cases (ofList fs).everyMatch <;> rfl

end Flags

/-! ## Moves and calls under other flags -/

/-- The builder with other flags. -/
def Builder.withFlags (b : Builder) (s : Flags) : Builder :=
  { b with flags := s }

theorem Builder.withFlags_ite {b b' c c' : Builder} {s : Flags} (hb : b' = b.withFlags s)
    (hc : c' = c.withFlags s) {x : Bool} :
    (if x then b' else c') = (if x then b else c).withFlags s := by
  cases x
  · exact hc
  · exact hb

/-- The flag that a move sets. -/
def Move.flag? : Move → Option Flag
  | flag f => some f
  | _ => none

/-- The flag that a call sets, if the call does nothing else. -/
def Call.flag? : Call → Option Flag
  | .word .ignoreCase => some .ignoreCase
  | .word .multiLine => some .multiLine
  | .word .everyMatch => some .everyMatch
  | .flag f => some f
  | _ => none

/-- Whether a call asserts an end of a line, which `m` tells apart from an end of the input. -/
def Call.IsLineAnchor (c : Call) : Prop :=
  c = .word .lineStart ∨ c = .word .lineEnd

/-- The flags that a call sets. -/
def Call.flags : Call → List Flag
  | .word .lineStart | .word .lineEnd => [.multiLine]
  | c => c.flag?.toList

/-- A move does the same under other flags. -/
theorem Move.apply_withFlags (b : Builder) (s : Flags) (m : Move) :
    m.apply (b.withFlags s) = (m.apply b).withFlags (m.flag?.toList.foldl Flags.insert s) := by
  cases m with
  | flag f => rfl
  | segment g =>
    rw [apply, apply, Builder.value_addSegment_eq, Builder.value_addSegment_eq]
    rfl
  | exactly n =>
    rw [apply, apply, Builder.value_exactly, Builder.value_exactly]
    rfl
  | atLeast n =>
    rw [apply, apply, Builder.value_atLeast, Builder.value_atLeast]
    rfl
  | atMost n =>
    rw [apply, apply, Builder.value_atMost, Builder.value_atMost]
    rfl
  | content c =>
    rw [apply, apply, Builder.value_withContent, Builder.value_withContent]
    rfl
  | groupAgain group =>
    by_cases hgroup : group = 0
    · rw [hgroup]
      rfl
    · rw [apply, apply, Builder.value_groupAgain _ hgroup, Builder.value_groupAgain _ hgroup]
      rfl
  | unit literal =>
    rw [apply, apply, Builder.value_unit, Builder.value_unit, Builder.value_withContent,
      Builder.value_withContent, Builder.value_addSegment_eq, Builder.value_addSegment_eq]
    refine Builder.withFlags_ite ?_ ?_ <;> rfl
  | like other =>
    cases hc : b.pending.content with
    | some c =>
      rw [apply, apply, Builder.value_like_of_some b other hc,
        Builder.value_like_of_some (b.withFlags s) other hc]
      rfl
    | none =>
      rw [apply, apply, Builder.value_like_of_none b other hc,
        Builder.value_like_of_none (b.withFlags s) other hc]
      rfl
  | reluctantly => rfl
  | captured =>
    show (b.withFlags s).captured = b.captured.withFlags s
    unfold Builder.captured
    refine Builder.withFlags_ite ?_ ?_ <;> rfl
  | either other =>
    rw [apply, apply, Builder.value_either, Builder.value_either]
    rfl
  | or other =>
    rw [apply, apply, Builder.value_or_pattern, Builder.value_or_pattern]
    rfl
  | look opening other =>
    rw [apply, apply, Builder.value_look, Builder.value_look]
    rfl
  | dropRun =>
    show (b.withFlags s).dropRun = b.dropRun.withFlags s
    unfold Builder.dropRun
    refine Builder.withFlags_ite ?_ ?_ <;> rfl

/-- So do moves in a row. -/
theorem Move.applyAll_withFlags (ms : List Move) (b : Builder) (s : Flags) :
    applyAll (b.withFlags s) ms =
      (applyAll b ms).withFlags ((ms.filterMap flag?).foldl Flags.insert s) := by
  induction ms generalizing b s with
  | nil => rfl
  | cons m ms ih =>
    rw [applyAll, List.foldl_cons, apply_withFlags]
    refine (ih _ _).trans ?_
    cases hm : m.flag? with
    | none => rw [List.filterMap_cons_none hm]; rfl
    | some f => rw [List.filterMap_cons_some hm]; rfl

/-- The moves of a call set the flags of the call. -/
theorem Call.filterMap_flag_moves (c : Call) : c.moves.filterMap Move.flag? = c.flags := by
  cases c with
  | word w => cases w <;> rfl
  | text w t => cases w <;> (rcases t with _ | ⟨x, _ | ⟨y, t⟩⟩ <;> rfl)
  | count w n =>
    cases w with
    | groupAgain => cases n <;> rfl
    | _ => rfl
  | range negated first last => cases negated <;> rfl
  | flag f => rfl
  | pattern w calls => cases w <;> rfl
  | textOperand w t => cases w <;> rfl
  | patternOperand w calls => cases w <;> rfl

/-- A call does the same under other flags. -/
theorem Call.value_apply_withFlags (c : Call) (b : Builder) (s : Flags) :
    (c.apply (b.withFlags s)).value =
      (c.apply b).value.withFlags (c.flags.foldl Flags.insert s) := by
  rw [value_apply, value_apply, Move.applyAll_withFlags, filterMap_flag_moves]

/-- So do calls in a row. -/
theorem Call.value_applyAll_withFlags : ∀ (calls : List Call) (b : Builder) (s : Flags),
    (applyAll (b.withFlags s) calls).value =
      (applyAll b calls).value.withFlags ((calls.flatMap flags).foldl Flags.insert s)
  | [], b, s => by
    rw [applyAll, applyAll]
    rfl
  | c :: calls, b, s => by
    rw [applyAll, applyAll, Logged.value_bind, Logged.value_bind, value_apply_withFlags,
      value_applyAll_withFlags calls, List.flatMap_cons, List.foldl_append]

/-- A pattern has the flags that its own calls set. -/
theorem Call.flags_build (calls : List Call) :
    (build calls).value.flags = .ofList (calls.flatMap flags) := by
  have h : (builder calls).flags = .ofList (calls.flatMap flags) :=
    congrArg Builder.flags (value_applyAll_withFlags calls .empty {})
  exact (congrArg Built.flags (Builder.value_build _)).trans h

theorem Call.mem_flags {c : Call} {f : Flag} :
    f ∈ c.flags ↔ c.flag? = some f ∨ c.IsLineAnchor ∧ f = .multiLine := by
  by_cases hline : c.IsLineAnchor
  · rcases hline with rfl | rfl
    all_goals simp [flags, flag?, IsLineAnchor]
  · have hflags : c.flags = c.flag?.toList := by
      unfold flags
      split
      · exact absurd (.inl rfl) hline
      · exact absurd (.inr rfl) hline
      · rfl
    rw [hflags, Option.mem_toList]
    exact (or_iff_left fun h => hline h.1).symm

/-! ## Calls that set flags among other calls -/

/-- Whether the second calls are the first ones with calls inserted that set the given flags and
do nothing else. -/
inductive Call.FlagsInserted : List Flag → List Call → List Call → Prop
  | nil : FlagsInserted [] [] []
  | keep {fs : List Flag} {calls calls' : List Call} (c : Call) :
    FlagsInserted fs calls calls' → FlagsInserted fs (c :: calls) (c :: calls')
  | insert {fs : List Flag} {calls calls' : List Call} {c : Call} {f : Flag} :
    c.flag? = some f → FlagsInserted fs calls calls' → FlagsInserted (f :: fs) calls (c :: calls')

/-- A call that sets a flag and does nothing else. -/
theorem Call.value_apply_of_flag {c : Call} {f : Flag} (hc : c.flag? = some f) (b : Builder) :
    (c.apply b).value = b.withFlags (b.flags.insert f) := by
  unfold flag? at hc
  split at hc
  case h_5 => exact absurd hc nofun
  all_goals
    cases hc
    rw [apply]
    rfl

namespace Call.FlagsInserted

variable {fs : List Flag} {calls calls' : List Call}

/-- The inserted calls change the flags only. -/
theorem value_applyAll (h : FlagsInserted fs calls calls') (b : Builder) :
    (applyAll b calls').value =
      (applyAll b calls).value.withFlags (applyAll b calls').value.flags := by
  induction h generalizing b with
  | nil => rfl
  | keep c _ ih =>
    rw [applyAll, applyAll]
    exact ih _
  | @insert fs calls calls' c f hc _ ih =>
    -- the rest of the calls do under the new flag what they do without it
    rw [applyAll, Logged.value_bind, value_apply_of_flag hc]
    refine (ih _).trans ?_
    rw [value_applyAll_withFlags calls]
    rfl

/-- The inserted calls add their flags to those of the other calls. -/
theorem mem_flags (h : FlagsInserted fs calls calls') {f : Flag} :
    f ∈ calls'.flatMap Call.flags ↔ f ∈ calls.flatMap Call.flags ∨ f ∈ fs := by
  induction h with
  | nil => simp
  | keep c _ ih => rw [List.flatMap_cons, List.flatMap_cons, List.mem_append, List.mem_append, ih,
      or_assoc]
  | @insert fs calls calls' c g hc _ ih =>
    have hflags : f ∈ c.flags ↔ f = g := by
      have hline : ¬c.IsLineAnchor := by
        rintro (rfl | rfl) <;> cases hc
      rw [Call.mem_flags, hc, Option.some.injEq, eq_comm]
      exact or_iff_left fun h => hline h.1
    rw [List.flatMap_cons, List.mem_append, ih, hflags, List.mem_cons]
    exact or_left_comm

/-- The pattern is the same, with the flags added. -/
theorem value_build (h : FlagsInserted fs calls calls') :
    (build calls').value =
      { (build calls).value with flags := (build calls).value.flags.union (.ofList fs) } := by
  have hflags : (build calls').value.flags = (build calls).value.flags.union (.ofList fs) := by
    refine Flags.eq_of_contains fun f => Bool.eq_iff_iff.2 ?_
    rw [Flags.contains_union, Bool.or_eq_true, flags_build, flags_build, Flags.contains_ofList,
      Flags.contains_ofList, Flags.contains_ofList, h.mem_flags]
  have hbuild : (build calls').value =
      { (build calls).value with flags := (build calls').value.flags } := by
    have hbuilder : builder calls' = (builder calls).withFlags (builder calls').flags :=
      h.value_applyAll .empty
    show (builder calls').build.value =
      { (builder calls).build.value with flags := (builder calls').build.value.flags }
    rw [Builder.value_build (builder calls'), Builder.value_build (builder calls), hbuilder]
    rfl
  rw [hbuild, hflags]

end Call.FlagsInserted

/-! ## Embedded flags -/

theorem Built.eq_mk {p : Built} {t : Text} {s : Flags} {n : Nat} {e : Bool}
    (hliteral : p.literal = t) (hflags : p.flags = s) (hgroups : p.groups = n)
    (hextended : p.extended = e) : p = ⟨t, s, n, e⟩ := by
  rw [← hliteral, ← hflags, ← hgroups, ← hextended]

/-- A text as it is embedded with flags: in one group that sets those that can be written inside
a pattern. -/
def Flags.scoped (s : Flags) (t : Text) : Text :=
  if s.inlineCode.isEmpty then t else ['(', '?'] ++ s.inlineCode ++ ':' :: t ++ [')']

theorem Flags.scoped_eq (s : Flags) :
    (∀ t, s.scoped t = t) ∨
      ∃ fs : Flags, ∀ t, s.scoped t = (GroupKind.flagged fs).text ++ (t ++ [')']) := by
  have hliteral (t : Text) : s.scoped t = (⟨t, s, 0, false⟩ : Built).scopedLiteral := rfl
  rcases Built.scopedLiteral_eq s with h | ⟨fs, -, h⟩
  · exact .inl fun t => (hliteral t).trans (h _ rfl)
  · exact .inr ⟨fs, fun t => (hliteral t).trans (h _ rfl)⟩

/-- The flags around a literal are not renumbered. -/
theorem Flags.shiftAll_scoped (s : Flags) {t : Text} (ht : t.IsRow) (offsets : List Nat) :
    shiftAll offsets (s.scoped t) = s.scoped (shiftAll offsets t) := by
  rcases s.scoped_eq with h | ⟨fs, h⟩
  · rw [h, h]
  · rw [h, h]
    induction offsets generalizing t with
    | nil => rfl
    | cons d offsets ih =>
      refine Eq.trans (congrArg (shiftAll offsets) ?_) (ih (ht.shift d))
      show shiftReferences d _ = (GroupKind.flagged fs).text ++ (shiftReferences d t ++ [')'])
      rw [shiftReferences_opening, ht.settled.shiftReferences_append rfl,
        shiftReferences_cons (by decide)]
      simp [shiftReferences]

/-- Inserting calls that set flags, anywhere and any number of times, adds these flags to the
pattern and changes nothing else. A pattern has the flags that its own calls set, with `m` for the
ends of a line, and its code has the letters of these flags in their canonical order.

Where the pattern is embedded in hosts, its flags do not reach those of the hosts. They stand in one
group around the copy of the pattern, and nothing else depends on them; a flag that cannot be
written inside a pattern has no effect at all. -/
theorem Call.build_flagsInserted {fs : List Flag} {calls calls' : List Call}
    (hfs : FlagsInserted fs calls calls') :
    let p := (build calls).value
    let p' := (build calls').value
    p' = { p with flags := p.flags.union (.ofList fs) } ∧
    (∀ f : Flag, p.flags.contains f = true ↔
      ∃ c ∈ calls, c.flag? = some f ∨ c.IsLineAnchor ∧ f = .multiLine) ∧
    (p.flags.code.Sublist ['i', 'm', 'g'] ∧
      ∀ f : Flag, f.letter ∈ p.flags.code ↔ p.flags.contains f = true) ∧
    ∀ (h : Host) (hs : List Host),
      let b := builder (Host.nest (h :: hs) calls)
      let b' := builder (Host.nest (h :: hs) calls')
      ((∃ x ∈ h :: hs, ¬x.Accepts) ∨ (∀ f ∈ fs, f = .everyMatch) → b' = b) ∧
      ((∀ x ∈ h :: hs, x.Accepts) → ∃ (lead rest : Text) (offsets : List Nat),
        let copy := shiftAll offsets p.literal
        b.literal = lead ++ (p.flags.scoped copy ++ rest) ∧
        b'.build.value =
          { b.build.value with literal := lead ++ (p'.flags.scoped copy ++ rest) }) := by
  intro p p'
  have hp' : p' = { p with flags := p.flags.union (.ofList fs) } := hfs.value_build
  have hliteral : p'.literal = p.literal := by rw [hp']
  have hgroups : p'.groups = p.groups := by rw [hp']
  have hextended : p'.extended = p.extended := by rw [hp']
  refine ⟨hp', fun f => ?_, ⟨p.flags.code_sublist, p.flags.letter_mem_code⟩, fun h hs => ⟨?_, ?_⟩⟩
  · rw [flags_build, Flags.contains_ofList, List.mem_flatMap]
    simp only [mem_flags]
  · rintro (hrefused | hinline)
    · exact Host.builder_nest_of_not_accepts hrefused calls calls'
    · -- without a group of flags around it the pattern is embedded as before
      refine Host.builder_nest_congr hs (h.builder_around_congr ?_ hgroups hextended)
      show p'.scopedLiteral = p.scopedLiteral
      rw [hp', Built.scopedLiteral, Built.scopedLiteral, Flags.inlineCode_union_ofList hinline]
  · intro hacc
    obtain ⟨s, hsur⟩ := Host.exists_surrounding_nest h hs p.groups hacc
    obtain ⟨e, hext⟩ := Host.exists_extended_nest h hs p.groups hacc
    have hrow : Text.IsRow p.literal := (isFormed_builder calls).isRow_literal
    have hr := hsur calls rfl
    have hr' := hsur calls' hgroups
    have haround (q : Built) (hq : q.literal = p.literal) :
        s.lead ++ (shiftAll s.offsets q.scopedLiteral ++ s.rest) =
          s.lead ++ (q.flags.scoped (shiftAll s.offsets p.literal) ++ s.rest) := by
      rw [← Flags.shiftAll_scoped _ hrow, ← hq]
      rfl
    have hliteral' := hr'.literal.trans (haround p' hliteral)
    have hflags' := hr'.flags.trans hr.flags.symm
    have hgroups' := hr'.groups.trans hr.groups.symm
    have hextended' := (hext calls' hgroups).trans
      ((congrArg (e || ·) hextended).trans (hext calls rfl).symm)
    exact ⟨s.lead, s.rest, s.offsets, hr.literal.trans (haround p rfl),
      Built.eq_mk hliteral' hflags' hgroups' hextended'⟩

/-- A flag between a quantity and its content, in an alternative of a pattern that is asserted to
follow: it stands around the copy of the alternative. -/
theorem Call.build_flagsInserted_alternative :
    let calls : List Call := [.count .exactly 2, .word .digits]
    let calls' : List Call :=
      [.count .exactly 2, .flag .ignoreCase, .word .digits, .word .everyMatch]
    let hosts : List Host :=
      [⟨[.text .once ['a']], .operand .or, []⟩, ⟨[], .pattern .ahead, [.word .multiLine]⟩]
    (build calls').value = { (build calls).value with flags := ⟨true, false, true⟩ } ∧
    ∃ lead copy rest : Text,
      (builder (Host.nest hosts calls)).literal = lead ++ (copy ++ rest) ∧
      (builder (Host.nest hosts calls')).literal =
        lead ++ ("(?i:".toList ++ copy ++ [')'] ++ rest) := by
  intro calls calls' hosts
  have hfs : FlagsInserted [.ignoreCase, .everyMatch] calls calls' :=
    .keep _ (.insert rfl (.keep _ (.insert rfl .nil)))
  obtain ⟨hbuild, -, -, hhosts⟩ := build_flagsInserted hfs
  refine ⟨hbuild, ?_⟩
  have hacc : ∀ x ∈ hosts, x.Accepts := by
    intro x hx
    rcases List.mem_cons.1 hx with rfl | hx
    · exact nofun
    · rw [List.mem_singleton.1 hx]
      exact nofun
  obtain ⟨lead, rest, offsets, hliteral, hliteral'⟩ := (hhosts _ _).2 hacc
  exact ⟨lead, _, rest, hliteral, congrArg Built.literal hliteral'⟩

end FluentPattern
