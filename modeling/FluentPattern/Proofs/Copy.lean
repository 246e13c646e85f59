import FluentPattern.Proofs.Frame

/-!
# Copies of embedded patterns

A host is the calls before and after a pattern is embedded. Whatever calls follow, and
however often the host is embedded in other hosts, the finished pattern has a copy of
the embedded one, in which every backreference has moved by the number of groups that
open before the copy. So it still means the group of the pattern that it meant.

Main statements: `Host.exists_surrounding` (what a host writes around a pattern),
`Host.exists_surrounding_nest`, `Host.exists_copy`.
-/

namespace FluentPattern

/-! ## Hosts -/

/-- The calls that embed a pattern. -/
inductive Taker where
  | pattern (w : PatternWord)
  | operand (w : OperandWord)
deriving DecidableEq

/-- The call with a pattern that is given by its calls. -/
def Taker.call (calls : List Call) : Taker → Call
  | pattern w => .pattern w calls
  | operand w => .patternOperand w calls

/-- The calls around an embedded pattern. -/
structure Host where
  /-- The calls before the pattern is embedded. -/
  before : List Call
  /-- How the pattern is embedded. -/
  taker : Taker
  /-- The calls after the pattern is embedded. -/
  after : List Call

namespace Host

/-- All calls of a host that embeds a pattern. -/
def around (h : Host) (calls : List Call) : List Call :=
  h.before ++ h.taker.call calls :: h.after

/-- Whether the host accepts a pattern: as content only if there is none yet. -/
def Accepts (h : Host) : Prop :=
  h.taker = .pattern .like → (Call.builder h.before).pending.content = none

/-- The calls of a pattern embedded in hosts, each of which but the last is embedded in
the next one. -/
def nest : List Host → List Call → List Call
  | [], calls => calls
  | h :: hs, calls => nest hs (h.around calls)

end Host

/-! ## Embedding calls as moves -/

namespace Taker

/-- The moves of the call before the pattern is embedded. -/
def first : Taker → List Move
  | pattern .append => [.exactly 1]
  | pattern .optional => [.atMost 1]
  | operand .nor => [.dropRun]
  | _ => []

/-- The place in which the call embeds the pattern. -/
def slot : Taker → Slot
  | pattern .like | pattern .append | pattern .optional => .like
  | pattern .ahead => .look .ahead
  | pattern .notAhead | operand .neither | operand .nor => .look .notAhead
  | operand .either => .either
  | operand .or => .or

/-- The moves of the call after the pattern is embedded. -/
def second : Taker → List Move
  | operand .nor => [.atLeast 0, .content .anyChar]
  | _ => []

/-- The call embeds the pattern in one move, and the moves around do not depend on it. -/
theorem moves_call (k : Taker) (calls : List Call) :
    (k.call calls).moves = k.first ++ k.slot.move (Call.builder calls) :: k.second := by
  rcases k with w | w <;> cases w <;> rfl

theorem allowed_first (k : Taker) {P : Builder → Prop} : ∀ m ∈ k.first, m.Allowed P := by
  rcases k with w | w <;> cases w <;> simp [first, Move.Allowed]

theorem allowed_second (k : Taker) {P : Builder → Prop} : ∀ m ∈ k.second, m.Allowed P := by
  rcases k with w | w <;> cases w <;> simp [second, Move.Allowed, Content.IsGiven.anyChar]

theorem slot_ne_capture (k : Taker) : k.slot ≠ .look .capture := by
  rcases k with w | w <;> cases w <;> simp [slot]

/-- A quantity finishes what is in progress, so only `like` alone can be refused. -/
theorem accepts_slot {k : Taker} {b : Builder}
    (h : k = .pattern .like → b.pending.content = none) :
    k.slot.Accepts (Move.applyAll b k.first) := by
  rcases k with w | w
  · cases w with
    | like => exact h rfl
    | append =>
      show (b.exactly 1).value.pending.content = none
      rw [Builder.value_exactly]
      exact b.content_waiting
    | optional =>
      show (b.atMost 1).value.pending.content = none
      rw [Builder.value_atMost]
      exact b.content_waiting
    | _ => exact trivial
  · cases w <;> exact trivial

end Taker

/-! ## What stands around a copy -/

theorem Call.allowed_flatMap_moves (calls : List Call) :
    ∀ m ∈ calls.flatMap Call.moves, m.Allowed Builder.IsCounted := by
  intro m hm
  obtain ⟨c, -, hc⟩ := List.mem_flatMap.1 hm
  exact Call.allowed_moves Builder.IsCounted.empty (fun _ _ hb hm => hb.apply hm) c m hc

namespace Host

/-- The builder as it takes the pattern. -/
def taking (h : Host) : Builder :=
  Move.applyAll (Call.builder h.before) h.taker.first

/-- The moves behind the pattern. -/
def movesAfter (h : Host) : List Move :=
  h.taker.second ++ h.after.flatMap Call.moves

/-- A host makes its moves around the one that embeds the pattern. -/
theorem builder_around (h : Host) (calls : List Call) :
    Call.builder (h.around calls) =
      Move.applyAll ((h.taker.slot.move (Call.builder calls)).apply h.taking) h.movesAfter := by
  rw [Host.around, Call.builder, Call.value_applyAll_append, Call.value_applyAll,
    List.flatMap_cons, Taker.moves_call]
  simp only [taking, movesAfter, Move.applyAll, List.foldl_append, List.foldl_cons]
  rfl

/-- What a host does with a pattern depends on the number of the groups of the pattern only. -/
theorem exists_frame (h : Host) (hacc : h.Accepts) (n : Nat) :
    ∃ f : Frame, f.IsNumbered ∧ ∀ calls, (Call.build calls).value.groups = n →
      f.Holds (Call.build calls).value.scopedLiteral (Call.build calls).value.extended
        (Call.builder (h.around calls)) := by
  have hb : h.taking.IsCounted :=
    Move.holds_applyAll (fun _ _ hb hm => hb.apply hm) _ _ (Call.isCounted_builder h.before)
      h.taker.allowed_first
  obtain ⟨f, hf, hembed⟩ :=
    h.taker.slot.exists_frame hb (Taker.accepts_slot hacc) h.taker.slot_ne_capture n
  have hafter : ∀ m ∈ h.movesAfter, m.Allowed Builder.IsCounted := by
    intro m hm
    rcases List.mem_append.1 hm with hm | hm
    · exact h.taker.allowed_second m hm
    · exact Call.allowed_flatMap_moves h.after m hm
  obtain ⟨g, hg, hrun⟩ := Frame.exists_applyAll _ hf hafter
  refine ⟨g, hg, fun calls hn => ?_⟩
  rw [builder_around]
  exact hrun _ _ _ (hembed (Call.builder calls) hn)

/-- Around an embedded pattern a host writes what depends on the number of the groups of
the pattern only. -/
theorem exists_surrounding (h : Host) (hacc : h.Accepts) (n : Nat) :
    ∃ s : Surrounding, ∀ calls, (Call.build calls).value.groups = n →
      s.Holds (Call.build calls).value.scopedLiteral (Call.build (h.around calls)).value := by
  obtain ⟨f, hf, hframe⟩ := h.exists_frame hacc n
  obtain ⟨s, hs⟩ := Frame.exists_surrounding hf
  exact ⟨s, fun calls hn => hs _ _ _ (hframe calls hn)⟩

end Host

/-- So do hosts in hosts. -/
theorem Host.exists_surrounding_nest : ∀ (h : Host) (hs : List Host) (n : Nat),
    (∀ x ∈ h :: hs, x.Accepts) →
    ∃ s : Surrounding, ∀ calls, (Call.build calls).value.groups = n →
      s.Holds (Call.build calls).value.scopedLiteral (Call.build (nest (h :: hs) calls)).value
  | h, [], n, hacc => h.exists_surrounding (hacc h List.mem_cons_self) n
  | h, h' :: hs, n, hacc => by
    obtain ⟨inner, hinner⟩ := h.exists_surrounding (hacc h List.mem_cons_self) n
    obtain ⟨outer, houter⟩ := exists_surrounding_nest h' hs inner.groups
      fun x hx => hacc x (List.mem_cons_of_mem _ hx)
    obtain ⟨s, hs⟩ := inner.exists_embedded outer
    refine ⟨s, fun calls hn => ?_⟩
    have hp := hinner calls hn
    have hrow : Text.IsRow (Call.build calls).value.scopedLiteral :=
      (Call.isFormed_builder calls).isRow_scopedLiteral
    exact hs _ _ _ hrow hp (houter (h.around calls) hp.groups)

/-- A host needs the extended engine if it needs it without the pattern or the pattern does. -/
theorem Host.exists_extended (h : Host) (hacc : h.Accepts) (n : Nat) :
    ∃ e : Bool, ∀ calls, (Call.build calls).value.groups = n →
      (Call.build (h.around calls)).value.extended =
        (e || (Call.build calls).value.extended) := by
  obtain ⟨f, -, hframe⟩ := h.exists_frame hacc n
  obtain ⟨e, he⟩ := f.exists_extended
  refine ⟨e, fun calls hn => ?_⟩
  exact (congrArg Built.extended (Builder.value_build _)).trans (he _ _ _ (hframe calls hn))

/-- So do hosts in hosts. -/
theorem Host.exists_extended_nest : ∀ (h : Host) (hs : List Host) (n : Nat),
    (∀ x ∈ h :: hs, x.Accepts) →
    ∃ e : Bool, ∀ calls, (Call.build calls).value.groups = n →
      (Call.build (nest (h :: hs) calls)).value.extended =
        (e || (Call.build calls).value.extended)
  | h, [], n, hacc => h.exists_extended (hacc h List.mem_cons_self) n
  | h, h' :: hs, n, hacc => by
    have hh := hacc h List.mem_cons_self
    obtain ⟨inner, hinner⟩ := h.exists_surrounding hh n
    obtain ⟨e, he⟩ := h.exists_extended hh n
    obtain ⟨e', he'⟩ := exists_extended_nest h' hs inner.groups
      fun x hx => hacc x (List.mem_cons_of_mem _ hx)
    refine ⟨e' || e, fun calls hn => ?_⟩
    rw [nest, he' (h.around calls) (hinner calls hn).groups, he calls hn, Bool.or_assoc]

/-! ## What a host sees of a pattern -/

/-- A slot sees of a pattern how it is written with its flags, its groups and its engine. -/
theorem Slot.apply_congr (slot : Slot) {other other' : Builder}
    (hliteral : other'.build.value.scopedLiteral = other.build.value.scopedLiteral)
    (hgroups : other'.build.value.groups = other.build.value.groups)
    (hextended : other'.build.value.extended = other.build.value.extended) (b : Builder) :
    (slot.move other').apply b = (slot.move other).apply b := by
  have hembedded (d : Nat) :
      other'.build.value.embedded d = other.build.value.embedded d :=
    congrArg (shiftReferences d) hliteral
  cases slot with
  | like =>
    cases hc : b.pending.content with
    | some c =>
      exact (Builder.value_like_of_some b other' hc).trans
        (Builder.value_like_of_some b other hc).symm
    | none =>
      rw [move, move, Move.apply, Move.apply, Builder.value_like_of_none b other' hc,
        Builder.value_like_of_none b other hc, hembedded, hgroups, hextended]
  | either =>
    rw [move, move, Move.apply, Move.apply, Builder.value_either, Builder.value_either,
      hembedded, hgroups, hextended]
  | or =>
    rw [move, move, Move.apply, Move.apply, Builder.value_or_pattern, Builder.value_or_pattern,
      hembedded, hgroups, hextended]
  | look opening =>
    rw [move, move, Move.apply, Move.apply, Builder.value_look, Builder.value_look, hembedded,
      hgroups]

namespace Host

theorem builder_around_congr (h : Host) {calls calls' : List Call}
    (hliteral : (Call.build calls').value.scopedLiteral = (Call.build calls).value.scopedLiteral)
    (hgroups : (Call.build calls').value.groups = (Call.build calls).value.groups)
    (hextended : (Call.build calls').value.extended = (Call.build calls).value.extended) :
    Call.builder (h.around calls') = Call.builder (h.around calls) := by
  rw [builder_around, builder_around]
  exact congrArg (Move.applyAll · h.movesAfter)
    (h.taker.slot.apply_congr hliteral hgroups hextended h.taking)

/-- Hosts see of calls only the builder that they give. -/
theorem builder_nest_congr (hs : List Host) {calls calls' : List Call}
    (heq : Call.builder calls' = Call.builder calls) :
    Call.builder (nest hs calls') = Call.builder (nest hs calls) := by
  have hbuild {calls calls' : List Call} (heq : Call.builder calls' = Call.builder calls) :
      (Call.build calls').value = (Call.build calls).value :=
    congrArg (fun b : Builder => b.build.value) heq
  induction hs generalizing calls calls' with
  | nil => exact heq
  | cons h hs ih =>
    refine ih (h.builder_around_congr ?_ ?_ ?_)
    all_goals rw [hbuild heq]

/-- A host that does not accept a pattern is the same whatever the pattern is. -/
theorem builder_around_of_not_accepts {h : Host} (hacc : ¬h.Accepts) (calls calls' : List Call) :
    Call.builder (h.around calls') = Call.builder (h.around calls) := by
  obtain ⟨hlike, hcontent⟩ := Classical.not_imp.1 hacc
  obtain ⟨c, hc⟩ := Option.ne_none_iff_exists'.1 hcontent
  have htaking : h.taking = Call.builder h.before := by
    rw [taking, hlike]
    rfl
  have hslot : h.taker.slot = .like := by
    rw [hlike]
    rfl
  rw [builder_around, builder_around, htaking, hslot]
  refine congrArg (Move.applyAll · h.movesAfter) ?_
  exact (Builder.value_like_of_some _ _ hc).trans (Builder.value_like_of_some _ _ hc).symm

/-- So are the hosts around it. -/
theorem builder_nest_of_not_accepts {hs : List Host} (hacc : ∃ x ∈ hs, ¬x.Accepts)
    (calls calls' : List Call) :
    Call.builder (nest hs calls') = Call.builder (nest hs calls) := by
  obtain ⟨x, hx, hrefuses⟩ := hacc
  induction hs generalizing calls calls' with
  | nil => exact absurd hx List.not_mem_nil
  | cons h hs ih =>
    rcases List.mem_cons.1 hx with rfl | hx
    · exact builder_nest_congr hs (builder_around_of_not_accepts hrefuses calls calls')
    · exact ih _ _ hx

end Host

/-! ## Copies -/

/-- The lexeme with `offset` added to the number of a backreference. -/
def Lexeme.move (offset : Nat) : Lexeme → Lexeme
  | reference digits => reference (Text.decimal (digits.readDecimal + offset))
  | l => l

/-- The sign with `offset` added to the number of a backreference. -/
def Sign.move (offset : Nat) (s : Sign) : Sign :=
  { s with lexeme := s.lexeme.move offset }

/-- Whether every backreference of a pattern names one of its own groups. -/
def Built.IsClosed (p : Built) : Prop :=
  ∀ ds, Lexeme.reference ds ∈ lexemes p.literal → 1 ≤ ds.readDecimal ∧ ds.readDecimal ≤ p.groups

/-- The backreferences of a text of the grammar are written without leading zeros. -/
theorem Spells.exists_decimal {t : Text} {bs : Branches} (h : Spells t bs) {ds : Text}
    (hds : Lexeme.reference ds ∈ lexemes t) : ∃ n, ds = Text.decimal n := by
  induction h with
  | nil =>
    rw [lexemes_nil] at hds
    exact absurd hds List.not_mem_nil
  | bar _ ih =>
    rw [lexemes_plain (by decide)] at hds
    exact ih (by simpa using hds)
  | @single c _ _ _ _ ha _ ih =>
    have hc : c ≠ '\\' := by
      rintro rfl
      simp [Atom.ofChar?] at ha
    rw [lexemes_plain hc] at hds
    exact ih (by simpa using hds)
  | escape hc _ _ ih =>
    rw [lexemes_pair hc] at hds
    exact ih (by simpa using hds)
  | reference n ht _ ih =>
    rw [lexemes_reference (Text.decimal_ne_nil n) (fun _ hc => Text.isDigit_of_mem_decimal hc) ht]
      at hds
    rcases List.mem_cons.1 hds with hds | hds
    · exact ⟨n, Lexeme.reference.inj hds⟩
    · exact ih hds
  | bracket negated _ hm _ _ ih =>
    rw [← map_lexeme_signs, signs_classText negated hm, List.map_append, map_lexeme_signs] at hds
    rcases List.mem_append.1 hds with hds | hds
    · obtain ⟨x, hx, he⟩ := List.mem_map.1 hds
      have hx := isReference_of_mem_classSigns hx
      rw [he] at hx
      exact absurd hx Bool.noConfusion
    · exact ih hds
  | group k q _ hs _ ihs iht => exact (hs.mem_lexemes_group hds).elim ihs iht

/-- If all numbers fit, every backreference moves. -/
theorem Spells.signs_shiftReferences {t : Text} {bs : Branches} (ht : Spells t bs) {d : Nat}
    (h : ∀ ds, Lexeme.reference ds ∈ lexemes t → ds.readDecimal ≤ Lexeme.largestGroup) :
    signs (shiftReferences d t) = (signs t).map (Sign.move d) := by
  have hmem {x : Sign} (hx : x ∈ signs t) : x.lexeme ∈ lexemes t := by
    rw [← map_lexeme_signs]
    exact List.mem_map_of_mem hx
  by_cases hd : d = 0
  · rw [hd, shiftReferences_zero]
    refine ((List.map_congr_left fun x hx => ?_).trans (List.map_id _)).symm
    obtain ⟨l, o⟩ := x
    cases l with
    | reference ds =>
      obtain ⟨n, rfl⟩ := ht.exists_decimal (hmem hx)
      simp [Sign.move, Lexeme.move, Text.readDecimal_decimal]
    | _ => rfl
  · rw [FluentPattern.signs_shiftReferences hd]
    refine List.map_congr_left fun x hx => ?_
    obtain ⟨l, o⟩ := x
    cases l with
    | reference ds =>
      exact congrArg (Sign.mk · o) (Lexeme.shift_reference (h ds (hmem hx)) d)
    | _ => rfl

/-- One renumbering by the sum does what the offsets do one after the other, if all numbers
fit. -/
theorem shiftAll_eq {offsets : List Nat} {t : Text}
    (h : ∀ ds, Lexeme.reference ds ∈ lexemes t →
      ds.readDecimal + offsets.sum ≤ Lexeme.largestGroup) :
    shiftAll offsets t = shiftReferences offsets.sum t := by
  induction offsets generalizing t with
  | nil => exact (shiftReferences_zero t).symm
  | cons d offsets ih =>
    rw [List.sum_cons] at h
    have hnext : ∀ ds, Lexeme.reference ds ∈ lexemes (shiftReferences d t) →
        ds.readDecimal + offsets.sum ≤ Lexeme.largestGroup := by
      intro ds hds
      by_cases hd : d = 0
      · rw [hd, shiftReferences_zero] at hds
        have := h ds hds
        omega
      · rw [lexemes_shiftReferences hd] at hds
        obtain ⟨l, hl, he⟩ := List.mem_map.1 hds
        cases l with
        | reference es =>
          have hes := h es hl
          rw [Lexeme.shift_reference (by omega)] at he
          rw [← Lexeme.reference.inj he, Text.readDecimal_decimal]
          omega
        | _ => exact absurd he Lexeme.noConfusion
    show shiftAll offsets (shiftReferences d t) = _
    rw [ih hnext, shiftReferences_shiftReferences, List.sum_cons, Nat.add_comm]
    intro ds hds _
    have := h ds hds
    omega

theorem groupAt?_map_move (d : Nat) (ss : List Sign) (i : Nat) :
    groupAt? (ss.map (Sign.move d)) i = groupAt? ss i := by
  unfold groupAt?
  rw [List.getElem?_map, ← List.map_take, List.countP_map]
  cases ss[i]? <;> rfl

/-- The flags around a literal have no backreferences. -/
theorem Built.mem_lexemes_of_mem_scopedLiteral {p : Built} (hp : p.literal.IsRow) {ds : Text}
    (h : Lexeme.reference ds ∈ lexemes p.scopedLiteral) :
    Lexeme.reference ds ∈ lexemes p.literal := by
  obtain ⟨b, hb⟩ := hp
  rcases scopedLiteral_eq p.flags with hs | ⟨fs, -, hs⟩
  · rwa [hs p rfl] at h
  · rw [hs p rfl] at h
    exact (hb.mem_lexemes_group h).resolve_right (by simp)

/-- A pattern all of whose backreferences name groups of its own, embedded in a host that is
perhaps embedded in turn, has one copy in the finished pattern. In the copy the number of
groups that open before it is added to every backreference, and every group has the
number that it has in the pattern with the same added; nothing else changes. What stands
around the copy depends on the number of the groups of the pattern only. -/
theorem Host.exists_copy (h : Host) (hs : List Host) (hacc : ∀ x ∈ h :: hs, x.Accepts) (n : Nat) :
    ∃ before after : List Sign, ∀ calls : List Call,
      let p := (Call.build calls).value
      let r := (Call.build (nest (h :: hs) calls)).value
      let d := before.countP Sign.opens
      p.groups = n → p.IsClosed → r.groups ≤ Lexeme.largestGroup →
        signs r.literal = before ++ ((signs p.scopedLiteral).map (Sign.move d) ++ after) ∧
        ∀ i < (signs p.scopedLiteral).length,
          groupAt? (signs r.literal) (before.length + i) =
            (groupAt? (signs p.scopedLiteral) i).map (d + ·) := by
  obtain ⟨s, hsur⟩ := exists_surrounding_nest h hs n hacc
  refine ⟨signs s.lead, signs s.rest, fun calls => ?_⟩
  intro p r d hn hclosed hfit
  have hr : s.Holds p.scopedLiteral r := hsur calls hn
  have hp : (Call.builder calls).IsCounted := Call.isCounted_builder calls
  have hrow : Text.IsRow p.scopedLiteral := hp.isFormed.isRow_scopedLiteral
  have hopen : openings p.scopedLiteral = n :=
    (p.openings_scopedLiteral hp.isFormed.isRow_literal).trans (hp.openings_literal.trans hn)
  have hd : d = s.offsets.sum := s.openings_lead
  -- the finished pattern has the groups before the copy and those of the copy
  have hgroups : d + n ≤ r.groups := by
    have hcount : openings r.literal = r.groups :=
      (Call.isCounted_builder (nest (h :: hs) calls)).openings_literal
    have hsum := signs_lead_row_rest s.isLead (hrow.shiftAll s.offsets) s.isRest
    rw [← hcount, hr.literal, openings, hsum, List.countP_append, List.countP_append]
    have hcopy : openings (shiftAll s.offsets p.scopedLiteral) = n :=
      (openings_shiftAll s.offsets _).trans hopen
    unfold openings at hcopy
    omega
  have hrefs : ∀ ds, Lexeme.reference ds ∈ lexemes p.scopedLiteral →
      ds.readDecimal + s.offsets.sum ≤ Lexeme.largestGroup := by
    intro ds hds
    have hk := hclosed ds (Built.mem_lexemes_of_mem_scopedLiteral hp.isFormed.isRow_literal hds)
    omega
  have hcopy : signs (shiftAll s.offsets p.scopedLiteral) =
      (signs p.scopedLiteral).map (Sign.move d) := by
    obtain ⟨b, hb⟩ := hrow
    rw [shiftAll_eq hrefs, hd]
    exact hb.signs_shiftReferences fun ds hds => Nat.le_of_add_right_le (hrefs ds hds)
  have hsigns : signs r.literal =
      signs s.lead ++ ((signs p.scopedLiteral).map (Sign.move d) ++ signs s.rest) := by
    rw [hr.literal, signs_lead_row_rest s.isLead (hrow.shiftAll s.offsets) s.isRest, hcopy]
  refine ⟨hsigns, fun i hi => ?_⟩
  rw [hsigns, groupAt?_append, groupAt?_append_left (by rwa [List.length_map]), groupAt?_map_move]

/-- A captured character twice, embedded in a host that captures it after another group, in a
host that holds all of it as an alternative. -/
theorem Host.exists_copy_twice :
    let twice : List Call :=
      [.word .captured, .word .anyChar, .count .exactly 1, .count .groupAgain 1]
    let inner : Host :=
      ⟨[.word .captured, .word .anyChar, .count .exactly 2], .pattern .like, [.word .captured]⟩
    let outer : Host := ⟨[.word .captured, .word .anyChar], .operand .either, []⟩
    ∃ before after : List Sign,
      signs (Call.build (nest [inner, outer] twice)).value.literal =
        before ++ ((signs (Call.build twice).value.scopedLiteral).map
          (Sign.move (before.countP Sign.opens)) ++ after) := by
  intro twice inner outer
  have hacc : ∀ x ∈ [inner, outer], x.Accepts := by
    intro x hx
    rcases List.mem_cons.1 hx with rfl | hx
    · intro _
      decide
    · rw [List.mem_singleton.1 hx]
      intro h
      exact absurd h (by decide)
  have hclosed : (Call.build twice).value.IsClosed := by
    have hl : (Call.build twice).value.literal = "((?:.))(?:(?:\\1)\x7b1,1\x7d)".toList := by decide
    intro ds hds
    rw [hl] at hds
    simp [lexemes, Text.digits, Text.afterDigits] at hds
    rw [hds]
    decide
  obtain ⟨before, after, h⟩ := exists_copy inner [outer] hacc 1
  exact ⟨before, after, (h twice (by decide) hclosed (by decide)).1⟩

end FluentPattern
