import FluentPattern.Proofs.Matching.Lowered

/-!
# Where the ways stop

The two engines lower an endless repetition to different nodes, which prefer different
ways and pass groups differently. But the ways stop at the same positions. So a tree that
both engines admit, and that has no backreferences and no lookaheads, matches up to the same
positions in either.

Main statements: `Ways.SameStops.plus_seq_star` and `Ways.SameStops.orEmpty_plus_star` (an
iteration that may be empty before the ones that may not), `Branches.sameStops_lower`.
-/

namespace FluentPattern

namespace Ways

/-- Some way stops at `q`. -/
def StopsAt (w : Ways) (p : Nat) (r : Record) (q : Nat) : Prop :=
  ∃ v ∈ w p r, v.stop = q

variable {v w : Ways} {p q : Nat} {r : Record}

theorem stopsAt_unit : unit.StopsAt p r q ↔ p = q := by
  simp [StopsAt, unit]

theorem stopsAt_seq :
    (seq v w).StopsAt p r q ↔ ∃ x ∈ v p r, w.StopsAt x.stop x.record q := by
  simp only [StopsAt, seq, List.mem_flatMap]
  constructor
  · rintro ⟨y, ⟨x, hx, hy⟩, rfl⟩
    exact ⟨x, hx, y, hy, rfl⟩
  · rintro ⟨x, hx, y, hy, rfl⟩
    exact ⟨y, ⟨x, hx, hy⟩, rfl⟩

theorem stopsAt_alt : (alt v w).StopsAt p r q ↔ v.StopsAt p r q ∨ w.StopsAt p r q := by
  simp only [StopsAt, alt, List.mem_append, or_and_right, exists_or]

theorem stopsAt_orEmpty (greedy : Bool) :
    (orEmpty greedy w).StopsAt p r q ↔ p = q ∨ w.StopsAt p r q := by
  cases greedy with
  | true => exact (stopsAt_alt.trans (or_congr_right stopsAt_unit)).trans or_comm
  | false => exact stopsAt_alt.trans (or_congr_left stopsAt_unit)

theorem stopsAt_moving : (moving w).StopsAt p r q ↔ p < q ∧ w.StopsAt p r q := by
  simp only [StopsAt, moving, List.mem_filter, decide_eq_true_eq]
  constructor
  · rintro ⟨x, ⟨hx, hlt⟩, rfl⟩
    exact ⟨hlt, x, hx, rfl⟩
  · rintro ⟨hlt, x, hx, rfl⟩
    exact ⟨x, ⟨hx, hlt⟩, rfl⟩

theorem stopsAt_plus {size : Nat} {greedy : Bool} :
    (plus size greedy w).StopsAt p r q ↔ ∃ x ∈ w p r,
      if p < x.stop then (star size greedy w).StopsAt x.stop x.record q else x.stop = q := by
  simp only [StopsAt, plus, List.mem_flatMap]
  constructor
  · rintro ⟨y, ⟨x, hx, hy⟩, rfl⟩
    refine ⟨x, hx, ?_⟩
    split at hy
    · rename_i hlt
      rw [if_pos hlt]
      exact ⟨y, hy, rfl⟩
    · rename_i hlt
      rw [if_neg hlt, List.mem_singleton.1 hy]
  · rintro ⟨x, hx, hq⟩
    split at hq
    · rename_i hlt
      obtain ⟨y, hy, rfl⟩ := hq
      exact ⟨y, ⟨x, hx, by rwa [if_pos hlt]⟩, rfl⟩
    · rename_i hlt
      exact ⟨x, ⟨x, hx, by rw [if_neg hlt]; exact List.mem_singleton_self x⟩, hq⟩

/-- A repetition stops where it starts, or goes on from behind an iteration that moves on. -/
theorem stopsAt_star {size : Nat} (hw : w.IsBounded size) (greedy : Bool) (hp : p ≤ size) :
    (star size greedy w).StopsAt p r q ↔ p = q ∨ ∃ x ∈ w p r,
      p < x.stop ∧ (star size greedy w).StopsAt x.stop x.record q := by
  have heq : (star size greedy w).StopsAt p r q ↔
      (orEmpty greedy (seq (moving w) (star size greedy w))).StopsAt p r q := by
    rw [StopsAt, star_eq hw greedy hp]
    rfl
  rw [heq, stopsAt_orEmpty, stopsAt_seq]
  simp only [moving, List.mem_filter, decide_eq_true_eq, and_assoc]

/-- The ways from each position stop at the same positions, whatever was passed before. -/
def SameStops (size : Nat) (v w : Ways) : Prop :=
  ∀ p, p ≤ size → ∀ r r' q, v.StopsAt p r q ↔ w.StopsAt p r' q

namespace SameStops

variable {size : Nat} {u v v' w w' : Ways}

theorem trans (huv : SameStops size u v) (hvw : SameStops size v w) : SameStops size u w :=
  fun p hp r r' q => (huv p hp r r q).trans (hvw p hp r r' q)

theorem symm (hvw : SameStops size v w) : SameStops size w v :=
  fun p hp r r' q => (hvw p hp r' r q).symm

/-- The second stops the same whatever was passed before. -/
theorem self (hvw : SameStops size v w) : SameStops size w w :=
  fun p hp r r' q => (hvw p hp r r q).symm.trans (hvw p hp r r' q)

theorem isBounded (hvw : SameStops size v w) (hv : v.IsBounded size) : w.IsBounded size := by
  intro p hp r x hx
  obtain ⟨y, hy, hstop⟩ := (hvw p hp r r x.stop).2 ⟨x, hx, rfl⟩
  exact hstop ▸ hv p hp r y hy

theorem unit : SameStops size Ways.unit Ways.unit :=
  fun _ _ _ _ _ => stopsAt_unit.trans stopsAt_unit.symm

theorem test (condition : Nat → Bool) :
    SameStops size (Ways.test condition) (Ways.test condition) := by
  intro p _ r r' q
  unfold StopsAt Ways.test
  split <;> simp

theorem char (h : Haystack) (s : CharSet) : SameStops size (Ways.char h s) (Ways.char h s) := by
  intro p _ r r' q
  unfold StopsAt Ways.char
  split
  · split <;> simp
  · simp

theorem seq (hv : SameStops size v v') (hb : v.IsBounded size) (hw : SameStops size w w') :
    SameStops size (Ways.seq v w) (Ways.seq v' w') := by
  intro p hp r r' q
  rw [stopsAt_seq, stopsAt_seq]
  constructor
  · rintro ⟨x, hx, hq⟩
    obtain ⟨y, hy, hstop⟩ := (hv p hp r r' x.stop).1 ⟨x, hx, rfl⟩
    have hle := (hb p hp r x hx).2
    exact ⟨y, hy, hstop ▸ (hw x.stop hle x.record y.record q).1 hq⟩
  · rintro ⟨y, hy, hq⟩
    obtain ⟨x, hx, hstop⟩ := (hv p hp r r' y.stop).2 ⟨y, hy, rfl⟩
    have hle := (hb p hp r x hx).2
    exact ⟨x, hx, (hw x.stop hle x.record y.record q).2 (hstop ▸ hq)⟩

theorem alt (hv : SameStops size v v') (hw : SameStops size w w') :
    SameStops size (Ways.alt v w) (Ways.alt v' w') := by
  intro p hp r r' q
  rw [stopsAt_alt, stopsAt_alt, hv p hp r r' q, hw p hp r r' q]

theorem capture (hv : SameStops size v v') (group group' : Nat) :
    SameStops size (Ways.capture group v) (Ways.capture group' v') := by
  intro p hp r r' q
  have hbody := hv p hp (Record.pass r group .opening p) (Record.pass r' group' .opening p) q
  simpa [StopsAt, Ways.capture] using hbody

theorem orEmpty (hv : SameStops size v v') (greedy : Bool) :
    SameStops size (Ways.orEmpty greedy v) (Ways.orEmpty greedy v') := by
  intro p hp r r' q
  rw [stopsAt_orEmpty, stopsAt_orEmpty, hv p hp r r' q]

theorem moving (hv : SameStops size v v') :
    SameStops size (Ways.moving v) (Ways.moving v') := by
  intro p hp r r' q
  rw [stopsAt_moving, stopsAt_moving, hv p hp r r' q]

variable (hv : SameStops size v v') (hb : v.IsBounded size)

include hv hb

theorem copies (n : Nat) : SameStops size (Ways.copies v n) (Ways.copies v' n) := by
  induction n with
  | zero => exact unit
  | succ n ih => exact hv.seq hb ih

theorem upTo (greedy : Bool) (n : Nat) :
    SameStops size (Ways.upTo greedy v n) (Ways.upTo greedy v' n) := by
  induction n with
  | zero => exact unit
  | succ n ih => exact (hv.seq hb ih).orEmpty greedy

theorem iterate (greedy : Bool) (n : Nat) :
    SameStops size (Ways.iterate greedy v n) (Ways.iterate greedy v' n) := by
  induction n with
  | zero => exact unit
  | succ n ih => exact (hv.moving.seq hb.moving ih).orEmpty greedy

theorem star (greedy : Bool) :
    SameStops size (Ways.star size greedy v) (Ways.star size greedy v') :=
  fun p hp => hv.iterate hb greedy (size - p + 1) p hp

/-- An iteration that may be empty, and further ones that may not, stop where any iteration
does with a repetition behind it. -/
theorem plus_seq_star (greedy : Bool) :
    SameStops size (Ways.plus size greedy v) (Ways.seq v' (Ways.star size greedy v')) := by
  have hstar := hv.star hb greedy
  suffices hsame : ∀ p, p ≤ size → ∀ r q, (Ways.plus size greedy v).StopsAt p r q ↔
      (Ways.seq v (Ways.star size greedy v)).StopsAt p r q from
    fun p hp r r' q => (hsame p hp r q).trans (hv.seq hb hstar p hp r r' q)
  intro p hp r q
  rw [stopsAt_plus, stopsAt_seq]
  constructor
  · rintro ⟨x, hx, hq⟩
    refine ⟨x, hx, ?_⟩
    split at hq
    · exact hq
    · exact (stopsAt_star hb greedy (hb p hp r x hx).2).2 (.inl hq)
  · rintro ⟨x, hx, hq⟩
    have hbounds := hb p hp r x hx
    rcases Nat.eq_or_lt_of_le hbounds.1 with heq | hlt
    · -- the iteration was empty, so the repetition starts at `p` as well
      have hq : (Ways.star size greedy v).StopsAt p r q := by
        rw [← heq] at hq
        exact (hstar p hp r r q).2 ((hstar p hp x.record r q).1 hq)
      rcases (stopsAt_star hb greedy hp).1 hq with rfl | ⟨y, hy, hlt, hq⟩
      · exact ⟨x, hx, by rw [if_neg (Nat.not_lt.2 (Nat.le_of_eq heq.symm)), ← heq]⟩
      · exact ⟨y, hy, by rwa [if_pos hlt]⟩
    · exact ⟨x, hx, by rwa [if_pos hlt]⟩

/-- If there may be no iteration, it does not matter that the first one may be empty. -/
theorem orEmpty_plus_star (greedy : Bool) :
    SameStops size (Ways.orEmpty greedy (Ways.plus size greedy v))
      (Ways.star size greedy v') := by
  suffices hsame : ∀ p, p ≤ size → ∀ r q,
      (Ways.orEmpty greedy (Ways.plus size greedy v)).StopsAt p r q ↔
        (Ways.star size greedy v).StopsAt p r q from
    fun p hp r r' q => (hsame p hp r q).trans (hv.star hb greedy p hp r r' q)
  intro p hp r q
  rw [stopsAt_orEmpty, stopsAt_plus, stopsAt_star hb greedy hp]
  refine ⟨fun h => ?_, fun h => ?_⟩
  · rcases h with h | ⟨x, hx, hq⟩
    · exact .inl h
    · split at hq
      · rename_i hlt
        exact .inr ⟨x, hx, hlt, hq⟩
      · rename_i hnot
        exact .inl ((Nat.le_antisymm (hb p hp r x hx).1 (Nat.not_lt.1 hnot)).trans hq)
  · rcases h with h | ⟨x, hx, hlt, hq⟩
    · exact .inl h
    · exact .inr ⟨x, hx, by rwa [if_pos hlt]⟩

theorem plus (greedy : Bool) :
    SameStops size (Ways.plus size greedy v) (Ways.plus size greedy v') :=
  (hv.plus_seq_star hb greedy).trans (hv.self.plus_seq_star (hv.isBounded hb) greedy).symm

theorem times (least : Nat) (more : Further) (greedy : Bool) :
    SameStops size (Ways.times size least more greedy v)
      (Ways.times size least more greedy v') := by
  refine (hv.copies hb least).seq (hb.copies least) ?_
  cases more with
  | upTo n => exact hv.upTo hb greedy n
  | star => exact hv.star hb greedy
  | plus => exact hv.plus hb greedy

end SameStops

/-- A copy more at the start is a copy more at the end. -/
theorem copies_succ (w : Ways) (n : Nat) : copies w (n + 1) = seq (copies w n) w := by
  induction n with
  | zero => exact (seq_unit w).trans (unit_seq w).symm
  | succ n ih =>
    calc copies w (n + 2) = seq w (seq (copies w n) w) := congrArg (seq w) ih
      _ = seq (copies w (n + 1)) w := (seq_assoc _ _ _).symm

end Ways

/-! ## Lowered trees -/

/-- Any number of times is a first iteration and further ones, or nothing, in the basic
engine. -/
theorem Node.ways_repeated_basic_star (h : Haystack) (greedy : Bool) (n : Node) :
    (repeated .basic ⟨0, none, greedy⟩ n).ways h =
      .orEmpty greedy (.plus h.size greedy (n.ways h)) := by
  refine (Ways.unit_seq _).trans (congrArg (Ways.orEmpty greedy) ?_)
  exact (Ways.seq_unit _).trans (Ways.unit_seq _)

/-- Bounds that are in order mean the same positions in either engine. -/
theorem Node.sameStops_repeated (h : Haystack) (q : Quantity) (hq : q.isReversed = false)
    (n : Node) (hn : Ways.SameStops h.size (n.ways h) (n.ways h)) :
    Ways.SameStops h.size ((repeated .basic q n).ways h) ((repeated .extended q n).ways h) := by
  obtain ⟨least, most, greedy⟩ := q
  have hb := n.isBounded_ways h
  cases most with
  | none =>
    cases least with
    | zero =>
      have hextended : (repeated .extended ⟨0, none, greedy⟩ n).ways h =
          .star h.size greedy (n.ways h) := Ways.unit_seq _
      rw [ways_repeated_basic_star, hextended]
      exact hn.orEmpty_plus_star hb greedy
    | succ least =>
      have hextended : (repeated .extended ⟨least + 1, none, greedy⟩ n).ways h =
          .seq (.copies (n.ways h) least) (.seq (n.ways h) (.star h.size greedy (n.ways h))) := by
        refine Eq.trans ?_ (Ways.seq_assoc _ _ _)
        exact congrArg (Ways.seq · _) (Ways.copies_succ _ _)
      rw [hextended]
      exact (hn.copies hb least).seq (hb.copies least) (hn.plus_seq_star hb greedy)
  | some most =>
    have hle : least ≤ most := by simpa [Quantity.isReversed] using hq
    cases most with
    | zero =>
      obtain rfl := Nat.le_zero.1 hle
      rw [ways_repeated_never, ways_repeated_never]
      exact .unit
    | succ most =>
      have hbasic : repeated .basic ⟨least, some (most + 1), greedy⟩ n =
          times least (.upTo (most + 1 - least)) greedy n := by
        cases least <;> rfl
      have hextended : repeated .extended ⟨least, some (most + 1), greedy⟩ n =
          times least (.upTo (most + 1 - least)) greedy n := by
        simp only [repeated, repeatExtended, Nat.min_eq_left hle]
      rw [hbasic, hextended]
      exact hn.times hb least _ greedy

/-- A repetition of what stops the same stops the same. -/
theorem Ways.SameStops.repeated {h : Haystack} {n n' : Node}
    (hn : Ways.SameStops h.size (n.ways h) (n'.ways h)) (engine : Engine) (q : Quantity) :
    Ways.SameStops h.size ((Node.repeated engine q n).ways h)
      ((Node.repeated engine q n').ways h) := by
  have hb := n.isBounded_ways h
  cases engine with
  | basic =>
    rw [Node.repeated, Node.repeated]
    unfold Node.repeatBasic
    split
    · exact (hn.times hb 0 .plus _).times (.times hb 0 .plus _) 0 (.upTo 1) _
    · exact hn.times hb _ .plus _
    · exact .unit
    · exact hn.times hb _ _ _
  | extended =>
    rw [Node.repeated, Node.repeated]
    unfold Node.repeatExtended
    split
    · exact hn.times hb _ .star _
    · exact hn.times hb _ _ _

/-- Whether a token means the same positions in both engines: it is no backreference and no
lookahead, and its bounds are in order. -/
def Token.isPlain (t : Token) : Bool :=
  !t.needsBacktracking && t.plainFault?.isNone

theorem Quantity.isReversed_of_isPlain {q : Quantity} (h : (Token.quantity q).isPlain = true) :
    q.isReversed = false := by
  unfold Token.isPlain Token.plainFault? at h
  cases hr : q.isReversed with
  | false => rfl
  | true => simp [hr] at h

section

variable (h : Haystack)

mutual

theorem Piece.sameStops_lower : ∀ (p : Piece) (flags : Flags) (groups groups' : Nat),
    (∀ t ∈ p.tokens, t.isPlain = true) →
      Ways.SameStops h.size ((p.lower .basic flags groups).node.ways h)
          ((p.lower .extended flags groups').node.ways h) ∧
        (p.lower .basic flags groups).flags = (p.lower .extended flags groups').flags
  | .atom a, flags, groups, groups', hp => by
    refine ⟨?_, rfl⟩
    cases a with
    | groupAgain n => exact absurd (hp _ (List.mem_singleton_self _)) Bool.false_ne_true
    | char c => exact .char h _
    | any => exact .char h _
    | bracket c => exact .char h _
    | named c => exact .char h _
    | start => exact .test _
    | stop => exact .test _
  | .flags fs, flags, groups, groups', _ => ⟨.unit, rfl⟩
  | .group k bs, flags, groups, groups', hp => by
    rw [Piece.lower_group, Piece.lower_group]
    have hbody := (Branches.sameStops_lower bs (k.flagsInside flags)
      (groups + [Token.opening k].countP Token.isCapture)
      (groups' + [Token.opening k].countP Token.isCapture)
      fun t ht => hp t (by simp [Piece.tokens, ht])).1
    refine ⟨?_, rfl⟩
    cases k with
    | capture => exact hbody.capture _ _
    | plain => exact hbody
    | flagged set => exact hbody
    | ahead => exact absurd (hp _ List.mem_cons_self) Bool.false_ne_true
    | notAhead => exact absurd (hp _ List.mem_cons_self) Bool.false_ne_true
  | .repeated q p, flags, groups, groups', hp => by
    obtain ⟨hbody, hflags⟩ := p.sameStops_lower flags groups groups'
      fun t ht => hp t (by simp [Piece.tokens, ht])
    have hq := Quantity.isReversed_of_isPlain (hp (.quantity q) (by simp [Piece.tokens]))
    refine ⟨?_, hflags⟩
    exact (hbody.repeated .basic q).trans (Node.sameStops_repeated h q hq _ hbody.self)

theorem Branch.sameStops_lower : ∀ (b : Branch) (flags : Flags) (groups groups' : Nat),
    (∀ t ∈ b.tokens, t.isPlain = true) →
      Ways.SameStops h.size ((Branch.lower .basic flags groups b).node.ways h)
          ((Branch.lower .extended flags groups' b).node.ways h) ∧
        (Branch.lower .basic flags groups b).flags = (Branch.lower .extended flags groups' b).flags
  | [], flags, groups, groups', _ => ⟨.unit, rfl⟩
  | p :: b, flags, groups, groups', hb => by
    obtain ⟨hfirst, hflags⟩ := p.sameStops_lower flags groups groups'
      fun t ht => hb t (by simp [Branch.tokens, ht])
    rw [Branch.lower, Branch.lower]
    dsimp only
    rw [← hflags]
    obtain ⟨hsecond, hflags⟩ := Branch.sameStops_lower b (p.lower .basic flags groups).flags
      (p.lower .basic flags groups).groups (p.lower .extended flags groups').groups
      fun t ht => hb t (by simp [Branch.tokens, ht])
    exact ⟨hfirst.seq (Node.isBounded_ways h _) hsecond, hflags⟩

/-- A tree of plain tokens stops at the same positions in both engines. -/
theorem Branches.sameStops_lower : ∀ (bs : Branches) (flags : Flags) (groups groups' : Nat),
    (∀ t ∈ bs.tokens, t.isPlain = true) →
      Ways.SameStops h.size ((Branches.lower .basic flags groups bs).node.ways h)
          ((Branches.lower .extended flags groups' bs).node.ways h) ∧
        (Branches.lower .basic flags groups bs).flags =
          (Branches.lower .extended flags groups' bs).flags
  | [], flags, groups, groups', _ => ⟨.unit, rfl⟩
  | [b], flags, groups, groups', hb => by
    rw [Branches.tokens_singleton] at hb
    rw [Branches.lower_singleton, Branches.lower_singleton]
    exact Branch.sameStops_lower b flags groups groups' hb
  | b :: c :: bs, flags, groups, groups', hb => by
    have hne : c :: bs ≠ [] := List.cons_ne_nil c bs
    rw [Branches.tokens_cons hne] at hb
    obtain ⟨hfirst, hflags⟩ := Branch.sameStops_lower b flags groups groups'
      fun t ht => hb t (by simp [ht])
    rw [Branches.lower_cons _ _ _ hne, Branches.lower_cons _ _ _ hne]
    dsimp only
    rw [← hflags]
    obtain ⟨hsecond, hflags⟩ := Branches.sameStops_lower (c :: bs)
      (Branch.lower .basic flags groups b).flags (Branch.lower .basic flags groups b).groups
      (Branch.lower .extended flags groups' b).groups fun t ht => hb t (by simp [ht])
    exact ⟨hfirst.alt hsecond, hflags⟩

end

end

end FluentPattern
