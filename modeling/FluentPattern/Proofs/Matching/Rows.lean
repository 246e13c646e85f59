import FluentPattern.Matching.Table
import FluentPattern.Proofs.Matching.Renumber

/-!
# Tables keep the first ways

A row of a table holds of all ways from its position the first one to each stop, in the
order of preference. What comes after a way depends on its stop only, so a way that is
dropped for an earlier one leads nowhere that the earlier one does not lead to first.

Main statements: `Way.firstsBeyond_flatMap` (dropping later ways before going on changes
nothing), `Node.holds_table`.
-/

namespace FluentPattern

namespace Way

/-! ## First ways -/

/-- Of the ways to the same stop only the first one, and none to a stop of `seen`. -/
def firstsBeyond (seen : Nat → Bool) : List Way → List Way
  | [] => []
  | v :: vs =>
    if seen v.stop then firstsBeyond seen vs
    else v :: firstsBeyond (fun n => v.stop == n || seen n) vs

/-- Of the ways to the same stop only the first one. -/
def firsts (vs : List Way) : List Way :=
  firstsBeyond (fun _ => false) vs

/-- The stops of some ways, and those of `seen`. -/
def reached (seen : Nat → Bool) (vs : List Way) : Nat → Bool :=
  vs.foldl (fun seen v n => v.stop == n || seen n) seen

variable {seen : Nat → Bool} {vs ws : List Way}

theorem reached_iff {n : Nat} :
    reached seen vs n = true ↔ seen n = true ∨ ∃ v ∈ vs, v.stop = n := by
  induction vs generalizing seen with
  | nil => simp [reached]
  | cons v vs ih =>
    have hvs : reached seen (v :: vs) n = true ↔
        (v.stop == n || seen n) = true ∨ ∃ v ∈ vs, v.stop = n := ih
    rw [hvs]
    simp only [Bool.or_eq_true, beq_iff_eq, List.mem_cons, exists_eq_or_imp]
    grind

theorem mem_of_mem_firstsBeyond {v : Way} (h : v ∈ firstsBeyond seen vs) : v ∈ vs := by
  induction vs generalizing seen with
  | nil => exact h
  | cons u vs ih =>
    unfold firstsBeyond at h
    split at h
    · exact List.mem_cons_of_mem _ (ih h)
    · rcases List.mem_cons.1 h with rfl | h
      · exact List.mem_cons_self
      · exact List.mem_cons_of_mem _ (ih h)

/-- What is kept are the stops that were not seen before. -/
theorem exists_mem_firstsBeyond {n : Nat} :
    (∃ v ∈ firstsBeyond seen vs, v.stop = n) ↔ seen n = false ∧ ∃ v ∈ vs, v.stop = n := by
  induction vs generalizing seen with
  | nil => simp [firstsBeyond]
  | cons v vs ih =>
    unfold firstsBeyond
    by_cases hv : seen v.stop = true
    · rw [if_pos hv, ih]
      simp only [List.mem_cons, exists_eq_or_imp]
      grind
    · rw [if_neg hv]
      simp only [List.mem_cons, exists_eq_or_imp, ih, Bool.or_eq_false_iff]
      grind

/-- What else was seen does not matter. -/
theorem firstsBeyond_congr {other : Nat → Bool} (h : ∀ v ∈ vs, seen v.stop = other v.stop) :
    firstsBeyond seen vs = firstsBeyond other vs := by
  induction vs generalizing seen other with
  | nil => rfl
  | cons v vs ih =>
    have hv := h v List.mem_cons_self
    have hvs := fun u hu => h u (List.mem_cons_of_mem _ hu)
    have hnext : firstsBeyond (fun n => v.stop == n || seen n) vs =
        firstsBeyond (fun n => v.stop == n || other n) vs :=
      ih fun u hu => congrArg (v.stop == u.stop || ·) (hvs u hu)
    rw [firstsBeyond, firstsBeyond, hv, ih hvs, hnext]

/-- Ways to stops that were seen are dropped. -/
theorem firstsBeyond_eq_nil (h : ∀ v ∈ vs, seen v.stop = true) : firstsBeyond seen vs = [] := by
  induction vs with
  | nil => rfl
  | cons v vs ih =>
    rw [firstsBeyond, if_pos (h v List.mem_cons_self)]
    exact ih fun u hu => h u (List.mem_cons_of_mem _ hu)

theorem firstsBeyond_append :
    firstsBeyond seen (vs ++ ws) = firstsBeyond seen vs ++ firstsBeyond (reached seen vs) ws := by
  induction vs generalizing seen with
  | nil => rfl
  | cons v vs ih =>
    rw [List.cons_append, firstsBeyond, firstsBeyond]
    split
    · rename_i hv
      rw [ih]
      refine congrArg _ (firstsBeyond_congr fun u _ => Bool.eq_iff_iff.2 ?_)
      rw [reached_iff, reached_iff]
      grind
    · rw [ih, List.cons_append]
      rfl

/-- Dropping ways to stops that were seen, or later ways to the same stop, twice is dropping
them once. -/
theorem firstsBeyond_firstsBeyond {before : Nat → Bool} (h : ∀ n, before n = true → seen n = true) :
    firstsBeyond seen (firstsBeyond before vs) = firstsBeyond seen vs := by
  induction vs generalizing seen before with
  | nil => rfl
  | cons v vs ih =>
    by_cases hb : before v.stop = true
    · rw [firstsBeyond.eq_2 before, if_pos hb, ih h, firstsBeyond.eq_2 seen, if_pos (h _ hb)]
    · rw [firstsBeyond.eq_2 before, if_neg hb, firstsBeyond, firstsBeyond]
      split
      · rename_i hs
        exact ih fun n hn => by
          rcases Bool.or_eq_true_iff.1 hn with hn | hn
          · rwa [← beq_iff_eq.1 hn]
          · exact h n hn
      · exact congrArg _ (ih fun n hn => by
          rcases Bool.or_eq_true_iff.1 hn with hn | hn
          · simp [hn]
          · simp [h n hn])

/-- Going on from the first ways only: where each way leads depends on its stop alone, so the
later ways to a stop add nothing. -/
theorem firstsBeyond_flatMap {before : Nat → Bool} {f : Way → List Way}
    (hf : ∀ u v : Way, u.stop = v.stop → (f u).map stop = (f v).map stop)
    (hseen : ∀ v, before v.stop = true → ∀ u ∈ f v, seen u.stop = true) :
    firstsBeyond seen ((firstsBeyond before vs).flatMap f) = firstsBeyond seen (vs.flatMap f) := by
  induction vs generalizing seen before with
  | nil => rfl
  | cons v vs ih =>
    rw [firstsBeyond.eq_2 before, List.flatMap_cons, firstsBeyond_append]
    split
    · rename_i hb
      have hv := hseen v hb
      rw [firstsBeyond_eq_nil hv, List.nil_append, ih hseen]
      refine firstsBeyond_congr fun u _ => Bool.eq_iff_iff.2 ?_
      rw [reached_iff]
      grind
    · rw [List.flatMap_cons, firstsBeyond_append]
      refine congrArg _ (ih fun u hu x hx => ?_)
      rw [reached_iff]
      rcases Bool.or_eq_true_iff.1 hu with hu | hu
      · have hstop : x.stop ∈ (f v).map stop :=
          hf u v (beq_iff_eq.1 hu).symm ▸ List.mem_map_of_mem hx
        obtain ⟨y, hy, hxy⟩ := List.mem_map.1 hstop
        exact .inr ⟨y, hy, hxy⟩
      · exact .inl (hseen u hu x hx)

/-- Dropping later ways to a stop on each part first. -/
theorem firstsBeyond_flatMap_firsts (f : Way → List Way) :
    firstsBeyond seen (vs.flatMap fun v => firsts (f v)) = firstsBeyond seen (vs.flatMap f) := by
  induction vs generalizing seen with
  | nil => rfl
  | cons v vs ih =>
    have hreached (n : Nat) : reached seen (firsts (f v)) n = reached seen (f v) n := by
      rw [Bool.eq_iff_iff, reached_iff, reached_iff, firsts, exists_mem_firstsBeyond]
      simp
    rw [List.flatMap_cons, List.flatMap_cons, firstsBeyond_append, firstsBeyond_append, ih, firsts,
      firstsBeyond_firstsBeyond (by simp)]
    exact congrArg _ (firstsBeyond_congr fun u _ => hreached u.stop)

theorem firstsBeyond_map {g : Way → Way} (hg : ∀ v, (g v).stop = v.stop) :
    firstsBeyond seen (vs.map g) = (firstsBeyond seen vs).map g := by
  induction vs generalizing seen with
  | nil => rfl
  | cons v vs ih =>
    rw [List.map_cons, firstsBeyond, firstsBeyond, hg]
    split
    · exact ih
    · rw [List.map_cons, ih]

theorem firstsBeyond_filter (keep : Nat → Bool) :
    firstsBeyond seen (vs.filter fun v => keep v.stop) =
      (firstsBeyond seen vs).filter fun v => keep v.stop := by
  induction vs generalizing seen with
  | nil => rfl
  | cons v vs ih =>
    rw [List.filter_cons, firstsBeyond]
    by_cases hk : keep v.stop = true
    · rw [if_pos hk, firstsBeyond]
      split
      · exact ih
      · rw [ih, List.filter_cons, if_pos hk]
    · rw [if_neg hk]
      split
      · exact ih
      · rw [List.filter_cons, if_neg hk, ← ih]
        refine firstsBeyond_congr fun u hu => ?_
        have hne : v.stop ≠ u.stop := fun heq => hk (heq ▸ (List.mem_filter.1 hu).2)
        simp [hne]

theorem head?_firsts : (firsts vs).head? = vs.head? := by
  cases vs <;> rfl

end Way

/-! ## Rows -/

/-- Marks behind other marks say what those do not say. -/
theorem Marks.position?_append (later earlier : Marks) :
    Marks.position? (later ++ earlier) = Record.after later.position? earlier.position? := by
  funext g s
  unfold Marks.position? Record.after
  rw [List.find?_append, Option.map_or]

/-- An outcome as a way from the start of its row. -/
def Outcome.way (o : Outcome) : Way :=
  ⟨o.stop, Marks.position? o.marks⟩

theorem Outcome.way_andThen (first second : Outcome) :
    (first.andThen second).way = second.way.after first.way.record := by
  unfold way andThen Way.after
  refine congrArg (Way.mk second.stop) ?_
  funext g s
  exact Marks.position?_andThen _ _ g s

theorem Row.map_way_firstsBeyond (seen : Std.HashSet Nat) (row : Row) :
    (row.firstsBeyond seen).map Outcome.way =
      Way.firstsBeyond seen.contains (row.map Outcome.way) := by
  induction row generalizing seen with
  | nil => rfl
  | cons o row ih =>
    rw [firstsBeyond, List.map_cons, Way.firstsBeyond]
    show _ = if seen.contains o.stop = true then _ else _
    split
    · exact ih seen
    · rw [List.map_cons, ih]
      refine congrArg _ (Way.firstsBeyond_congr fun v _ => ?_)
      rw [Std.HashSet.contains_insert]
      rfl

theorem Row.map_way_firsts (row : Row) :
    row.firsts.map Outcome.way = Way.firsts (row.map Outcome.way) := by
  rw [firsts, map_way_firstsBeyond]
  exact Way.firstsBeyond_congr fun v _ => Std.HashSet.contains_empty

/-- The way with a group around it that opens at a position. -/
def Way.captured (group position : Nat) (v : Way) : Way :=
  ⟨v.stop, (v.record.after (Record.pass .empty group .opening position)).pass group .closing
    v.stop⟩

/-- The rows of the table are the first ways to each stop. -/
def Table.Holds (size : Nat) (t : Table) (w : Ways) : Prop :=
  ∀ p, p ≤ size → (t.row p).map Outcome.way = Way.firsts (w p .empty)

namespace Table.Holds

variable {size : Nat} {t u : Table} {v w : Ways}

theorem of_ofFn {f : Nat → Row}
    (h : ∀ p, p ≤ size → (f p).map Outcome.way = Way.firsts (w p .empty)) :
    (Table.ofFn size f).Holds size w := by
  intro p hp
  rw [Table.row_ofFn f hp]
  exact h p hp

theorem unit : (Table.unit size).Holds size Ways.unit :=
  of_ofFn fun _ _ => rfl

theorem char (h : Haystack) (s : CharSet) : (Table.char h s).Holds h.size (Ways.char h s) := by
  refine of_ofFn fun p hp => ?_
  unfold Ways.char
  cases h[p]? with
  | none => rfl
  | some c =>
    dsimp only
    split <;> rfl

theorem anchor (h : Haystack) (a : Anchor) :
    (Table.anchor h a).Holds h.size (Ways.test (a.holds h)) := by
  refine of_ofFn fun p hp => ?_
  unfold Ways.test
  split <;> rfl

/-- The stops of a row are in the haystack. -/
theorem stop_le (ht : t.Holds size v) (hv : v.IsBounded size) {p : Nat} (hp : p ≤ size)
    {o : Outcome} (ho : o ∈ t.row p) : p ≤ o.stop ∧ o.stop ≤ size := by
  have hmem : o.way ∈ Way.firsts (v p .empty) := ht p hp ▸ List.mem_map_of_mem ho
  exact hv p hp _ o.way (Way.mem_of_mem_firstsBeyond hmem)

/-- Where a way leads on depends on its stop only. -/
theorem stops_seq (hw : w.IsFree) {x y : Way} (h : x.stop = y.stop) :
    (w x.stop x.record).map Way.stop = (w y.stop y.record).map Way.stop := by
  rw [hw.eq x.stop x.record, hw.eq y.stop y.record, h, List.map_map, List.map_map]
  rfl

/-- The ways from some outcomes on. -/
theorem firsts_flatMap {row : Row} {vs : List Way} (hrow : row.map Outcome.way = Way.firsts vs)
    {f : Outcome → Row} {g : Way → List Way}
    (hf : ∀ o ∈ row, (f o).map Outcome.way = Way.firsts (g o.way))
    (hg : ∀ x y : Way, x.stop = y.stop → (g x).map Way.stop = (g y).map Way.stop) :
    (Row.firsts (row.flatMap f)).map Outcome.way = Way.firsts (vs.flatMap g) := by
  have hflat : (row.flatMap f).map Outcome.way =
      (row.map Outcome.way).flatMap fun x => Way.firsts (g x) := by
    rw [List.map_flatMap, List.flatMap_map]
    exact List.flatMap_congr hf
  rw [Row.map_way_firsts, hflat, hrow, Way.firsts, Way.firstsBeyond_flatMap_firsts]
  exact Way.firstsBeyond_flatMap hg (by simp)

/-- The first ways after an outcome are those of the row at its stop. -/
theorem map_andThen {o : Outcome} {row : Row}
    (hrow : row.map Outcome.way = Way.firsts (w o.stop .empty)) (hw : w.IsFree) :
    (row.map o.andThen).map Outcome.way = Way.firsts (w o.way.stop o.way.record) := by
  have hover : (row.map o.andThen).map Outcome.way =
      (row.map Outcome.way).map (Way.after o.way.record) := by
    rw [List.map_map, List.map_map]
    exact List.map_congr_left fun x _ => Outcome.way_andThen o x
  rw [hover, hrow, hw.eq o.way.stop o.way.record]
  exact (Way.firstsBeyond_map (g := Way.after o.way.record) fun _ => rfl).symm

theorem seq (ht : t.Holds size v) (hu : u.Holds size w) (hv : v.IsBounded size)
    (hw : w.IsFree) : (Table.seq size t u).Holds size (Ways.seq v w) := by
  refine of_ofFn fun p hp => ?_
  exact firsts_flatMap (ht p hp)
    (fun o ho => map_andThen (hu o.stop (ht.stop_le hv hp ho).2) hw)
    fun _ _ h => stops_seq hw h

theorem firsts_append {row other : Row} {vs ws : List Way}
    (hrow : row.map Outcome.way = Way.firsts vs) (hother : other.map Outcome.way = Way.firsts ws) :
    (Row.firsts (row ++ other)).map Outcome.way = Way.firsts (vs ++ ws) := by
  have hreached (n : Nat) : Way.reached (fun _ => false) (Way.firsts vs) n =
      Way.reached (fun _ => false) vs n := by
    rw [Bool.eq_iff_iff, Way.reached_iff, Way.reached_iff, Way.firsts, Way.exists_mem_firstsBeyond]
    simp
  have hsecond : Way.firstsBeyond (Way.reached (fun _ => false) (Way.firsts vs)) (Way.firsts ws) =
      Way.firstsBeyond (Way.reached (fun _ => false) vs) ws := by
    rw [Way.firsts.eq_1 ws, Way.firstsBeyond_firstsBeyond (by simp)]
    exact Way.firstsBeyond_congr fun x _ => hreached x.stop
  rw [Row.map_way_firsts, List.map_append, hrow, hother, Way.firsts.eq_1 (vs ++ ws),
    Way.firstsBeyond_append, ← hsecond, Way.firsts.eq_1 (_ ++ _), Way.firstsBeyond_append,
    Way.firsts.eq_1 vs, Way.firstsBeyond_firstsBeyond (by simp)]

theorem alt (ht : t.Holds size v) (hu : u.Holds size w) :
    (Table.alt size t u).Holds size (Ways.alt v w) :=
  of_ofFn fun p hp => firsts_append (ht p hp) (hu p hp)

theorem capture (ht : t.Holds size v) (hv : v.IsFree) (group : Nat) :
    (Table.capture size group t).Holds size (Ways.capture group v) := by
  refine of_ofFn fun p hp => ?_
  have hways : Ways.capture group v p .empty = (v p .empty).map (Way.captured group p) := by
    rw [Ways.capture, hv.eq p (Record.pass .empty group .opening p), List.map_map]
    rfl
  rw [hways, Way.firsts, Way.firstsBeyond_map (g := Way.captured group p) fun _ => rfl,
    ← Way.firsts, ← ht p hp, List.map_map, List.map_map]
  refine List.map_congr_left fun o _ => congrArg (Way.mk o.stop) ?_
  dsimp only
  rw [List.cons_append, Marks.position?_cons, Marks.position?_append, Marks.position?_cons]
  rfl

theorem look (ht : t.Holds size v) (negated : Bool) :
    (Table.look size negated t).Holds size (Ways.look negated v) := by
  refine of_ofFn fun p hp => ?_
  have hhead := congrArg List.head? (ht p hp)
  rw [Way.head?_firsts, List.head?_map] at hhead
  unfold Ways.look
  rw [← hhead]
  cases t.row p <;> cases negated <;> rfl

theorem orEmpty {row : Row} {p : Nat} (hrow : row.map Outcome.way = Way.firsts (v p .empty))
    (greedy : Bool) : (Table.orEmpty greedy p row).map Outcome.way =
      Way.firsts (Ways.orEmpty greedy v p .empty) := by
  have hempty : ([⟨p, []⟩] : Row).map Outcome.way = Way.firsts [⟨p, .empty⟩] := rfl
  unfold Table.orEmpty Ways.orEmpty
  cases greedy with
  | true => exact firsts_append hrow hempty
  | false => exact firsts_append hempty hrow

theorem copies (ht : t.Holds size v) (hb : v.IsBounded size) (hv : v.IsFree) (n : Nat) :
    (Table.copies size t n).Holds size (Ways.copies v n) := by
  unfold Table.copies
  rw [Table.settle_eq_repeat]
  induction n with
  | zero => exact unit
  | succ n ih => exact ht.seq ih hb (hv.copies n)

theorem upTo (ht : t.Holds size v) (hb : v.IsBounded size) (hv : v.IsFree) (greedy : Bool)
    (n : Nat) : (Table.upTo size greedy t n).Holds size (Ways.upTo greedy v n) := by
  unfold Table.upTo
  rw [Table.settle_eq_repeat]
  induction n with
  | zero => exact unit
  | succ n ih => exact of_ofFn fun p hp => orEmpty (ht.seq ih hb (hv.upTo greedy n) p hp) greedy

/-- The outcomes that move on. -/
theorem moving (ht : t.Holds size v) {p : Nat} (hp : p ≤ size) :
    ((t.row p).filter (p < ·.stop)).map Outcome.way = Way.firsts (Ways.moving v p .empty) := by
  rw [Ways.moving, Way.firsts, Way.firstsBeyond_filter (p < ·), ← Way.firsts, ← ht p hp,
    List.filter_map]
  rfl

/-- The rows of the last `n` positions, by induction from the end of the haystack. -/
theorem starRows (ht : t.Holds size v) (hb : v.IsBounded size) (hv : v.IsFree) (greedy : Bool)
    {n : Nat} (hn : n ≤ size + 1) {p : Nat} (hp : p ≤ size) (hnp : size < p + n) :
    ((Table.starRows size greedy t n).getD (p + n - size - 1) []).map Outcome.way =
      Way.firsts (Ways.star size greedy v p .empty) := by
  induction n generalizing p with
  | zero => omega
  | succ n ih =>
    rcases Nat.lt_or_ge size (p + n) with hlt | hge
    · have hindex : p + (n + 1) - size - 1 = p + n - size - 1 + 1 := by omega
      rw [hindex, Table.starRows, List.getD_cons_succ]
      exact ih (by omega) hp hlt
    · obtain rfl : p = size - n := by omega
      have hindex : size - n + (n + 1) - size - 1 = 0 := by omega
      rw [hindex, Table.starRows, List.getD_cons_zero, Ways.star_eq hb greedy hp]
      refine orEmpty (firsts_flatMap (ht.moving hp) (fun o ho => ?_) fun _ _ h =>
        stops_seq (hv.star size greedy) h) greedy
      obtain ⟨ho, hmoves⟩ := List.mem_filter.1 ho
      have hmoves : size - n < o.stop := by simpa using hmoves
      have hle := (ht.stop_le hb hp ho).2
      have hrow := ih (by omega) hle (by omega)
      rw [show o.stop + n - size - 1 = o.stop - (size - n) - 1 by omega] at hrow
      exact map_andThen hrow (hv.star size greedy)

theorem star (ht : t.Holds size v) (hb : v.IsBounded size) (hv : v.IsFree) (greedy : Bool) :
    (Table.star size greedy t).Holds size (Ways.star size greedy v) := by
  intro p hp
  have hrow := ht.starRows hb hv greedy (Nat.le_refl _) hp (by omega)
  rw [show p + (size + 1) - size - 1 = p by omega] at hrow
  rw [← hrow]
  simp [Table.row, Table.star]

theorem plus (ht : t.Holds size v) (hb : v.IsBounded size) (hv : v.IsFree) (greedy : Bool) :
    (Table.plus size greedy t).Holds size (Ways.plus size greedy v) := by
  refine of_ofFn fun p hp => firsts_flatMap (ht p hp) (fun o ho => ?_) fun x y h => ?_
  · have hbounds := ht.stop_le hb hp ho
    have hstop : o.way.stop = o.stop := rfl
    rw [hstop]
    rcases Nat.eq_or_lt_of_le hbounds.1 with heq | hlt
    · rw [if_pos heq.symm, if_neg (Nat.not_lt.2 (Nat.le_of_eq heq.symm))]
      rfl
    · rw [if_neg (Nat.ne_of_gt hlt), if_pos hlt]
      exact map_andThen (ht.star hb hv greedy o.stop hbounds.2) (hv.star size greedy)
  · rw [h]
    split
    · exact h ▸ stops_seq (hv.star size greedy) h
    · exact congrArg (fun n => [n]) h

theorem times (ht : t.Holds size v) (hb : v.IsBounded size) (hv : v.IsFree) (least : Nat)
    (more : Further) (greedy : Bool) :
    (Table.times size least more greedy t).Holds size (Ways.times size least more greedy v) := by
  cases more with
  | upTo n =>
    exact (ht.copies hb hv least).seq (ht.upTo hb hv greedy n) (hb.copies least)
      (hv.upTo greedy n)
  | star =>
    exact (ht.copies hb hv least).seq (ht.star hb hv greedy) (hb.copies least)
      (hv.star size greedy)
  | plus =>
    exact (ht.copies hb hv least).seq (ht.plus hb hv greedy) (hb.copies least)
      (hv.plus size greedy)

end Table.Holds

/-- The table of a node without backreferences keeps the first of its ways to each stop. -/
theorem Node.holds_table (h : Haystack) {n : Node} (hn : n.references = []) :
    (n.table h).Holds h.size (n.ways h) := by
  induction n with
  | empty => exact .unit
  | char s => exact .char h s
  | anchor a => exact .anchor h a
  | seq first second hf hs =>
    obtain ⟨h₁, h₂⟩ := List.append_eq_nil_iff.1 hn
    exact (hf h₁).seq (hs h₂) (first.isBounded_ways h) (isFree_ways h h₂)
  | alt first second hf hs =>
    obtain ⟨h₁, h₂⟩ := List.append_eq_nil_iff.1 hn
    exact (hf h₁).alt (hs h₂)
  | capture group body hb => exact (hb hn).capture (isFree_ways h hn) group
  | look negated body hb => exact (hb hn).look negated
  | groupAgain group => exact absurd hn (List.cons_ne_nil _ _)
  | times least further greedy body hb =>
    exact (hb hn).times (body.isBounded_ways h) (isFree_ways h hn) least further greedy

end FluentPattern
