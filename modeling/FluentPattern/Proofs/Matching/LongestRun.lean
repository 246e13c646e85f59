import FluentPattern.Proofs.Matching.Stops

/-!
# The longest run

An endless repetition of one character of a set, as often as possible, prefers the longest run
of such characters, and it has no way at all if the run is shorter than the least number. Both
engines go the same ways there, since no iteration is empty.

Main statements: `Node.ways_repeated_moving` (both engines go the same ways),
`Ways.head?_star_char`, `Node.head?_repeated_char`.
-/

namespace FluentPattern

/-! ## Iterations that are not empty -/

namespace Ways

/-- Every way goes on by at least one character. -/
def Moves (w : Ways) : Prop :=
  ∀ p r, ∀ v ∈ w p r, p < v.stop

variable {w : Ways}

theorem Moves.char (h : Haystack) (s : CharSet) : (Ways.char h s).Moves := by
  intro p r v hv
  unfold Ways.char at hv
  split at hv
  · split at hv
    · rw [List.mem_singleton.1 hv]
      exact Nat.lt_succ_self p
    · exact absurd hv List.not_mem_nil
  · exact absurd hv List.not_mem_nil

theorem Moves.moving_eq (hw : w.Moves) : moving w = w := by
  funext p r
  exact List.filter_eq_self.2 fun v hv => decide_eq_true (hw p r v hv)

theorem Moves.plus_eq (hw : w.Moves) (size : Nat) (greedy : Bool) :
    plus size greedy w = seq w (star size greedy w) := by
  funext p r
  exact List.flatMap_congr fun v hv => if_pos (hw p r v hv)

end Ways

/-- Endless repetitions of a body that always moves on go the same ways in either engine. -/
theorem Node.ways_repeated_moving (h : Haystack) {n : Node} (hn : (n.ways h).Moves)
    (engine : Engine) (least : Nat) (greedy : Bool) {p : Nat} (hp : p ≤ h.size) (r : Record) :
    (repeated engine ⟨least, none, greedy⟩ n).ways h p r =
      Ways.times h.size least .star greedy (n.ways h) p r := by
  cases engine with
  | extended => rfl
  | basic =>
    cases least with
    | zero =>
      have hstar : Ways.times h.size 0 .star greedy (n.ways h) =
          .star h.size greedy (n.ways h) := Ways.unit_seq _
      rw [ways_repeated_basic_star, hn.plus_eq, hstar,
        Ways.star_eq (n.isBounded_ways h) greedy hp, hn.moving_eq]
    | succ least =>
      have hbasic : (repeated .basic ⟨least + 1, none, greedy⟩ n).ways h =
          .seq (.copies (n.ways h) least) (.plus h.size greedy (n.ways h)) := rfl
      rw [hbasic, hn.plus_eq, ← Ways.seq_assoc, ← Ways.copies_succ]
      rfl

/-! ## Runs of characters -/

/-- The longest run of characters of a set from a position on. -/
def Haystack.run (h : Haystack) (s : CharSet) (p : Nat) : Text :=
  (h.toList.drop p).takeWhile s.contains

section

variable (h : Haystack) (s : CharSet)

/-- From a position either no way leads on and the run is empty, or one does and the run goes on
behind it. -/
theorem Haystack.run_cases (p : Nat) :
    (∀ r, Ways.char h s p r = []) ∧ h.run s p = [] ∨
      p < h.size ∧ (∀ r, Ways.char h s p r = [⟨p + 1, r⟩]) ∧
        ∃ c, h.run s p = c :: h.run s (p + 1) := by
  unfold Ways.char run
  cases hc : h[p]? with
  | none =>
    have hsize := Array.getElem?_eq_none_iff.1 hc
    rw [List.drop_eq_nil_of_le (by rwa [Array.length_toList])]
    exact .inl ⟨fun _ => rfl, rfl⟩
  | some c =>
    obtain ⟨hlt, rfl⟩ := Array.getElem?_eq_some_iff.1 hc
    have hlength : p < h.toList.length := by rwa [Array.length_toList]
    rw [List.drop_eq_getElem_cons hlength, Array.getElem_toList, List.takeWhile_cons]
    cases hs : s.contains h[p] with
    | true => exact .inr ⟨hlt, fun _ => if_pos hs, h[p], rfl⟩
    | false => exact .inl ⟨fun _ => if_neg (by simp [hs]), rfl⟩

/-- Any number of characters of a set, as many as possible, by induction on the run. -/
theorem Ways.head?_star_char {p : Nat} (hp : p ≤ h.size) (r : Record) :
    (star h.size true (char h s) p r).head? = some ⟨p + (h.run s p).length, r⟩ := by
  have hstar {p : Nat} (hp : p ≤ h.size) : star h.size true (char h s) p r =
      seq (char h s) (star h.size true (char h s)) p r ++ [⟨p, r⟩] := by
    rw [star_eq (.char h s) true hp, (Moves.char h s).moving_eq]
    rfl
  induction hrun : h.run s p generalizing p with
  | nil =>
    rcases h.run_cases s p with ⟨hnone, -⟩ | ⟨-, -, c, hcons⟩
    · rw [hstar hp, seq, hnone]
      rfl
    · exact absurd (hcons.symm.trans hrun) (List.cons_ne_nil _ _)
  | cons c run ih =>
    rcases h.run_cases s p with ⟨-, hnil⟩ | ⟨hlt, hone, d, hcons⟩
    · exact absurd (hrun.symm.trans hnil) (List.cons_ne_nil _ _)
    · have hnext := ih (p := p + 1) hlt (List.cons.inj (hcons.symm.trans hrun)).2
      rw [hstar hp, seq, hone, List.flatMap_singleton, List.head?_append, hnext, List.length_cons,
        Option.some_or, Nat.add_assoc, Nat.add_comm 1]

/-- At least a number of characters of a set, as many as possible, by induction on the
number. -/
theorem Ways.head?_times_char (least : Nat) {p : Nat} (hp : p ≤ h.size) (r : Record) :
    (times h.size least .star true (char h s) p r).head? =
      if least ≤ (h.run s p).length then some ⟨p + (h.run s p).length, r⟩ else none := by
  induction least generalizing p with
  | zero =>
    rw [if_pos (Nat.zero_le _), ← head?_star_char h s hp r]
    exact congrArg (fun w : Ways => (w p r).head?) (unit_seq _)
  | succ least ih =>
    have htimes : times h.size (least + 1) .star true (char h s) =
        seq (char h s) (times h.size least .star true (char h s)) := seq_assoc _ _ _
    rw [htimes, seq]
    rcases h.run_cases s p with ⟨hnone, hnil⟩ | ⟨hlt, hone, c, hcons⟩
    · rw [hnone, hnil]
      rfl
    · rw [hone, hcons, List.flatMap_singleton, ih (p := p + 1) hlt, List.length_cons,
        Nat.add_assoc, Nat.add_comm 1]
      simp only [Nat.add_le_add_iff_right]

/-- An endless repetition of what matches one character of a set, as often as possible, goes to
the end of the run, if the run is long enough. -/
theorem Node.head?_repeated_char {n : Node} (hn : n.ways h = .char h s) (engine : Engine)
    (least : Nat) {p : Nat} (hp : p ≤ h.size) (r : Record) :
    ((repeated engine ⟨least, none, true⟩ n).ways h p r).head? =
      if least ≤ (h.run s p).length then some ⟨p + (h.run s p).length, r⟩ else none := by
  rw [ways_repeated_moving h (hn ▸ .char h s) engine least true hp, hn]
  exact Ways.head?_times_char h s least hp r

end

end FluentPattern
