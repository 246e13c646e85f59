import FluentPattern.Matching.Matcher
import FluentPattern.Proofs.Matching.Explore
import FluentPattern.Proofs.Matching.Rows

/-!
# The leftmost match

Both ways of searching find the same match: the most preferred way from the first position
that has one. So what is found can be told from the ways of a node, as long as the budget
lasts.

Main statements: `firstFrom_eq_some_iff`, `tryFrom_eq`, `Node.view_find`, `Node.view_find?`.
-/

namespace FluentPattern

/-- A match as where it starts and how it goes on. -/
def Found.view (f : Found) : Nat × Way :=
  (f.start, ⟨f.stop, Marks.position? f.marks⟩)

namespace Ways

/-- The most preferred way from a position, if nothing was passed before. -/
def best (w : Ways) (p : Nat) : Option (Nat × Way) :=
  (w p .empty).head?.map (p, ·)

/-- The most preferred way from the first position that has one. -/
def leftmost (size : Nat) (w : Ways) : Option (Nat × Way) :=
  firstFrom w.best 0 (size + 1)

end Ways

theorem firstFrom_congr {α : Type} {f g : Nat → Option α} {start count : Nat}
    (h : ∀ p, start ≤ p → p < start + count → f p = g p) :
    firstFrom f start count = firstFrom g start count := by
  induction count generalizing start with
  | zero => rfl
  | succ count ih =>
    rw [firstFrom, firstFrom, h start (Nat.le_refl _) (by omega)]
    cases g start with
    | some a => rfl
    | none => exact ih fun p hp hlt => h p (by omega) (by omega)

theorem map_firstFrom {α β : Type} (f : Nat → Option α) (g : α → β) (start count : Nat) :
    (firstFrom f start count).map g = firstFrom (fun p => (f p).map g) start count := by
  induction count generalizing start with
  | zero => rfl
  | succ count ih =>
    rw [firstFrom, firstFrom]
    cases f start with
    | some a => rfl
    | none => exact ih (start + 1)

theorem isSome_firstFrom {α : Type} (f : Nat → Option α) (start count : Nat) :
    (firstFrom f start count).isSome = true ↔
      ∃ p, start ≤ p ∧ p < start + count ∧ (f p).isSome = true := by
  rw [← Bool.not_eq_false, Option.isSome_eq_false_iff, Option.isNone_iff_eq_none,
    firstFrom_eq_none_iff]
  simp only [not_forall, exists_prop, Option.isSome_iff_ne_none, ne_eq]

/-- The first answer is the one of a position that no position with an answer comes before. -/
theorem firstFrom_eq_some_iff {α : Type} {f : Nat → Option α} {start count : Nat} {a : α} :
    firstFrom f start count = some a ↔
      ∃ p, start ≤ p ∧ p < start + count ∧ f p = some a ∧ ∀ q, start ≤ q → q < p → f q = none := by
  induction count generalizing start with
  | zero =>
    refine ⟨nofun, ?_⟩
    rintro ⟨p, hp, hlt, -⟩
    omega
  | succ count ih =>
    rw [firstFrom]
    cases hstart : f start with
    | some b =>
      refine ⟨fun h => ⟨start, Nat.le_refl _, by omega, hstart.trans h, by omega⟩, ?_⟩
      rintro ⟨p, hp, -, ha, hbefore⟩
      rcases Nat.eq_or_lt_of_le hp with rfl | hlt
      · exact hstart.symm.trans ha
      · cases hstart.symm.trans (hbefore start (Nat.le_refl _) hlt)
    | none =>
      refine ih.trans ⟨?_, ?_⟩
      · rintro ⟨p, hp, hlt, ha, hbefore⟩
        refine ⟨p, by omega, by omega, ha, fun q hq hqp => ?_⟩
        rcases Nat.eq_or_lt_of_le hq with rfl | hq
        · exact hstart
        · exact hbefore q hq hqp
      · rintro ⟨p, hp, hlt, ha, hbefore⟩
        rcases Nat.eq_or_lt_of_le hp with rfl | hp
        · cases hstart.symm.trans ha
        · exact ⟨p, hp, by omega, ha, fun q hq => hbefore q (by omega)⟩

/-- There is a leftmost way if there is a way from some position. -/
theorem Ways.isSome_leftmost (size : Nat) (w : Ways) :
    (w.leftmost size).isSome = true ↔ ∃ p, p ≤ size ∧ ∃ v, v ∈ w p .empty := by
  rw [leftmost, isSome_firstFrom]
  refine exists_congr fun p => ?_
  rw [best, Option.isSome_map, List.isSome_head?, ← List.isEmpty_eq_false_iff,
    List.isEmpty_eq_false_iff_exists_mem]
  simp only [Nat.zero_le, true_and, Nat.zero_add, Nat.lt_succ_iff]

/-- Searching from one position after another finds the first way of the first position that
has one. -/
theorem tryFrom_eq {s : Step} {w : Ways} (hs : s.Explores w) {budget start count : Nat}
    {r : Option Found} (h : tryFrom s budget start count = .ok r) :
    r.map Found.view = firstFrom w.best start count := by
  induction count generalizing budget start with
  | zero =>
    cases h
    rfl
  | succ count ih =>
    have htells := hs start [] budget .found some fun _ _ _ => rfl
    rw [findSome?_some, Marks.position?_nil] at htells
    rw [firstFrom, Ways.best]
    unfold tryFrom at h
    cases hv : s start [] budget .found with
    | found stop marks left =>
      rw [hv] at h htells
      rw [show (w start .empty).head? = _ from htells]
      cases h
      rfl
    | failed left =>
      rw [hv] at h htells
      rw [show (w start .empty).head? = none from htells]
      cases count with
      | zero =>
        cases h
        rfl
      | succ count =>
        cases left with
        | zero => cases h
        | succ left => exact ih h
    | exhausted =>
      rw [hv] at h
      cases h

/-- A matcher can be told from the ways of its node: it backtracks, or the node has no
backreferences. -/
def Matcher.IsSound (m : Matcher) : Prop :=
  m.backtracks = true ∨ m.node.references = []

/-- What backtracking finds from a position on is the first way of the first position that has
one. -/
theorem Node.view_find {n : Node} {h : Haystack} {start : Nat} {r : Option Found}
    (hr : n.find h start = .ok r) :
    r.map Found.view = firstFrom (n.ways h).best start (h.size + 1 - start) :=
  tryFrom_eq (n.explores_step h) hr

/-- What the table of a node without backreferences finds is the same. -/
theorem Node.view_find? {n : Node} (hn : n.references = []) (h : Haystack) (start : Nat) :
    ((n.table h).find? h.size start).map Found.view =
      firstFrom (n.ways h).best start (h.size + 1 - start) := by
  rw [Table.find?, map_firstFrom]
  refine firstFrom_congr fun p _ hp => ?_
  have hhead := congrArg List.head? (n.holds_table h hn p (by omega))
  rw [Way.head?_firsts, List.head?_map] at hhead
  rw [Ways.best, ← hhead, Option.map_map, Option.map_map]
  rfl

end FluentPattern
