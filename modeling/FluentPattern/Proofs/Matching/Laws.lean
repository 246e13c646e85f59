import FluentPattern.Compiled
import FluentPattern.Proofs.Matching.Leftmost
import Mathlib.Data.List.Chain

/-!
# The laws of the engines

The searches of a regex are those of its engine, and nothing about them follows from their type.
What is assumed of them is what the engines document, stated with the meaning of a pattern, which
tells the ways in which it occurs in a text: there is a match if the pattern occurs anywhere, the
first match is the most preferred occurrence at the first position that has one, the groups are those
of this occurrence, and the matches in a row are found one behind the other. Each law is about one
search alone.

Main statements: `Meaning.first?_eq_some_iff`, `Iterates.exists_spans`, `Iterates.length_le`,
`Iterates.exists_isFirst_of_mem`, `Regex.Obeys.searches`, `Searches.Obeys.isMatch_eq`,
`Searches.Obeys.find_eq`, `Searches.Obeys.captures_eq`.
-/

namespace FluentPattern

/-! ## Meanings -/

/-- One way in which a pattern occurs in a text. -/
structure Occurrence where
  /-- The whole match. -/
  whole : Span
  /-- What each group has matched, from the group one on. -/
  inner : Nat → Option Span

namespace Occurrence

/-- What a group has matched; group zero is the whole match. -/
def group? (o : Occurrence) (n : Nat) : Option Span :=
  if n = 0 then some o.whole else o.inner n

/-- An occurrence stands in a text of a length, behind a position, and so do its groups in the
text. -/
structure IsWithin (o : Occurrence) (start length : Nat) : Prop where
  start_le : start ≤ o.whole.start
  bounds {n : Nat} {s : Span} : o.group? n = some s → s.start ≤ s.stop ∧ s.stop ≤ length

end Occurrence

/-- What a pattern means. -/
@[ext] structure Meaning where
  /-- How the pattern occurs in a text, for a search from one position on, at another position: the
  most preferred occurrence first. -/
  occurrences : Text → Nat → Nat → List Occurrence
  /-- The pattern occurs in the text, from where the search starts on. -/
  within {t : Text} {start p : Nat} {o : Occurrence} :
    start ≤ p → p ≤ t.length → o ∈ occurrences t start p → o.IsWithin start t.length

namespace Meaning

section

variable (μ : Meaning) (t : Text) (start : Nat)

/-- The pattern does not occur from a position on. -/
def IsAbsent : Prop :=
  ∀ p, start ≤ p → p ≤ t.length → μ.occurrences t start p = []

/-- An occurrence is the most preferred one at the first position, from a start on, that has one. -/
def IsFirst (o : Occurrence) : Prop :=
  ∃ p, start ≤ p ∧ p ≤ t.length ∧ (μ.occurrences t start p).head? = some o ∧
    ∀ q, start ≤ q → q < p → μ.occurrences t start q = []

/-- The first occurrence from a position on, if there is one. -/
def first? : Option Occurrence :=
  firstFrom (fun p => (μ.occurrences t start p).head?) start (t.length + 1 - start)

end

variable {μ : Meaning} {t : Text} {start : Nat}

theorem first?_eq_none_iff : μ.first? t start = none ↔ μ.IsAbsent t start := by
  rw [first?, firstFrom_eq_none_iff]
  refine forall₂_congr fun p hp => ?_
  rw [List.head?_eq_none_iff]
  exact ⟨fun h hle => h (by omega), fun h hlt => h (by omega)⟩

theorem first?_eq_some_iff {o : Occurrence} : μ.first? t start = some o ↔ μ.IsFirst t start o := by
  rw [first?, firstFrom_eq_some_iff]
  refine exists_congr fun p => and_congr_right fun hp => ?_
  simp only [List.head?_eq_none_iff]
  exact and_congr_left fun _ => ⟨fun h => by omega, fun h => by omega⟩

theorem IsFirst.isWithin {o : Occurrence} (h : μ.IsFirst t start o) :
    o.IsWithin start t.length := by
  obtain ⟨p, hp, hle, ho, -⟩ := h
  exact μ.within hp hle (List.mem_of_mem_head? ho)

/-- What is found stands behind the start of the search. -/
theorem IsFirst.bounds {o : Occurrence} (h : μ.IsFirst t start o) :
    start ≤ o.whole.start ∧ o.whole.start ≤ o.whole.stop ∧ o.whole.stop ≤ t.length :=
  ⟨h.isWithin.start_le, h.isWithin.bounds (n := 0) rfl⟩

/-- What is nothing if the pattern does not occur, and else is told from the first occurrence. -/
theorem eq_map_first? {α : Type} {g : Occurrence → α} {x : Option α}
    (hnone : x = none → μ.IsAbsent t start)
    (hsome : ∀ a, x = some a → ∃ o, μ.IsFirst t start o ∧ a = g o) :
    x = (μ.first? t start).map g := by
  cases x with
  | none => rw [first?_eq_none_iff.2 (hnone rfl), Option.map_none]
  | some a =>
    obtain ⟨o, ho, rfl⟩ := hsome a rfl
    rw [first?_eq_some_iff.2 ho, Option.map_some]

/-- A pattern occurs in a text if it has a first occurrence there. -/
theorem isSome_first?_iff :
    (μ.first? t 0).isSome = true ↔ ∃ p, p ≤ t.length ∧ μ.occurrences t 0 p ≠ [] := by
  rw [Option.isSome_iff_ne_none, ne_eq, first?_eq_none_iff, IsAbsent]
  simp only [not_forall, exists_prop, Nat.zero_le, true_and, ne_eq]

end Meaning

/-! ## All matches in a row -/

section

variable (μ : Meaning) (t : Text) {ε : Type}

/-- The search for all matches from a position on, where `previous` is the end of the match before,
runs to its end with the results. -/
inductive Iterates : Nat → Option Nat → List (Except ε Span) → Prop
  /-- There is no further match. -/
  | ended {start : Nat} {previous : Option Nat} : μ.IsAbsent t start → Iterates start previous []
  /-- The search fails. -/
  | failed {start : Nat} {previous : Option Nat} {e : ε} :
    start ≤ t.length → Iterates start previous [.error e]
  /-- An empty match at the end of the match before is passed over. -/
  | skipped {start : Nat} {previous : Option Nat} {o : Occurrence} {rs : List (Except ε Span)} :
    μ.IsFirst t start o → o.whole.start = o.whole.stop → previous = some o.whole.stop →
      Iterates (o.whole.stop + 1) previous rs → Iterates start previous rs
  /-- Behind an empty match the search goes on one character later. -/
  | empty {start : Nat} {previous : Option Nat} {o : Occurrence} {rs : List (Except ε Span)} :
    μ.IsFirst t start o → o.whole.start = o.whole.stop → previous ≠ some o.whole.stop →
      Iterates (o.whole.stop + 1) (some o.whole.stop) rs →
      Iterates start previous (.ok o.whole :: rs)
  /-- Behind any other match the search goes on at its end. -/
  | matched {start : Nat} {previous : Option Nat} {o : Occurrence} {rs : List (Except ε Span)} :
    μ.IsFirst t start o → o.whole.start ≠ o.whole.stop →
      Iterates o.whole.stop (some o.whole.stop) rs → Iterates start previous (.ok o.whole :: rs)

end

/-- One match stands behind another one, and is not empty right at its end. -/
def Span.Precedes (a b : Span) : Prop :=
  a.stop ≤ b.start ∧ ¬(b.start = b.stop ∧ b.start = a.stop)

theorem Span.isChain_cons {a : Span} {ss : List Span} (hss : ss.IsChain Precedes)
    (hbehind : ∀ s ∈ ss, a.stop ≤ s.start)
    (hhead : ∀ s ∈ ss.head?, s.start = s.stop → some a.stop ≠ some s.stop) :
    (a :: ss).IsChain Precedes := by
  refine List.isChain_cons.2 ⟨fun b hb => ⟨hbehind b (List.mem_of_mem_head? hb), ?_⟩, hss⟩
  rintro ⟨hempty, heq⟩
  exact hhead b hb hempty (congrArg some (heq.symm.trans hempty))

namespace Iterates

variable {μ : Meaning} {t : Text} {ε : Type} {start : Nat} {previous : Option Nat}
  {rs : List (Except ε Span)}

/-- The results are matches that stand one behind the other, and perhaps a failure at the end. -/
theorem exists_spans (h : Iterates μ t start previous rs) :
    ∃ (ss : List Span) (failure : Option ε),
      rs = ss.map .ok ++ (failure.map .error).toList ∧
      (∀ s ∈ ss, start ≤ s.start ∧ s.start ≤ s.stop ∧ s.stop ≤ t.length) ∧
      ss.IsChain Span.Precedes ∧
      ∀ s ∈ ss.head?, s.start = s.stop → previous ≠ some s.stop := by
  induction h with
  | ended _ => exact ⟨[], none, rfl, by simp, .nil, by simp⟩
  | failed _ => exact ⟨[], some _, rfl, by simp, .nil, by simp⟩
  | @skipped start previous o rs ho hempty hprevious _ ih =>
    obtain ⟨ss, failure, rfl, hbounds, hchain, hhead⟩ := ih
    obtain ⟨hle, hmoves, -⟩ := ho.bounds
    refine ⟨ss, failure, rfl, fun s hs => ?_, hchain, hhead⟩
    obtain ⟨h₁, h₂⟩ := hbounds s hs
    exact ⟨by omega, h₂⟩
  | @empty start previous o rs ho hempty hprevious _ ih =>
    obtain ⟨ss, failure, rfl, hbounds, hchain, hhead⟩ := ih
    have ho := ho.bounds
    refine ⟨o.whole :: ss, failure, rfl, List.forall_mem_cons.2 ⟨ho, fun s hs => ?_⟩, ?_, ?_⟩
    · obtain ⟨h₁, h₂⟩ := hbounds s hs
      exact ⟨by omega, h₂⟩
    · exact Span.isChain_cons hchain (fun s hs => Nat.le_of_succ_le (hbounds s hs).1) hhead
    · intro s hs _
      obtain rfl := Option.some.inj hs
      exact hprevious
  | @matched start previous o rs ho hne _ ih =>
    obtain ⟨ss, failure, rfl, hbounds, hchain, hhead⟩ := ih
    have ho := ho.bounds
    refine ⟨o.whole :: ss, failure, rfl, List.forall_mem_cons.2 ⟨ho, fun s hs => ?_⟩, ?_, ?_⟩
    · obtain ⟨h₁, h₂⟩ := hbounds s hs
      exact ⟨by omega, h₂⟩
    · exact Span.isChain_cons hchain (fun s hs => (hbounds s hs).1) hhead
    · intro s hs hempty
      obtain rfl := Option.some.inj hs
      exact absurd hempty hne

/-- Each result is found at a position of its own, so the results end. -/
theorem length_le (h : Iterates μ t start previous rs) : rs.length ≤ t.length + 1 - start := by
  induction h with
  | ended _ => exact Nat.zero_le _
  | failed hle => rw [List.length_singleton]; omega
  | skipped ho _ _ _ ih =>
    have ho := ho.bounds
    omega
  | empty ho _ _ _ ih =>
    have ho := ho.bounds
    rw [List.length_cons]
    omega
  | matched ho _ _ ih =>
    have ho := ho.bounds
    rw [List.length_cons]
    omega

/-- Every match is the first occurrence from some position on. -/
theorem exists_isFirst_of_mem (h : Iterates μ t start previous rs) {s : Span}
    (hs : .ok s ∈ rs) : ∃ start o, μ.IsFirst t start o ∧ s = o.whole := by
  induction h with
  | ended _ => exact absurd hs List.not_mem_nil
  | failed _ => exact absurd (List.mem_singleton.1 hs) nofun
  | skipped _ _ _ _ ih => exact ih hs
  | empty ho _ _ _ ih =>
    rcases List.mem_cons.1 hs with hs | hs
    · exact ⟨_, _, ho, Except.ok.inj hs⟩
    · exact ih hs
  | matched ho _ _ ih =>
    rcases List.mem_cons.1 hs with hs | hs
    · exact ⟨_, _, ho, Except.ok.inj hs⟩
    · exact ih hs

/-- The names of the failures make no difference. -/
theorem mapError {δ : Type} (f : ε → δ) (h : Iterates μ t start previous rs) :
    Iterates μ t start previous (rs.map fun r => r.mapError f) := by
  induction h with
  | ended habsent => exact .ended habsent
  | failed hle => exact .failed hle
  | skipped ho hempty hprevious _ ih => exact .skipped ho hempty hprevious ih
  | empty ho hempty hprevious _ ih => exact .empty ho hempty hprevious ih
  | matched ho hne _ ih => exact .matched ho hne ih

end Iterates

/-! ## The laws -/

/-- What is assumed of the searches of a regex whose pattern has a meaning. A search that fails tells
nothing, and no law speaks of two searches. -/
structure Searches.Obeys {ε : Type} (s : Searches ε) (μ : Meaning) : Prop where
  /-- There is a match if the pattern occurs anywhere in the text. -/
  isMatch {t : Text} {b : Bool} :
    s.isMatch t = .ok b → (b = true ↔ ∃ p, p ≤ t.length ∧ μ.occurrences t 0 p ≠ [])
  /-- Nothing is found if the pattern does not occur. -/
  find_none {t : Text} : s.find t = .ok none → μ.IsAbsent t 0
  /-- What is found is the first occurrence. -/
  find_some {t : Text} {x : Span} :
    s.find t = .ok (some x) → ∃ o, μ.IsFirst t 0 o ∧ x = o.whole
  /-- The matches in a row are found one behind the other. -/
  findIter (t : Text) : Iterates μ t 0 none (s.findIter t)
  /-- There are no groups if the pattern does not occur. -/
  captures_none {t : Text} : s.captures t = .ok none → μ.IsAbsent t 0
  /-- The groups are those of the first occurrence. -/
  captures_some {t : Text} {g : Nat → Option Span} :
    s.captures t = .ok (some g) → ∃ o, μ.IsFirst t 0 o ∧ ∀ n, g n = o.group? n

/-- The searches of a regex obey the laws, of whichever engine it is. -/
def Regex.Obeys (r : Regex) (μ : Meaning) : Prop :=
  match r with
  | .basic s => s.Obeys μ
  | .extended s => s.Obeys μ

theorem Except.exists_of_map {ε α β : Type} {f : α → β} {e : Except ε α} {b : β}
    (h : e.map f = .ok b) : ∃ a, e = .ok a ∧ b = f a := by
  cases e with
  | ok a => exact ⟨a, rfl, (Except.ok.inj h).symm⟩
  | error _ => cases h

theorem Except.eq_ok_of_mapError {ε δ α : Type} {f : ε → δ} {e : Except ε α} {a : α}
    (h : e.mapError f = .ok a) : e = .ok a := by
  cases e with
  | ok b => exact congrArg Except.ok (Except.ok.inj h)
  | error _ => cases h

namespace Searches.Obeys

variable {ε : Type} {s : Searches ε} {μ : Meaning} (hs : s.Obeys μ)

include hs

/-- The names of the failures make no difference. -/
theorem mapError {δ : Type} (f : ε → δ) : (s.mapError f).Obeys μ where
  isMatch h := hs.isMatch (Except.eq_ok_of_mapError h)
  find_none h := hs.find_none (Except.eq_ok_of_mapError h)
  find_some h := hs.find_some (Except.eq_ok_of_mapError h)
  findIter t := (hs.findIter t).mapError f
  captures_none h := hs.captures_none (Except.eq_ok_of_mapError h)
  captures_some h := hs.captures_some (Except.eq_ok_of_mapError h)

/-! Each search tells of the first occurrence. -/

variable {t : Text}

theorem isMatch_eq {b : Bool} (h : s.isMatch t = .ok b) : b = (μ.first? t 0).isSome :=
  Bool.eq_iff_iff.2 ((hs.isMatch h).trans Meaning.isSome_first?_iff.symm)

theorem find_eq {x : Option Span} (h : s.find t = .ok x) :
    x = (μ.first? t 0).map Occurrence.whole :=
  Meaning.eq_map_first? (fun hx => hs.find_none (hx ▸ h)) fun _ hx => hs.find_some (hx ▸ h)

theorem captures_eq {g : Option (Nat → Option Span)} (h : s.captures t = .ok g) :
    g = (μ.first? t 0).map Occurrence.group? := by
  refine Meaning.eq_map_first? (fun hg => hs.captures_none (hg ▸ h)) fun a hg => ?_
  obtain ⟨o, ho, hgroups⟩ := hs.captures_some (hg ▸ h)
  exact ⟨o, ho, funext hgroups⟩

end Searches.Obeys

/-- What wraps the two engines keeps the laws. -/
theorem Regex.Obeys.searches {r : Regex} {μ : Meaning} (h : r.Obeys μ) : r.searches.Obeys μ := by
  cases r with
  | basic s => exact Searches.Obeys.mapError h Empty.elim
  | extended s => exact h

end FluentPattern
