import FluentPattern.Proofs.Matching.Stops
import Mathlib.Computability.Language

/-!
# Languages of ways

Some ways ask for nothing but the characters that they pass: they read a language, and stop
wherever the characters that they have passed make up one of its words. Ways one after the
other read the product of their languages, and ways over and over the powers of theirs.

Main statements: `Ways.Reads.seq`, `Ways.Reads.star`, `Ways.Reads.repeated` (a quantity in
either engine).
-/

open scoped Computability

namespace FluentPattern

/-! ## Parts of a haystack -/

namespace Haystack

variable (h : Haystack) {p m q : Nat}

/-- The characters between two positions. -/
def between (p q : Nat) : Text :=
  (h.toList.drop p).take (q - p)

@[simp] theorem between_self (p : Nat) : between h p p = [] := by
  rw [between, Nat.sub_self, List.take_zero]

@[simp] theorem between_all : between h 0 h.size = h.toList :=
  List.take_of_length_le (Nat.le_of_eq Array.length_toList)

theorem length_between (hq : q ≤ h.size) : (between h p q).length = q - p := by
  rw [between, List.length_take, List.length_drop, Array.length_toList]
  omega

theorem between_append (hpm : p ≤ m) (hmq : m ≤ q) :
    between h p m ++ between h m q = between h p q := by
  have hadd : q - p = (m - p) + (q - m) := by omega
  have hdrop : (h.toList.drop p).drop (m - p) = h.toList.drop m := by
    rw [List.drop_drop, Nat.add_sub_cancel' hpm]
  rw [between, between, between, hadd, List.take_add, hdrop]

theorem between_succ (hp : p < h.size) : between h p (p + 1) = [h[p]] := by
  have hlength : p < h.toList.length := by rwa [Array.length_toList]
  rw [between, List.drop_eq_getElem_cons hlength, Nat.add_sub_cancel_left, List.take_succ_cons,
    List.take_zero, Array.getElem_toList]

/-- Where the characters between two positions are cut there is a position. -/
theorem exists_between_eq_append (hpq : p ≤ q) (hq : q ≤ h.size) {s t : Text}
    (hst : s ++ t = between h p q) :
    ∃ m, p ≤ m ∧ m ≤ q ∧ between h p m = s ∧ between h m q = t := by
  have hlength := congrArg List.length hst
  rw [List.length_append, length_between h hq] at hlength
  have hle : p + s.length ≤ q := by omega
  rw [← between_append h (Nat.le_add_right p s.length) hle] at hst
  have hs : s.length = (between h p (p + s.length)).length := by
    rw [length_between h (hle.trans hq), Nat.add_sub_cancel_left]
  obtain ⟨hfirst, hsecond⟩ := List.append_inj hst hs
  exact ⟨p + s.length, Nat.le_add_right _ _, hle, hfirst.symm, hsecond.symm⟩

end Haystack

/-! ## Reading a language -/

/-- The ways stop wherever the characters that they have passed are a word of the language,
whatever was passed before. -/
def Ways.Reads (h : Haystack) (w : Ways) (L : Language Char) : Prop :=
  ∀ p, p ≤ h.size → ∀ r q, w.StopsAt p r q ↔ p ≤ q ∧ q ≤ h.size ∧ h.between p q ∈ L

/-- The characters of a set, each as a word. -/
def CharSet.words (s : CharSet) : Language Char :=
  {t | ∃ c, s.contains c = true ∧ t = [c]}

/-- Whether a number of iterations is between the bounds. -/
def Quantity.Admits (q : Quantity) (k : Nat) : Prop :=
  q.least ≤ k ∧ ∀ n ∈ q.most, k ≤ n

/-- The words that are made up of as many words of a language as a quantity admits. -/
def Quantity.powers (q : Quantity) (L : Language Char) : Language Char :=
  {t | ∃ k, q.Admits k ∧ t ∈ L ^ k}

/-! ## Words of one character and of one word -/

namespace CharSet

theorem contains_ranges (cs : Text) (negated : Bool) (c : Char) :
    (⟨cs.map fun a => .range a a, false, negated⟩ : CharSet).contains c = true ↔
      (c ∈ cs ↔ negated = false) := by
  have hlists : (⟨cs.map fun a => .range a a, false, negated⟩ : CharSet).lists c = true ↔
      c ∈ cs := by
    simp only [lists, List.any_map, List.any_eq_true, Function.comp_apply, ClassItem.holds,
      Bool.and_eq_true, decide_eq_true_eq]
    constructor
    · rintro ⟨a, ha, hac, hca⟩
      exact Char.le_antisymm hca hac ▸ ha
    · exact fun hc => ⟨c, hc, Char.le_refl c, Char.le_refl c⟩
  rw [contains, Bool.false_and, Bool.or_false, ← hlists]
  cases negated <;> simp

theorem contains_notLineFeed (c : Char) : notLineFeed.contains c = true ↔ c ≠ '\n' :=
  (contains_ranges ['\n'] true c).trans (by simp)

theorem mem_words_pow (s : CharSet) {k : Nat} {t : Text} :
    t ∈ s.words ^ k ↔ t.length = k ∧ ∀ c ∈ t, s.contains c = true := by
  induction k generalizing t with
  | zero =>
    rw [pow_zero, Language.mem_one, ← List.length_eq_zero_iff]
    refine ⟨fun ht => ⟨ht, ?_⟩, And.left⟩
    rw [List.length_eq_zero_iff.1 ht]
    exact List.forall_mem_nil _
  | succ k ih =>
    rw [pow_succ', Language.mem_mul]
    constructor
    · rintro ⟨_, ⟨c, hc, rfl⟩, u, hu, rfl⟩
      obtain ⟨rfl, hall⟩ := ih.1 hu
      exact ⟨rfl, List.forall_mem_cons.2 ⟨hc, hall⟩⟩
    · rintro ⟨hlength, hall⟩
      obtain ⟨c, u, rfl⟩ := List.exists_cons_of_length_eq_add_one hlength
      obtain ⟨hc, hall⟩ := List.forall_mem_cons.1 hall
      exact ⟨[c], ⟨c, hc, rfl⟩, u, ih.2 ⟨Nat.succ.inj hlength, hall⟩, rfl⟩

end CharSet

namespace Quantity

theorem mem_powers_words (q : Quantity) (s : CharSet) {t : Text} :
    t ∈ q.powers s.words ↔ q.Admits t.length ∧ ∀ c ∈ t, s.contains c = true := by
  constructor
  · rintro ⟨k, hk, ht⟩
    obtain ⟨rfl, hall⟩ := s.mem_words_pow.1 ht
    exact ⟨hk, hall⟩
  · rintro ⟨hk, hall⟩
    exact ⟨t.length, hk, s.mem_words_pow.2 ⟨rfl, hall⟩⟩

theorem mem_powers_singleton (q : Quantity) {t u : Text} :
    t ∈ q.powers ({u} : Language Char) ↔ ∃ k, q.Admits k ∧ t = (List.replicate k u).flatten := by
  have hpow (k : Nat) : t ∈ ({u} : Language Char) ^ k ↔ t = (List.replicate k u).flatten := by
    rw [Language.mem_pow]
    constructor
    · rintro ⟨S, rfl, rfl, hS⟩
      rw [List.eq_replicate_of_mem hS]
      simp
    · rintro rfl
      exact ⟨List.replicate k u, rfl, List.length_replicate, fun s hs => List.eq_of_mem_replicate hs⟩
  exact exists_congr fun k => and_congr_right fun _ => hpow k

end Quantity

namespace Ways.Reads

variable {h : Haystack} {v w : Ways} {L M : Language Char}

theorem isBounded (hw : w.Reads h L) : w.IsBounded h.size := by
  intro p hp r v hv
  obtain ⟨hpv, hsize, -⟩ := (hw p hp r v.stop).1 ⟨v, hv, rfl⟩
  exact ⟨hpv, hsize⟩

/-- What reads a single word has a way where the haystack goes on with it. -/
theorem exists_mem_iff {t : Text} (hw : w.Reads h ({t} : Language Char)) {p : Nat}
    (hp : p ≤ h.size) (r : Record) : (∃ x, x ∈ w p r) ↔ t <+: h.toList.drop p := by
  constructor
  · rintro ⟨x, hx⟩
    obtain ⟨-, -, hword⟩ := (hw p hp r x.stop).1 ⟨x, hx, rfl⟩
    have hbetween : h.between p x.stop = t := hword
    exact hbetween ▸ List.take_prefix _ _
  · intro ht
    have hle := ht.length_le
    have hsize : h.toList.length = h.size := Array.length_toList
    rw [List.length_drop, hsize] at hle
    have hword : h.between p (p + t.length) = t := by
      rw [Haystack.between, Nat.add_sub_cancel_left]
      exact (List.prefix_iff_eq_take.1 ht).symm
    obtain ⟨x, hx, -⟩ := (hw p hp r (p + t.length)).2 ⟨Nat.le_add_right _ _, by omega, hword⟩
    exact ⟨x, hx⟩

theorem sameStops (hv : v.Reads h L) (hw : w.Reads h L) : SameStops h.size v w :=
  fun p hp r r' q => (hv p hp r q).trans (hw p hp r' q).symm

theorem of_sameStops (hw : w.Reads h L) (hvw : SameStops h.size v w) : v.Reads h L :=
  fun p hp r q => (hvw p hp r r q).trans (hw p hp r q)

theorem congr (hw : w.Reads h L) (hLM : ∀ t, t ∈ L ↔ t ∈ M) : w.Reads h M :=
  Language.ext hLM ▸ hw

theorem unit : Ways.unit.Reads h 1 := by
  intro p hp r q
  rw [stopsAt_unit]
  constructor
  · rintro rfl
    exact ⟨Nat.le_refl p, hp, h.between_self p⟩
  · rintro ⟨hpq, hq, hnil⟩
    have hlength := h.length_between (p := p) hq
    rw [(Language.mem_one _).1 hnil, List.length_nil] at hlength
    omega

theorem char (s : CharSet) : (Ways.char h s).Reads h s.words := by
  intro p hp r q
  simp only [StopsAt, Ways.char]
  constructor
  · rintro ⟨x, hx, rfl⟩
    split at hx
    · rename_i c hc
      obtain ⟨hlt, rfl⟩ := Array.getElem?_eq_some_iff.1 hc
      split at hx
      · rename_i hcontains
        obtain rfl := List.mem_singleton.1 hx
        exact ⟨Nat.le_succ p, hlt, _, hcontains, h.between_succ hlt⟩
      · exact absurd hx List.not_mem_nil
    · exact absurd hx List.not_mem_nil
  · rintro ⟨hpq, hq, c, hcontains, hc⟩
    have hlength := h.length_between (p := p) hq
    rw [hc, List.length_singleton] at hlength
    obtain rfl : q = p + 1 := by omega
    rw [h.between_succ hq] at hc
    obtain rfl := List.singleton_inj.1 hc
    refine ⟨⟨p + 1, r⟩, ?_, rfl⟩
    rw [Array.getElem?_eq_getElem hq]
    simp only [hcontains, if_true, List.mem_singleton]

theorem seq (hv : v.Reads h L) (hw : w.Reads h M) : (Ways.seq v w).Reads h (L * M) := by
  intro p hp r q
  rw [stopsAt_seq]
  constructor
  · rintro ⟨x, hx, hq⟩
    obtain ⟨hpx, hsize, hL⟩ := (hv p hp r x.stop).1 ⟨x, hx, rfl⟩
    obtain ⟨hxq, hqsize, hM⟩ := (hw x.stop hsize x.record q).1 hq
    refine ⟨hpx.trans hxq, hqsize, ?_⟩
    rw [← h.between_append hpx hxq]
    exact Language.append_mem_mul hL hM
  · rintro ⟨hpq, hq, hmem⟩
    obtain ⟨s, hs, t, ht, hst⟩ := Language.mem_mul.1 hmem
    obtain ⟨m, hpm, hmq, rfl, rfl⟩ := h.exists_between_eq_append hpq hq hst
    obtain ⟨x, hx, rfl⟩ := (hv p hp r m).2 ⟨hpm, hmq.trans hq, hs⟩
    exact ⟨x, hx, (hw x.stop (hmq.trans hq) x.record q).2 ⟨hmq, hq, ht⟩⟩

theorem capture (hw : w.Reads h L) (group : Nat) : (Ways.capture group w).Reads h L := by
  intro p hp r q
  rw [← hw p hp (Record.pass r group .opening p) q]
  simp [StopsAt, Ways.capture]

theorem orEmpty (hw : w.Reads h L) (greedy : Bool) : (Ways.orEmpty greedy w).Reads h (L + 1) := by
  intro p hp r q
  rw [stopsAt_orEmpty, ← stopsAt_unit (r := r), unit p hp r q, hw p hp r q, Language.mem_add]
  tauto

theorem copies (hw : w.Reads h L) (n : Nat) : (Ways.copies w n).Reads h (L ^ n) := by
  induction n with
  | zero => exact unit
  | succ n ih =>
    rw [pow_succ']
    exact hw.seq ih

theorem upTo (hw : w.Reads h L) (greedy : Bool) (n : Nat) :
    (Ways.upTo greedy w n).Reads h (Quantity.powers ⟨0, some n, greedy⟩ L) := by
  induction n with
  | zero =>
    refine unit.congr fun t => ⟨fun ht => ⟨0, ⟨Nat.le_refl 0, by simp⟩, ht⟩, ?_⟩
    rintro ⟨k, ⟨-, hk⟩, ht⟩
    rwa [Nat.le_zero.1 (hk 0 rfl), pow_zero] at ht
  | succ n ih =>
    refine ((hw.seq ih).orEmpty greedy).congr fun t => ?_
    rw [Language.mem_add, Language.mem_mul]
    constructor
    · rintro (⟨a, ha, b, ⟨k, ⟨-, hk⟩, hb⟩, rfl⟩ | ht)
      · refine ⟨k + 1, ⟨Nat.zero_le _, ?_⟩, ?_⟩
        · rintro _ ⟨⟩
          exact Nat.succ_le_succ (hk n rfl)
        · rw [pow_succ']
          exact Language.append_mem_mul ha hb
      · exact ⟨0, ⟨Nat.le_refl 0, fun _ _ => Nat.zero_le _⟩, ht⟩
    · rintro ⟨k, ⟨-, hk⟩, ht⟩
      cases k with
      | zero => exact .inr ht
      | succ k =>
        rw [pow_succ'] at ht
        obtain ⟨a, ha, b, hb, rfl⟩ := Language.mem_mul.1 ht
        refine .inl ⟨a, ha, b, ⟨k, ⟨Nat.zero_le _, ?_⟩, hb⟩, rfl⟩
        rintro _ ⟨⟩
        exact Nat.le_of_succ_le_succ (hk (n + 1) rfl)

/-- Iterations that move on are enough for the iterations of a language, by induction on the
number of characters that are left. -/
theorem star (hw : w.Reads h L) (greedy : Bool) : (Ways.star h.size greedy w).Reads h L∗ := by
  intro p hp
  induction hn : h.size - p using Nat.strong_induction_on generalizing p with
  | _ n ih =>
  intro r q
  rw [stopsAt_star hw.isBounded greedy hp]
  constructor
  · rintro (rfl | ⟨x, hx, hlt, hq⟩)
    · exact ⟨Nat.le_refl p, hp, h.between_self p ▸ Language.nil_mem_kstar L⟩
    · obtain ⟨-, hsize, hL⟩ := (hw p hp r x.stop).1 ⟨x, hx, rfl⟩
      obtain ⟨hxq, hqsize, hstar⟩ := (ih _ (by omega) x.stop hsize rfl x.record q).1 hq
      refine ⟨hlt.le.trans hxq, hqsize, ?_⟩
      rw [← h.between_append hlt.le hxq]
      obtain ⟨S, hS, hwords⟩ := Language.mem_kstar.1 hstar
      rw [hS]
      exact Language.join_mem_kstar (L := _ :: S) (List.forall_mem_cons.2 ⟨hL, hwords⟩)
  · rintro ⟨hpq, hq, hmem⟩
    obtain ⟨S, hS, hwords⟩ := Language.mem_kstar_iff_exists_nonempty.1 hmem
    cases S with
    | nil =>
      have hlength := h.length_between (p := p) hq
      rw [hS, List.flatten_nil, List.length_nil] at hlength
      exact .inl (by omega)
    | cons s S =>
      obtain ⟨hs, hne⟩ := hwords s List.mem_cons_self
      obtain ⟨m, hpm, hmq, rfl, hrest⟩ := h.exists_between_eq_append hpq hq hS.symm
      have hlt : p < m := by
        rcases Nat.eq_or_lt_of_le hpm with rfl | hlt
        · exact absurd (h.between_self p) hne
        · exact hlt
      obtain ⟨x, hx, rfl⟩ := (hw p hp r m).2 ⟨hpm, hmq.trans hq, hs⟩
      have hstar : h.between x.stop q ∈ L∗ :=
        hrest ▸ Language.join_mem_kstar fun y hy => (hwords y (List.mem_cons_of_mem _ hy)).1
      exact .inr ⟨x, hx, hlt,
        (ih _ (by omega) x.stop (hmq.trans hq) rfl x.record q).2 ⟨hmq, hq, hstar⟩⟩

/-- A quantity reads as many words one after the other as it admits. -/
theorem repeated {n : Node} (hn : (n.ways h).Reads h L) (engine : Engine) {q : Quantity}
    (hq : q.isReversed = false) : ((Node.repeated engine q n).ways h).Reads h (q.powers L) := by
  have hextended : ((Node.repeated .extended q n).ways h).Reads h (q.powers L) := by
    obtain ⟨least, most, greedy⟩ := q
    cases most with
    | none =>
      refine ((hn.copies least).seq (hn.star greedy)).congr fun t => ?_
      rw [Language.kstar_eq_iSup_pow, Language.mul_iSup, Language.mem_iSup]
      constructor
      · rintro ⟨k, hk⟩
        rw [← pow_add] at hk
        exact ⟨least + k, ⟨Nat.le_add_right _ _, by simp⟩, hk⟩
      · rintro ⟨k, ⟨hle, -⟩, hk⟩
        refine ⟨k - least, ?_⟩
        rwa [← pow_add, Nat.add_sub_cancel' hle]
    | some most =>
      have hle : least ≤ most := by simpa [Quantity.isReversed] using hq
      have hnode : Node.repeated .extended ⟨least, some most, greedy⟩ n =
          .times least (.upTo (most - least)) greedy n := by
        simp only [Node.repeated, Node.repeatExtended, Nat.min_eq_left hle]
      rw [hnode]
      refine ((hn.copies least).seq (hn.upTo greedy (most - least))).congr fun t => ?_
      rw [Language.mem_mul]
      constructor
      · rintro ⟨a, ha, b, ⟨k, ⟨-, hk⟩, hb⟩, rfl⟩
        have hfurther := hk _ rfl
        refine ⟨least + k, ⟨Nat.le_add_right _ _, ?_⟩, ?_⟩
        · rintro _ ⟨⟩
          omega
        · rw [pow_add]
          exact Language.append_mem_mul ha hb
      · rintro ⟨k, ⟨hleast, hmost⟩, hk⟩
        rw [← Nat.add_sub_cancel' hleast, pow_add] at hk
        obtain ⟨a, ha, b, hb, rfl⟩ := Language.mem_mul.1 hk
        refine ⟨a, ha, b, ⟨k - least, ⟨Nat.zero_le _, ?_⟩, hb⟩, rfl⟩
        rintro _ ⟨⟩
        exact Nat.sub_le_sub_right (hmost most rfl) least
  cases engine with
  | extended => exact hextended
  | basic =>
    exact hextended.of_sameStops (Node.sameStops_repeated h q hq n (hn.sameStops hn))

end Ways.Reads

end FluentPattern
