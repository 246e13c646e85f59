import FluentPattern.Proofs.Matching.Answers

/-!
# Replacing matches

The matches of a text are parts of it between characters, one behind the other. So what stands
between them is always in range, and the text that is written keeps it, in order, with the
replacement in place of each match that counts. A failure among the results that count is the answer
instead, and one right behind them is not.

Main statements: `Splices.unique` (the text that is written is determined),
`Regex.Obeys.exists_findEach`, `Regex.Obeys.replace?_eq_some` (what is copied is in range),
`Regex.Obeys.replace_cases`, `Compiled.findEach_findAll_replace` (what is replaced is what is
found).
-/

namespace FluentPattern

/-! ## Matches of a text -/

/-- The characters between two positions continue those before the first one. -/
theorem Text.take_append_drop_take {p q : Nat} (hle : p ≤ q) (t : Text) :
    t.take p ++ (t.take q).drop p = t.take q :=
  calc t.take p ++ (t.take q).drop p
      = (t.take q).take p ++ (t.take q).drop p := by rw [List.take_take, Nat.min_eq_left hle]
    _ = t.take q := List.take_append_drop p _

theorem Text.drop_take_append_drop {p q : Nat} (hle : p ≤ q) (t : Text) :
    (t.take q).drop p ++ t.drop q = t.drop p :=
  calc (t.take q).drop p ++ t.drop q
      = (t.drop p).take (q - p) ++ (t.drop p).drop (q - p) := by
        rw [List.drop_take, List.drop_drop, Nat.add_sub_cancel' hle]
    _ = t.drop p := List.take_append_drop _ _

theorem Text.byteLength_take_mono {p q : Nat} (hle : p ≤ q) (t : Text) :
    byteLength (t.take p) ≤ byteLength (t.take q) := by
  rw [← take_append_drop_take hle, byteLength_append]
  exact Nat.le_add_right _ _

/-- Each character has a byte. -/
theorem Text.eq_of_byteLength_take {p q : Nat} (hle : p ≤ q) {t : Text} (hq : q ≤ t.length)
    (h : byteLength (t.take p) = byteLength (t.take q)) : p = q := by
  rw [← take_append_drop_take hle, byteLength_append] at h
  have hnil : (t.take q).drop p = [] := byteLength_eq_zero_iff.1 (by omega)
  have hlen := List.drop_eq_nil_iff.1 hnil
  rw [List.length_take] at hlen
  omega

namespace Match

/-- One match stands behind another one, and is not empty right at its end. -/
def Precedes (x y : Match) : Prop :=
  x.stop ≤ y.start ∧ ¬(y.start = y.stop ∧ y.start = x.stop)

/-- A match is a part of a text, between characters. -/
def IsPartOf (x : Match) (t : Text) : Prop :=
  x.start ≤ x.stop ∧ t.slice? x.start x.stop = some x.text

variable {t : Text} {s : Span}

theorem stop_ofSpan (hs : s.start ≤ s.stop) :
    (ofSpan t s).stop = (ofSpan t s).start + (ofSpan t s).text.byteLength := by
  rw [ofSpan, ← Text.byteLength_append, Text.take_append_drop_take hs]

theorem isPartOf_ofSpan (hs : s.start ≤ s.stop) : (ofSpan t s).IsPartOf t := by
  refine ⟨Text.byteLength_take_mono hs t, Text.slice?_eq_some_iff.2
    ⟨t.take s.start, t.drop s.stop, ?_, rfl, stop_ofSpan hs⟩⟩
  rw [ofSpan, Text.drop_take_append_drop hs, List.take_append_drop]

/-- Positions are in the order of the bytes before them. -/
theorem precedes_ofSpan {s₁ s₂ : Span} (h : s₁.Precedes s₂) (hs : s₂.start ≤ s₂.stop)
    (hlen : s₂.stop ≤ t.length) : (ofSpan t s₁).Precedes (ofSpan t s₂) := by
  obtain ⟨hle, hne⟩ := h
  refine ⟨Text.byteLength_take_mono hle t, fun ⟨hempty, hend⟩ => hne ⟨?_, ?_⟩⟩
  · exact Text.eq_of_byteLength_take hs hlen hempty
  · exact (Text.eq_of_byteLength_take hle (Nat.le_trans hs hlen) hend.symm).symm

end Match

/-! ## Splicing -/

/-- A text and the text with some matches replaced, each as far as it stands behind the byte
`offset`: every match is cut out where it stands, and all else is kept. -/
inductive Splices (replacement : Text) : Nat → List Match → Text → Text → Prop
  /-- What stands behind the last match is kept. -/
  | done {offset : Nat} (rest : Text) : Splices replacement offset [] rest rest
  /-- What stands before a match is kept, and the match is replaced. -/
  | splice {offset : Nat} {x : Match} {xs : List Match} {rest out : Text} (kept : Text) :
    x.start = offset + kept.byteLength → x.stop = x.start + x.text.byteLength →
      Splices replacement x.stop xs rest out →
      Splices replacement offset (x :: xs) (kept ++ (x.text ++ rest)) (kept ++ (replacement ++ out))

namespace Splices

variable {replacement : Text} {offset : Nat} {xs : List Match} {rest out : Text}

/-- What is written is determined. -/
theorem unique (h : Splices replacement offset xs rest out) {out' : Text}
    (h' : Splices replacement offset xs rest out') : out = out' := by
  induction h generalizing out' with
  | done rest =>
    cases h'
    rfl
  | @splice offset x xs rest out kept hstart hstop hrest ih =>
    generalize hwhole : kept ++ (x.text ++ rest) = whole at h'
    cases h' with
    | @splice _ _ _ rest' out' kept' hstart' hstop' hrest' =>
      have hcut := Text.splitAt?_append kept (x.text ++ rest)
      rw [hwhole, Nat.add_left_cancel (hstart.symm.trans hstart'), Text.splitAt?_append] at hcut
      obtain ⟨rfl, hbehind⟩ := Prod.mk.inj (Option.some.inj hcut)
      obtain rfl := List.append_cancel_left hbehind
      rw [ih hrest']

/-- The first matches can be replaced alone. -/
theorem exists_take (h : Splices replacement offset xs rest out) (n : Nat) :
    ∃ out', Splices replacement offset (xs.take n) rest out' := by
  induction h generalizing n with
  | done rest =>
    rw [List.take_nil]
    exact ⟨rest, .done rest⟩
  | splice kept hstart hstop _ ih =>
    cases n with
    | zero => exact ⟨_, .done _⟩
    | succ n =>
      obtain ⟨out', hout⟩ := ih n
      exact ⟨_, .splice kept hstart hstop hout⟩

/-- Parts of a text that stand one behind the other can be replaced. -/
theorem exists_map_ofSpan (replacement t : Text) {ss : List Span}
    (hss : ∀ s ∈ ss, s.start ≤ s.stop) (hchain : ss.IsChain Span.Precedes) (p : Nat)
    (hhead : ∀ s ∈ ss.head?, p ≤ s.start) :
    ∃ out, Splices replacement (Text.byteLength (t.take p)) (ss.map (.ofSpan t)) (t.drop p)
      out := by
  induction ss generalizing p with
  | nil => exact ⟨t.drop p, .done _⟩
  | cons s ss ih =>
    obtain ⟨hs, hss⟩ := List.forall_mem_cons.1 hss
    obtain ⟨hbehind, hchain⟩ := List.isChain_cons.1 hchain
    have hp := hhead s rfl
    obtain ⟨out, hout⟩ := ih hss hchain s.stop fun s' hs' => (hbehind s' hs').1
    refine ⟨(t.take s.start).drop p ++ (replacement ++ out), ?_⟩
    rw [← Text.drop_take_append_drop hp t, ← Text.drop_take_append_drop hs t]
    refine .splice ((t.take s.start).drop p) ?_ (Match.stop_ofSpan hs) hout
    rw [← Text.byteLength_append, Text.take_append_drop_take hp]
    rfl

end Splices

/-! ## The results of a search -/

namespace Regex.Obeys

variable {r : Regex} {μ : Meaning} (hr : r.Obeys μ)

include hr

/-- The results are matches, parts of the text one behind the other, and perhaps a failure at the
end. The matches can be replaced. -/
theorem exists_findEach (t : Text) :
    ∃ (xs : List Match) (failure : Option Exhausted),
      r.findEach t = xs.map .ok ++ (failure.map .error).toList ∧
      (∀ x ∈ xs, x.IsPartOf t) ∧ xs.IsChain Match.Precedes ∧
      ∀ replacement, ∃ out, Splices replacement 0 xs t out := by
  obtain ⟨ss, failure, hspans, hbounds, hchain, -⟩ := (hr.searches.findIter t).exists_spans
  have hss : ∀ s ∈ ss, s.start ≤ s.stop := fun s hs => (hbounds s hs).2.1
  refine ⟨ss.map (.ofSpan t), failure, ?_, ?_, ?_, fun replacement => ?_⟩
  · rw [findEach, hspans]
    cases failure <;> simp [Except.map]
  · intro x hx
    obtain ⟨s, hs, rfl⟩ := List.mem_map.1 hx
    exact Match.isPartOf_ofSpan (hss s hs)
  · refine List.isChain_map _ |>.2 (hchain.imp_of_mem_imp fun s₁ s₂ _ hs₂ h => ?_)
    exact Match.precedes_ofSpan h (hss s₂ hs₂) (hbounds s₂ hs₂).2.2
  · exact Splices.exists_map_ofSpan replacement t hss hchain 0 fun _ _ => Nat.zero_le _

/-- No more results than positions. -/
theorem length_findEach_le (t : Text) : (r.findEach t).length ≤ t.length + 1 := by
  rw [findEach, List.length_map]
  exact (hr.searches.findIter t).length_le

end Regex.Obeys

/-! ## Writing the text -/

namespace Matcher

variable {t replacement front rest out : Text} {limit index offset : Nat} {xs : List Match}

/-- A match that counts is replaced, and what stands before it is copied. -/
theorem replaceFrom_ok (hlimit : ¬(limit ≠ 0 ∧ index = limit)) {kept after : Text}
    (ht : t = front ++ (kept ++ after)) {x : Match}
    (hstart : x.start = front.byteLength + kept.byteLength) (written : Text)
    (results : List (Except Exhausted Match)) :
    replaceFrom t limit replacement index front.byteLength written (.ok x :: results)
      = replaceFrom t limit replacement (index + 1) x.stop (written ++ kept ++ replacement)
          results := by
  have hslice : t.slice? front.byteLength x.start = some kept :=
    Text.slice?_eq_some_iff.2 ⟨front, after, ht, rfl, hstart⟩
  rw [replaceFrom, if_neg hlimit]
  show (t.slice? _ _).bind _ = _
  rw [hslice]
  rfl

/-- Behind the matches that count, the rest is copied. -/
theorem replaceFrom_rest (ht : t = front ++ rest) {results : List (Except Exhausted Match)}
    (hend : results = [] ∨ limit ≠ 0 ∧ index = limit) (written : Text) :
    replaceFrom t limit replacement index front.byteLength written results
      = some (.ok (written ++ rest)) := by
  have hslice : t.slice? front.byteLength t.byteLength = some rest :=
    Text.slice?_eq_some_iff.2 ⟨front, [], by rw [ht, List.append_nil], rfl,
      by rw [ht, Text.byteLength_append]⟩
  cases results with
  | nil => rw [replaceFrom, hslice, Option.map_some]
  | cons r results =>
    unfold replaceFrom
    rw [if_pos (hend.resolve_left nofun), hslice, Option.map_some]

/-- Matches that count are replaced one after the other; what stands behind the last one is left to
be written. -/
theorem exists_replaceFrom (h : Splices replacement offset xs rest out) (ht : t = front ++ rest)
    (hoffset : offset = front.byteLength) (hlimit : limit = 0 ∨ index + xs.length ≤ limit) :
    ∃ before behind new : Text, t = before ++ behind ∧ out = new ++ behind ∧
      ∀ written results,
        replaceFrom t limit replacement index offset written (xs.map .ok ++ results)
          = replaceFrom t limit replacement (index + xs.length) before.byteLength (written ++ new)
              results := by
  induction h generalizing front index with
  | done rest =>
    refine ⟨front, rest, [], ht, rfl, fun written results => ?_⟩
    rw [hoffset, List.append_nil]
    rfl
  | @splice offset x xs rest out kept hstart hstop _ ih =>
    rw [List.length_cons] at hlimit
    have hfront : t = (front ++ (kept ++ x.text)) ++ rest := by
      rw [ht, List.append_assoc, List.append_assoc]
    have hbytes : x.stop = (front ++ (kept ++ x.text)).byteLength := by
      rw [Text.byteLength_append, Text.byteLength_append]
      omega
    have hcount : limit = 0 ∨ index + 1 + xs.length ≤ limit := by omega
    obtain ⟨before, behind, new, hbefore, rfl, hrun⟩ := ih hfront hbytes hcount
    refine ⟨before, behind, kept ++ (replacement ++ new), hbefore, ?_, fun written results => ?_⟩
    · rw [List.append_assoc, List.append_assoc]
    · rw [hoffset] at hstart ⊢
      rw [List.map_cons, List.cons_append, replaceFrom_ok (by omega) ht hstart, hrun,
        List.length_cons, List.append_assoc, List.append_assoc, Nat.add_assoc, Nat.add_comm 1]

end Matcher

namespace Regex.Obeys

variable {r : Regex} {μ : Meaning} (hr : r.Obeys μ) (t : Text) (limit : Nat) (replacement : Text)

include hr

/-- If a failure is among the results that count, it is the answer. Otherwise the matches that count
are replaced. -/
theorem replace?_cases :
    (∃ (xs : List Match) (e : Exhausted),
      Matcher.limited limit (r.findEach t) = xs.map .ok ++ [.error e] ∧
      r.replace? t limit replacement = some (.error e)) ∨
    ∃ (xs : List Match) (out : Text),
      Matcher.limited limit (r.findEach t) = xs.map .ok ∧ Splices replacement 0 xs t out ∧
      r.replace? t limit replacement = some (.ok out) := by
  obtain ⟨xs, failure, hall, -, -, hsplices⟩ := hr.exists_findEach t
  obtain ⟨out, hout⟩ := hsplices replacement
  have hnil : t = [] ++ t := rfl
  rw [Regex.replace?, hall]
  by_cases hlimit : limit ≠ 0 ∧ limit ≤ xs.length
  · -- What comes behind the matches that count is not looked at, be it a failure or not.
    have hlen : (xs.take limit).length = limit := List.length_take_of_le hlimit.2
    obtain ⟨out', hout'⟩ := hout.exists_take limit
    obtain ⟨before, behind, new, ht, rfl, hrun⟩ :=
      Matcher.exists_replaceFrom hout' hnil rfl (.inr (by omega : 0 + _ ≤ limit))
    refine .inr ⟨xs.take limit, new ++ behind, ?_, hout', ?_⟩
    · rw [Matcher.limited, if_neg hlimit.1, List.take_append_of_le_length (by simpa using hlimit.2),
        List.map_take]
    · conv_lhs => rw [← List.take_append_drop limit xs]
      rw [List.map_append, List.append_assoc, hrun,
        Matcher.replaceFrom_rest ht (.inr ⟨hlimit.1, by omega⟩), List.nil_append]
  · have hcount (results : List (Except Exhausted Match)) (hle : results.length ≤ xs.length + 1) :
        Matcher.limited limit results = results := by
      unfold Matcher.limited
      split
      · rfl
      · exact List.take_of_length_le (by omega)
    obtain ⟨before, behind, new, ht, rfl, hrun⟩ :=
      Matcher.exists_replaceFrom hout hnil rfl (by omega : limit = 0 ∨ 0 + _ ≤ limit)
    rw [hcount _ (by cases failure <;> simp), hrun]
    cases failure with
    | none =>
      refine .inr ⟨xs, new ++ behind, List.append_nil _, hout, ?_⟩
      exact Matcher.replaceFrom_rest ht (.inl rfl) _
    | some e =>
      refine .inl ⟨xs, e, rfl, ?_⟩
      rw [Option.map_some, Option.toList_some, Matcher.replaceFrom, if_neg (by omega)]

/-- What is copied is always in range. -/
theorem replace?_eq_some :
    r.replace? t limit replacement = some (r.replace t limit replacement) := by
  unfold Regex.replace
  rcases hr.replace?_cases t limit replacement with ⟨_, _, -, h⟩ | ⟨_, _, -, -, h⟩ <;>
    rw [h, Option.getD_some]

theorem replace_cases :
    (∃ (xs : List Match) (e : Exhausted),
      Matcher.limited limit (r.findEach t) = xs.map .ok ++ [.error e] ∧
      r.replace t limit replacement = .error e) ∨
    ∃ (xs : List Match) (out : Text),
      Matcher.limited limit (r.findEach t) = xs.map .ok ∧ Splices replacement 0 xs t out ∧
      r.replace t limit replacement = .ok out := by
  have h := hr.replace?_cases t limit replacement
  simpa only [hr.replace?_eq_some, Option.some.injEq] using h

end Regex.Obeys

/-! ## Compiled patterns -/

theorem collect_append_error {ε α : Type} (as : List α) (e : ε) (results : List (Except ε α)) :
    collect (as.map .ok ++ .error e :: results) = .error e := by
  induction as with
  | nil => rfl
  | cons a as ih => rw [List.map_cons, List.cons_append, collect, ih]

namespace Pattern

theorem limited_limit {α : Type} (p : Pattern) (results : List α) :
    Matcher.limited p.limit results = if p.isGlobal then results else results.take 1 := by
  unfold Matcher.limited limit
  cases p.isGlobal <;> rfl

/-- What is found and what is replaced are the same matches, and they fail together. -/
theorem findAll_replace_cases {p : Pattern} {μ : Meaning} (hp : p.regex.Obeys μ)
    (t replacement : Text) :
    (∃ (xs : List Match) (e : Exhausted),
      Matcher.limited p.limit (p.regex.findEach t) = xs.map .ok ++ [.error e] ∧
      p.findAll t = .error (.exhausted e) ∧ p.replace t replacement = .error (.exhausted e)) ∨
    ∃ (xs : List Match) (out : Text),
      Matcher.limited p.limit (p.regex.findEach t) = xs.map .ok ∧
      Splices replacement 0 xs t out ∧
      p.findAll t = .ok xs ∧ p.replace t replacement = .ok out := by
  rcases hp.replace_cases t p.limit replacement with
    ⟨xs, e, hall, hreplace⟩ | ⟨xs, out, hall, hout, hreplace⟩
  · refine .inl ⟨xs, e, hall, ?_, ?_⟩
    · rw [findAll, hall, collect_append_error]
      rfl
    · rw [replace, hreplace]
      rfl
  · refine .inr ⟨xs, out, hall, hout, ?_, ?_⟩
    · rw [findAll, hall, collect_map_ok]
      rfl
    · rw [replace, hreplace]
      rfl

end Pattern

/-- The search for all matches of a text has no more results than positions. The results are
matches, parts of the text one behind the other and none empty right at the end of the one before,
and perhaps a failure at the end. Up to any limit, a failure among the results is what replacing
answers, and otherwise the matches are replaced, with nothing copied that is out of range. The
matches that a compiled pattern replaces are the ones it finds, all with its flag `g` and the first
one without it, and it fails to replace them when it fails to find them. -/
theorem Compiled.findEach_findAll_replace (c : Compiled) (t : Text) :
    (c.matcher.findEach t).length ≤ t.length + 1 ∧
    (∃ (xs : List Match) (failure : Option Exhausted),
      c.matcher.findEach t = xs.map .ok ++ (failure.map .error).toList ∧
      (∀ x ∈ xs, x.IsPartOf t) ∧ xs.IsChain Match.Precedes) ∧
    (∀ limit replacement,
      c.matcher.replace? t limit replacement = some (c.matcher.replace t limit replacement) ∧
      ((∃ (xs : List Match) (e : Exhausted),
        Matcher.limited limit (c.matcher.findEach t) = xs.map .ok ++ [.error e] ∧
        c.matcher.replace t limit replacement = .error e) ∨
      ∃ (xs : List Match) (out : Text),
        Matcher.limited limit (c.matcher.findEach t) = xs.map .ok ∧
        Splices replacement 0 xs t out ∧
        c.matcher.replace t limit replacement = .ok out)) ∧
    ∀ replacement,
      (∃ (xs : List Match) (e : Exhausted),
        (if c.isGlobal then c.matcher.findEach t else (c.matcher.findEach t).take 1)
          = xs.map .ok ++ [.error e] ∧
        c.findAll t = .error (.exhausted e) ∧ c.replace t replacement = .error (.exhausted e)) ∨
      ∃ (xs : List Match) (out : Text),
        (if c.isGlobal then c.matcher.findEach t else (c.matcher.findEach t).take 1)
          = xs.map .ok ∧
        Splices replacement 0 xs t out ∧
        c.findAll t = .ok xs ∧ c.replace t replacement = .ok out := by
  obtain ⟨μ, hμ⟩ := c.matcher.exists_obeys
  obtain ⟨xs, failure, hall, hparts, hchain, -⟩ := hμ.exists_findEach t
  refine ⟨hμ.length_findEach_le t, ⟨xs, failure, hall, hparts, hchain⟩,
    fun limit replacement => ?_, fun replacement => ?_⟩
  · exact ⟨hμ.replace?_eq_some t limit replacement, hμ.replace_cases t limit replacement⟩
  · have hcases := Pattern.findAll_replace_cases (p := c.pattern) hμ t replacement
    rwa [Pattern.limited_limit] at hcases

end FluentPattern
