import FluentPattern.Proofs.Label
import FluentPattern.Proofs.Matching.Engines

/-!
# Answers of compiled patterns

A pattern that compiles is matched by the engine of its label, and its flags hold in all of
its literal, in front of it as well as around it. So what a query answers, if no search fails,
can be told from the ways of the tree of the literal, for any engines that follow the dialect.

Main statements: `FollowsDialect.obeys_build`, `Pattern.exists_answers` (the basic engine never
fails), `Call.isMatch_eq`, `Call.find_eq`, `Call.group_eq`, `Call.exists_way_of_finds` (each of the
matches that count).
-/

namespace FluentPattern

/-! ## Flags -/

/-- The flags that hold in the literal of a pattern. -/
def Built.scope (p : Built) : Flags :=
  p.flags.inline?.getD .empty

theorem Built.ignoreCase_scope {p : Built} (hp : p.flags.ignoreCase = false) :
    p.scope.ignoreCase = false := by
  unfold scope Flags.inline?
  split
  · rfl
  · exact hp

section

variable (p : Built) (h : Haystack) (engine : Engine) (groups : Nat) (b : Branch)

/-- Flags in front of a literal hold in it. -/
theorem Built.ways_expressionRow :
    (Branch.lower engine .empty groups (p.expressionRow b)).node.ways h =
      (Branch.lower engine p.scope groups b).node.ways h := by
  unfold expressionRow scope
  cases p.flags.inline? with
  | none => rfl
  | some fs => exact Ways.unit_seq _

/-- Flags around a literal hold in it. -/
theorem Built.ways_scopedRow :
    (Branch.lower engine .empty groups (p.scopedRow b)).node.ways h =
      (Branch.lower engine p.scope groups b).node.ways h := by
  unfold scopedRow scope
  cases p.flags.inline? with
  | none => rfl
  | some fs => exact Ways.seq_unit _

end

/-! ## Engines -/

theorem Call.needsBacktracking_expression (calls : List Call) :
    (Call.build calls).value.expression.needsBacktracking = (Call.build calls).value.extended := by
  rw [Expression.needsBacktracking, Call.any_needsBacktracking_expression, Built.expression,
    Built.engine]
  cases (Call.build calls).value.extended <;> rfl

/-- The tree of a pattern is matched as its engine lowers it. -/
theorem Call.ofBranches_eq (calls : List Call) (b : Branch) :
    (Matcher.ofBranches (Call.build calls).value.expression [b]).backtracks =
        (Call.build calls).value.extended ∧
      (Matcher.ofBranches (Call.build calls).value.expression [b]).node =
        (Branch.lower (Call.build calls).value.engine .empty 0 b).node := by
  unfold Matcher.ofBranches
  rw [Call.needsBacktracking_expression, Built.engine, Branches.lower_singleton,
    Branches.lower_singleton]
  cases (Call.build calls).value.extended <;> exact ⟨rfl, rfl⟩

/-- What the tree of a literal means to the engine of its pattern. -/
def Built.meaning (p : Built) (row : Branch) : Meaning :=
  (Branch.lower p.engine p.scope 0 row).node.meaning

/-- The first occurrence of a pattern is the leftmost way of the tree of its literal. -/
theorem Built.first?_meaning (p : Built) (row : Branch) (t : Text) :
    (p.meaning row).first? t 0 =
      (Ways.leftmost t.length ((Branch.lower p.engine p.scope 0 row).node.ways t.toArray)).map
        fun m => m.2.occurrence m.1 :=
  Node.first?_meaning _ t 0

namespace FollowsDialect

variable {compile : Expression → Except CompileError Regex} (hd : FollowsDialect compile)

include hd

/-- What compiles is admitted. -/
theorem exists_readFor {e : Expression} {r : Regex} (hr : compile e = .ok r) :
    ∃ bs, readFor e.engine e.text = .ok bs ∧ r.groups = (Matcher.ofBranches e bs).groups ∧
      r.Obeys (Matcher.ofBranches e bs).node.meaning := by
  cases hread : readFor e.engine e.text with
  | ok bs =>
    obtain ⟨r', hr', hlaws⟩ := hd.admits hread
    obtain rfl := Except.ok.inj (hr.symm.trans hr')
    exact ⟨bs, rfl, hlaws⟩
  | error f => cases hr.symm.trans (hd.refuses hread)

/-- The regex of a pattern obeys the meaning of the tree of its literal. -/
theorem obeys_build {calls : List Call} {row : Branch}
    (hrow : Spells (Call.build calls).value.literal [row]) {r : Regex}
    (hr : compile (Call.build calls).value.expression = .ok r) :
    r.Obeys ((Call.build calls).value.meaning row) := by
  obtain ⟨bs, hbs, -, hobeys⟩ := hd.exists_readFor hr
  obtain rfl := Built.eq_of_readFor hrow hbs
  rw [(Call.ofBranches_eq calls _).2] at hobeys
  rwa [Built.meaning, ← Node.meaning_congr fun t => Built.ways_expressionRow _ t.toArray _ 0 row]

end FollowsDialect

theorem Built.map_regex_compile {p : Built} {c : Compiled} (hc : p.compile.value = .ok c) :
    p.expression.compile.map Matcher.regex = .ok c.pattern.regex := by
  obtain ⟨bs, hbs, rfl⟩ := compile_eq_ok_iff.1 hc
  have hread : readFor p.expression.engine p.expression.text = .ok bs := hbs
  rw [Expression.compile, hread]
  rfl

/-- The engines of the matchers are such engines. -/
theorem Call.obeys_regex {calls : List Call} {row : Branch}
    (hrow : Spells (Call.build calls).value.literal [row]) {c : Compiled}
    (hc : (Call.build calls).value.compile.value = .ok c) :
    c.pattern.regex.Obeys ((Call.build calls).value.meaning row) :=
  Expression.followsDialect.obeys_build hrow (Built.map_regex_compile hc)

/-! ## What compiles -/

/-- What is said of a success, from one that is evaluated. -/
theorem Except.exists_of_toOption {ε α β : Type} {e : Except ε α} {f : α → β} {b : β}
    (h : e.toOption.map f = some b) : ∃ a, e = .ok a ∧ f a = b := by
  cases e with
  | ok a => exact ⟨a, rfl, Option.some.inj h⟩
  | error _ => cases h

theorem Except.exists_of_isSome {ε α : Type} {e : Except ε α} (h : e.toOption.isSome = true) :
    ∃ a, e = .ok a := by
  cases e with
  | ok a => exact ⟨a, rfl⟩
  | error _ => cases h

/-- What is said of a pattern that compiles, from one that is evaluated. -/
theorem Built.exists_compiled {p : Built} {α : Type} {f : Compiled → α} {a : α}
    (h : p.compile.value.toOption.map f = some a) : ∃ c, p.compile.value = .ok c ∧ f c = a :=
  Except.exists_of_toOption h

/-- A pattern that compiles and answers matches if the one that it compiles to does. -/
theorem Built.eq_true_iff_exists_compiled {p : Built} {c : Compiled} {t : Text} {a : Bool}
    (hc : p.compile.value = .ok c) (ha : c.isMatch t = .ok a) :
    a = true ↔ ∃ d, p.compile.value = .ok d ∧ d.isMatch t = .ok true := by
  refine ⟨fun htrue => ⟨c, hc, htrue ▸ ha⟩, fun ⟨d, hd, hb⟩ => ?_⟩
  obtain rfl : c = d := Except.ok.inj (hc.symm.trans hd)
  exact Except.ok.inj (ha.symm.trans hb)

/-! ## Results that count -/

theorem collect_map_ok {ε α : Type} (as : List α) :
    collect (as.map (Except.ok (ε := ε))) = .ok as := by
  induction as with
  | nil => rfl
  | cons a as ih => rw [List.map_cons, collect, ih]

theorem collect_eq_ok {ε α : Type} {results : List (Except ε α)} {as : List α}
    (h : collect results = .ok as) : results = as.map .ok := by
  induction results generalizing as with
  | nil => rw [← Except.ok.inj h, List.map_nil]
  | cons r results ih =>
    cases r with
    | error e => cases h
    | ok a =>
      rw [collect] at h
      split at h
      · rename_i rest hrest
        rw [← Except.ok.inj h, List.map_cons, ih hrest]
      · cases h

theorem Matcher.mem_of_mem_limited {α : Type} {limit : Nat} {results : List α} {a : α}
    (h : a ∈ limited limit results) : a ∈ results := by
  unfold limited at h
  split at h
  · exact h
  · exact List.mem_of_mem_take h

theorem Matcher.limited_map {α β : Type} (f : α → β) (limit : Nat) (results : List α) :
    limited limit (results.map f) = (limited limit results).map f := by
  unfold limited
  split
  · rfl
  · exact List.map_take.symm

/-- If no search fails, the matches that count are the results that count. -/
theorem Pattern.limited_of_findAll {p : Pattern} {t : Text} {xs : List Match}
    (h : p.findAll t = .ok xs) :
    Matcher.limited p.limit (p.regex.findEach t) = xs.map .ok :=
  collect_eq_ok (Except.eq_ok_of_mapError h)

/-! ## Queries -/

theorem Except.exists_eq_ok {α : Type} (e : Except Empty α) : ∃ a, e = .ok a := by
  cases e with
  | ok a => exact ⟨a, rfl⟩
  | error e => exact e.elim

theorem List.exists_map_ok {α : Type} (results : List (Except Empty α)) :
    ∃ as : List α, results = as.map .ok := by
  induction results with
  | nil => exact ⟨[], rfl⟩
  | cons r results ih =>
    obtain ⟨a, rfl⟩ := Except.exists_eq_ok r
    obtain ⟨as, rfl⟩ := ih
    exact ⟨a :: as, rfl⟩

/-- The basic engine answers every query, but for groups that the pattern does not have. -/
theorem Pattern.exists_answers {p : Pattern} {s : Searches Empty} (hs : p.regex = .basic s)
    (t : Text) :
    (∃ b, p.isMatch t = .ok b) ∧ (∃ x, p.find t = .ok x) ∧ (∃ xs, p.findAll t = .ok xs) ∧
      ∀ n, n < p.regex.groups → ∃ x, p.group t n = .ok x := by
  obtain ⟨r, flags⟩ := p
  obtain rfl : r = .basic s := hs
  obtain ⟨b, hb⟩ := Except.exists_eq_ok (s.isMatch t)
  obtain ⟨x, hx⟩ := Except.exists_eq_ok (s.find t)
  obtain ⟨ss, hss⟩ := List.exists_map_ok (s.findIter t)
  obtain ⟨g, hg⟩ := Except.exists_eq_ok (s.captures t)
  refine ⟨⟨b, ?_⟩, ⟨x.map (.ofSpan t), ?_⟩, ?_, fun n hn => ⟨(g.bind (· n)).map (.ofSpan t), ?_⟩⟩
  · show ((s.isMatch t).mapError Empty.elim).mapError QueryError.exhausted = _
    rw [hb]
    rfl
  · show (((s.find t).mapError Empty.elim).map _).mapError QueryError.exhausted = _
    rw [hx]
    rfl
  · have heach : (Regex.basic s).findEach t = (ss.map (Match.ofSpan t)).map .ok := by
      show ((s.findIter t).map _).map _ = _
      rw [hss, List.map_map, List.map_map, List.map_map]
      rfl
    rw [findAll, heach, Matcher.limited_map, collect_map_ok]
    exact ⟨_, rfl⟩
  · rw [group, if_neg (Nat.not_le_of_lt hn)]
    show (((s.captures t).mapError Empty.elim).map _).mapError QueryError.exhausted = _
    rw [hg]
    rfl

namespace Pattern

variable {p : Pattern} {μ : Meaning} (hp : p.regex.Obeys μ) {t : Text}

include hp

/-- Whether there is a match is whether there is an occurrence. -/
theorem isMatch_eq {b : Bool} (h : p.isMatch t = .ok b) : b = (μ.first? t 0).isSome :=
  hp.searches.isMatch_eq (Except.eq_ok_of_mapError h)

/-- The match is the first occurrence. -/
theorem find_eq {x : Option Match} (h : p.find t = .ok x) :
    x = (μ.first? t 0).map fun o => .ofSpan t o.whole := by
  obtain ⟨s, hs, rfl⟩ := Except.exists_of_map (Except.eq_ok_of_mapError h)
  rw [hp.searches.find_eq hs, Option.map_map]
  rfl

/-- What a group has matched is what it has matched in the first occurrence. -/
theorem group_eq {n : Nat} {x : Option Match} (h : p.group t n = .ok x) :
    x = ((μ.first? t 0).bind fun o => o.group? n).map (.ofSpan t) := by
  unfold group at h
  split at h
  · cases h
  · obtain ⟨g, hg, rfl⟩ := Except.exists_of_map (Except.eq_ok_of_mapError h)
    rw [hp.searches.captures_eq hg, Option.bind_map]
    rfl

end Pattern

section

variable {calls : List Call} {row : Branch} (hrow : Spells (Call.build calls).value.literal [row])
  {c : Compiled} (hc : (Call.build calls).value.compile.value = .ok c) {t : Text}

include hrow hc

/-- The basic engine never gives up. -/
theorem Call.exists_isMatch (he : (Call.build calls).value.extended = false) :
    ∃ a, c.isMatch t = .ok a := by
  have hbasic : c.matcher.backtracks = false := by
    rw [Built.compile_eq_ok hrow hc]
    exact (Call.ofBranches_eq calls _).1.trans he
  exact (Pattern.exists_answers (Matcher.regex_of_not_backtracks hbasic) t).1

/-- Whether there is a match is whether there is a leftmost way. -/
theorem Call.isMatch_eq {x : Bool} (hx : c.isMatch t = .ok x) :
    x = (Ways.leftmost t.length ((Branch.lower (Call.build calls).value.engine
      (Call.build calls).value.scope 0 row).node.ways t.toArray)).isSome := by
  rw [Pattern.isMatch_eq (Call.obeys_regex hrow hc) hx, Built.first?_meaning, Option.isSome_map]

/-- The match is where the leftmost way goes. -/
theorem Call.find_eq {x : Option Match} (hx : c.find t = .ok x) :
    x = (Ways.leftmost t.length ((Branch.lower (Call.build calls).value.engine
      (Call.build calls).value.scope 0 row).node.ways t.toArray)).map
        fun m => .ofSpan t ⟨m.1, m.2.stop⟩ := by
  rw [Pattern.find_eq (Call.obeys_regex hrow hc) hx, Built.first?_meaning, Option.map_map]
  rfl

/-- What a group has matched is what it passed on the leftmost way. -/
theorem Call.group_eq {n : Nat} (hn : n ≠ 0) {x : Option Match} (hx : c.group t n = .ok x) :
    x = (Ways.leftmost t.length ((Branch.lower (Call.build calls).value.engine
      (Call.build calls).value.scope 0 row).node.ways t.toArray)).bind
        fun m => (m.2.record.span? n).map fun s => .ofSpan t ⟨s.1, s.2⟩ := by
  rw [Pattern.group_eq (Call.obeys_regex hrow hc) hx, Built.first?_meaning, Option.bind_map,
    Option.map_bind]
  refine congrArg (Option.bind _) (funext fun m => ?_)
  rw [Function.comp_apply, Function.comp_apply, Occurrence.group?, if_neg hn, Way.occurrence,
    Option.map_map]
  rfl

end

/-! ## Each match -/

/-- Whether a match is the leftmost one of a text, or one of those that count. -/
def Compiled.Finds (c : Compiled) (t : Text) (x : Match) : Prop :=
  c.find t = .ok (some x) ∨ ∃ xs, c.findAll t = .ok xs ∧ x ∈ xs

/-- Every match is the first occurrence from some position on. -/
theorem Compiled.Finds.exists_isFirst {c : Compiled} {μ : Meaning}
    (hc : c.pattern.regex.Obeys μ) {t : Text} {x : Match} (hx : c.Finds t x) :
    ∃ start o, μ.IsFirst t start o ∧ x = .ofSpan t o.whole := by
  rcases hx with hx | ⟨xs, hxs, hx⟩
  · obtain ⟨o, ho, rfl⟩ := Option.map_eq_some_iff.1 (Pattern.find_eq hc hx).symm
    exact ⟨0, o, Meaning.first?_eq_some_iff.1 ho, rfl⟩
  · have hmem : .ok x ∈ Matcher.limited c.pattern.limit (c.pattern.regex.findEach t) := by
      rw [Pattern.limited_of_findAll hxs]
      exact List.mem_map_of_mem hx
    obtain ⟨s, hs, hmap⟩ := List.mem_map.1 (Matcher.mem_of_mem_limited hmem)
    obtain ⟨s, rfl, rfl⟩ := Except.exists_of_map hmap
    obtain ⟨start, o, ho, rfl⟩ := (hc.searches.findIter t).exists_isFirst_of_mem hs
    exact ⟨start, o, ho, rfl⟩

/-- Every match goes where the first way of the tree of the literal goes from its start. -/
theorem Call.exists_way_of_finds {calls : List Call} {row : Branch}
    (hrow : Spells (Call.build calls).value.literal [row]) {c : Compiled}
    (hc : (Call.build calls).value.compile.value = .ok c) {t : Text} {x : Match}
    (hx : c.Finds t x) :
    ∃ p v, p ≤ t.length ∧
      ((Branch.lower (Call.build calls).value.engine (Call.build calls).value.scope 0
        row).node.ways t.toArray p .empty).head? = some v ∧ x = .ofSpan t ⟨p, v.stop⟩ := by
  obtain ⟨start, o, ⟨p, -, hle, ho, -⟩, rfl⟩ := hx.exists_isFirst (Call.obeys_regex hrow hc)
  rw [Built.meaning, Node.meaning, List.head?_map] at ho
  obtain ⟨v, hv, rfl⟩ := Option.map_eq_some_iff.1 ho
  exact ⟨p, v, hle, hv, rfl⟩

end FluentPattern
