import FluentPattern.Proofs.Matching.Laws
import FluentPattern.Proofs.Matching.Passes
import FluentPattern.Proofs.Matching.Sound

/-!
# Engines that obey the laws

The meaning of a node are its ways. What is found by tables and what is found by backtracking are
both first occurrences, so the searches of a matcher obey the laws, and the two engines follow the
dialect that they read: this is what the results on compiled patterns use of them.

Main statements: `iterates_allMatches`, `Searches.obeys_ofFind`, `Matcher.obeys`,
`Matcher.iterates_spans`, `Expression.followsDialect`.
-/

namespace FluentPattern

/-! ## The meaning of a node -/

/-- A way from a position as an occurrence. -/
def Way.occurrence (start : Nat) (v : Way) : Occurrence :=
  ⟨⟨start, v.stop⟩, fun n => (v.record.span? n).map fun (start, stop) => ⟨start, stop⟩⟩

theorem Way.isWithin_occurrence {start size : Nat} {v : Way} (hv : start ≤ v.stop ∧ v.stop ≤ size)
    (hrecord : v.record.IsWithin size) : (v.occurrence start).IsWithin start size where
  start_le := Nat.le_refl start
  bounds h := by
    unfold Occurrence.group? at h
    split at h
    · exact Option.some.inj h ▸ hv
    · obtain ⟨s, hs, rfl⟩ := Option.map_eq_some_iff.1 h
      exact hrecord.bounds_of_span? hs

/-- What a node means: its ways from each position if nothing was passed before, wherever the search
starts. -/
def Node.meaning (n : Node) : Meaning where
  occurrences t _ p := (n.ways t.toArray p .empty).map (Way.occurrence p)
  within := by
    intro t start p o hstart hp ho
    obtain ⟨v, hv, rfl⟩ := List.mem_map.1 ho
    have hbounds := n.isBounded_ways t.toArray p hp .empty v hv
    have hpasses := n.passesWithin_ways t.toArray p hp .empty .empty v hv
    have hwithin := Way.isWithin_occurrence hbounds hpasses.2
    exact ⟨hstart, hwithin.bounds⟩

/-- The first occurrence is the most preferred way from the first position that has one. -/
theorem Node.first?_meaning (n : Node) (t : Text) (start : Nat) :
    n.meaning.first? t start =
      (firstFrom (n.ways t.toArray).best start (t.length + 1 - start)).map
        fun m => m.2.occurrence m.1 := by
  rw [Meaning.first?, map_firstFrom]
  refine firstFrom_congr fun p _ _ => ?_
  rw [meaning, List.head?_map, Ways.best, Option.map_map]
  rfl

/-- Nodes with the same ways mean the same. -/
theorem Node.meaning_congr {n n' : Node} (h : ∀ t : Text, n.ways t.toArray = n'.ways t.toArray) :
    n.meaning = n'.meaning := by
  ext1
  funext t _ p
  exact congrArg (fun w => (w p Record.empty).map (Way.occurrence p)) (h t)

/-! ## Searching for the first occurrence -/

/-- What is found as an occurrence. -/
def Found.occurrence (f : Found) : Occurrence :=
  f.view.2.occurrence f.start

section

variable {ε : Type} {μ : Meaning} {t : Text} {find : Nat → Except ε (Option Found)}
  (hfind : ∀ {start r}, find start = .ok r → r.map Found.occurrence = μ.first? t start)

include hfind

theorem isAbsent_of_find {α : Type} {g : Found → α}
    (h : ((find 0).map fun r => r.map g) = .ok none) : μ.IsAbsent t 0 := by
  obtain ⟨r, hr, hnone⟩ := Except.exists_of_map h
  obtain rfl := Option.map_eq_none_iff.1 hnone.symm
  exact Meaning.first?_eq_none_iff.1 (hfind hr).symm

theorem exists_isFirst_of_find {α : Type} {g : Found → α} {a : α}
    (h : ((find 0).map fun r => r.map g) = .ok (some a)) :
    ∃ f : Found, μ.IsFirst t 0 f.occurrence ∧ a = g f := by
  obtain ⟨r, hr, hsome⟩ := Except.exists_of_map h
  obtain ⟨f, rfl, rfl⟩ := Option.map_eq_some_iff.1 hsome.symm
  exact ⟨f, Meaning.first?_eq_some_iff.1 (hfind hr).symm, rfl⟩

/-- Each search starts behind the one before, so the search for all matches runs to its end if
there is fuel for the positions that are left. -/
theorem iterates_allMatches {fuel start : Nat} (hfuel : t.length < start + fuel)
    (previous : Option Nat) :
    Iterates μ t start previous (allMatches find t.length fuel start previous) := by
  have hbeyond {start : Nat} (h : t.length < start) : μ.IsAbsent t start :=
    fun p hp hle => by omega
  induction fuel generalizing start previous with
  | zero => exact .ended (hbeyond hfuel)
  | succ fuel ih =>
    rw [allMatches]
    split
    · exact .ended (hbeyond ‹_›)
    · split
      · exact .failed (by omega)
      · rename_i hnone
        exact .ended (Meaning.first?_eq_none_iff.1 (hfind hnone).symm)
      · rename_i f hf
        have ho : μ.IsFirst t start f.occurrence :=
          Meaning.first?_eq_some_iff.1 (hfind hf).symm
        have hbounds : start ≤ f.start ∧ f.start ≤ f.stop ∧ f.stop ≤ t.length := ho.bounds
        have further (p : Nat) (hp : start < p) (previous : Option Nat) :
            Iterates μ t p previous (allMatches find t.length fuel p previous) :=
          ih (by omega) previous
        split
        · split
          · exact .skipped ho ‹_› ‹_› (further (f.stop + 1) (by omega) previous)
          · exact .empty ho ‹_› ‹_› (further (f.stop + 1) (by omega) _)
        · exact .matched ho ‹_› (further f.stop (by omega) _)

end

/-- The searches by a way to find the first occurrence obey the laws. -/
theorem Searches.obeys_ofFind {ε σ : Type} {μ : Meaning} {set : Text → σ}
    {find : σ → Nat → Except ε (Option Found)}
    (hfind : ∀ {t start r}, find (set t) start = .ok r →
      r.map Found.occurrence = μ.first? t start) (groups : Nat) :
    (Searches.ofFind groups set find).Obeys μ where
  isMatch h := by
    obtain ⟨r, hr, rfl⟩ := Except.exists_of_map h
    rw [← Meaning.isSome_first?_iff, ← hfind hr, Option.isSome_map]
  find_none h := isAbsent_of_find hfind h
  find_some h := by
    obtain ⟨f, hf, hx⟩ := exists_isFirst_of_find hfind h
    exact ⟨f.occurrence, hf, hx⟩
  findIter t := iterates_allMatches hfind (by omega) none
  captures_none h := isAbsent_of_find hfind h
  captures_some h := by
    obtain ⟨f, hf, rfl⟩ := exists_isFirst_of_find hfind h
    exact ⟨f.occurrence, hf, fun _ => rfl⟩

/-! ## Matchers -/

/-- What is found as the leftmost way is the first occurrence. -/
theorem Node.first?_of_view {n : Node} {t : Text} {start : Nat} {r : Option Found}
    (h : r.map Found.view = firstFrom (n.ways t.toArray).best start (t.length + 1 - start)) :
    r.map Found.occurrence = n.meaning.first? t start := by
  rw [n.first?_meaning, ← h, Option.map_map]
  rfl

/-- The searches of a sound matcher obey the laws. -/
theorem Matcher.obeys {m : Matcher} (hm : m.IsSound) : m.regex.Obeys m.node.meaning := by
  unfold regex
  split
  · refine Searches.obeys_ofFind (fun {t start r} hr => Node.first?_of_view ?_) m.groups
    have hview := Node.view_find hr
    rwa [List.size_toArray] at hview
  · rename_i hb
    refine Searches.obeys_ofFind (fun {t start r} hr => Node.first?_of_view ?_) m.groups
    obtain rfl := Except.ok.inj hr
    have hview := Node.view_find? (hm.resolve_left hb) t.toArray start
    rwa [List.size_toArray] at hview

/-- The search for all matches of a text runs to its end. -/
theorem Matcher.iterates_spans {m : Matcher} (hm : m.IsSound) (t : Text) :
    Iterates m.node.meaning t 0 none (m.spans t) :=
  (Matcher.obeys hm).searches.findIter t

/-- The node with a node that never matches in place of each backreference. -/
def Node.unreferring : Node → Node
  | seq first second => seq first.unreferring second.unreferring
  | alt first second => alt first.unreferring second.unreferring
  | capture group body => capture group body.unreferring
  | look negated body => look negated body.unreferring
  | groupAgain _ => look true empty
  | times least further greedy body => times least further greedy body.unreferring
  | n => n

theorem Node.references_unreferring (n : Node) : n.unreferring.references = [] := by
  induction n with
  | seq first second hf hs => exact List.append_eq_nil_iff.2 ⟨hf, hs⟩
  | alt first second hf hs => exact List.append_eq_nil_iff.2 ⟨hf, hs⟩
  | capture group body hb => exact hb
  | look negated body hb => exact hb
  | times least further greedy body hb => exact hb
  | _ => rfl

theorem Table.look_true_unit (size : Nat) : look size true (unit size) = none size := by
  refine congrArg (fun f => Table.mk (Array.ofFn f)) (funext fun p => ?_)
  have hrow : (unit size).row p = [⟨p, []⟩] := row_ofFn _ (Nat.le_of_lt_succ p.isLt)
  simp only [hrow]

/-- A backreference has no row, and neither has a node that never matches. -/
theorem Node.table_unreferring (h : Haystack) (n : Node) :
    n.unreferring.table h = n.table h := by
  induction n with
  | groupAgain group => exact Table.look_true_unit h.size
  | seq first second hf hs => rw [unreferring, table, table, hf, hs]
  | alt first second hf hs => rw [unreferring, table, table, hf, hs]
  | capture group body hb => rw [unreferring, table, table, hb]
  | look negated body hb => rw [unreferring, table, table, hb]
  | times least further greedy body hb => rw [unreferring, table, table, hb]
  | _ => rfl

/-- Every matcher obeys the laws for some meaning: one that is matched by tables means what is left
of its node without backreferences. -/
theorem Matcher.exists_obeys (m : Matcher) : ∃ μ, m.regex.Obeys μ := by
  cases hb : m.backtracks with
  | true => exact ⟨_, Matcher.obeys (.inl hb)⟩
  | false =>
    let n : Matcher := { m with node := m.node.unreferring }
    have hregex : n.regex = m.regex := by
      unfold regex
      simp only [n, hb, Node.table_unreferring]
      rfl
    exact ⟨_, hregex ▸ Matcher.obeys (m := n) (.inr m.node.references_unreferring)⟩

/-! ## The dialect -/

/-- The laws of the engines that compile the expressions of the dialect. -/
structure FollowsDialect (compile : Expression → Except CompileError Regex) : Prop where
  /-- An expression that its engine does not admit is refused for the fault in it. -/
  refuses {e : Expression} {f : Fault} :
    readFor e.engine e.text = .error f → compile e = .error ⟨e.engine, f⟩
  /-- An expression that its engine admits compiles. Its regex knows the groups of the tree that is
  read, and obeys the meaning of the tree. -/
  admits {e : Expression} {bs : Branches} :
    readFor e.engine e.text = .ok bs →
      ∃ r, compile e = .ok r ∧ r.groups = (Matcher.ofBranches e bs).groups ∧
        r.Obeys (Matcher.ofBranches e bs).node.meaning

/-- The engines of the matchers follow the dialect. -/
theorem Expression.followsDialect :
    FollowsDialect fun e => e.compile.map Matcher.regex where
  refuses h := by
    rw [compile, h]
    rfl
  admits {e bs} h := by
    refine ⟨(Matcher.ofBranches e bs).regex, ?_, Matcher.groups_regex _,
      Matcher.obeys (Matcher.isSound_ofBranches h)⟩
    rw [compile, h]
    rfl

end FluentPattern
