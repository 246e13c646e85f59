import FluentPattern.Proofs.Alternation

/-!
# Alternatives in a row

`either` holds its operand back, the first `or` writes a group of both, and every further `or`
finds this group as the last segment and adds to it. So a chain of any length is one group
behind all that the builder would write now, and each alternative is numbered behind the groups
of those before it. Where a content is in progress instead, `or` finishes it and adds to its
segment, and a held alternative is written alone in front of it.

Main statements: `Choice.alternatives_eq_mapIdx`, `Builder.value_ors` (further alternatives),
`Call.value_chain`.
-/

namespace FluentPattern

/-- The calls for at least two alternatives. -/
def Call.chain (x y : Choice) (ys : List Choice) : List Call :=
  x.call .either :: (y :: ys).map (·.call .or)

/-- Each alternative stands behind the groups of those before it. -/
theorem Choice.alternatives_eq_mapIdx : ∀ (groups : Nat) (xs : List Choice),
    alternatives groups xs = xs.mapIdx fun k x =>
      (x.built.embedded (groups + ((xs.take k).map (·.built.groups)).sum)).wrapped
  | _, [] => rfl
  | groups, x :: xs => by
    rw [alternatives, alternatives_eq_mapIdx, List.mapIdx_cons]
    simp only [List.take_zero, List.map_nil, List.sum_nil, Nat.add_zero, List.take_succ_cons,
      List.map_cons, List.sum_cons, Nat.add_assoc]

theorem addAlternative_concat (ss : List Segment) (s : Segment) (t : Text) :
    addAlternative (ss ++ [s]) t = ss ++ [s.push t] := by
  simp only [addAlternative, List.getLast?_append, List.getLast?_singleton, Option.some_or,
    List.dropLast_concat]

namespace Builder

theorem value_or_choice (b : Builder) (x : Choice) :
    ((x.call .or).apply b).value =
      { b with segments := addAlternative b.written (x.built.embedded b.keptGroups).wrapped,
               held := none,
               groups := b.keptGroups + x.built.groups,
               pending := {},
               extended := b.extended || x.built.extended } :=
  (x.value_apply_call .or b).trans (value_or_pattern b _)

/-- With nothing in progress, an alternative joins the last segment. -/
theorem value_or_last (ss : List Segment) (o : Opening) (as : List Text) (groups : Nat)
    (flags : Flags) (extended : Bool) (x : Choice) :
    ((x.call .or).apply ⟨ss ++ [⟨o, as⟩], groups, flags, {}, none, extended⟩).value =
      ⟨ss ++ [⟨o, as ++ [(x.built.embedded groups).wrapped]⟩], groups + x.built.groups, flags, {},
        none, extended || x.built.extended⟩ := by
  rw [value_or_choice, written_of_idle rfl rfl, addAlternative_concat]
  rfl

/-- So do further alternatives, by induction on them. -/
theorem value_ors (ss : List Segment) (o : Opening) (flags : Flags) :
    ∀ (xs : List Choice) (as : List Text) (groups : Nat) (extended : Bool),
      (Call.applyAll ⟨ss ++ [⟨o, as⟩], groups, flags, {}, none, extended⟩
          (xs.map (·.call .or))).value =
        ⟨ss ++ [⟨o, as ++ Choice.alternatives groups xs⟩],
          groups + (xs.map (·.built.groups)).sum, flags, {}, none,
          extended || xs.any (·.built.extended)⟩
  | [], as, groups, extended => by
    simp [Choice.alternatives, Call.applyAll]
  | x :: xs, as, groups, extended => by
    rw [List.map_cons, Call.applyAll, Logged.value_bind, value_or_last, value_ors]
    simp only [Choice.alternatives, List.map_cons, List.sum_cons, List.any_cons, List.append_assoc,
      List.singleton_append, Nat.add_assoc, Bool.or_assoc]

/-- The first two alternatives make a group. What is left of the fragment in progress has no
content there, so it is dropped. -/
theorem value_either_or (b : Builder) (x y : Choice) :
    ((y.call .or).apply ((x.call .either).apply b).value).value =
      ⟨b.written ++ [⟨.group, Choice.alternatives b.keptGroups [x, y]⟩],
        b.keptGroups + x.built.groups + y.built.groups, b.flags, {}, none,
        b.extended || x.built.extended || y.built.extended⟩ := by
  have heither : ((x.call .either).apply b).value = _ :=
    (x.value_apply_call .either b).trans (value_either b _)
  rw [value_or_choice, heither]
  simp only [written, heldSegments, keptGroups, capturesNothing, Fragment.segment?_eq,
    content_keptFragment, capture_keptFragment, Option.map_some, Option.map_none,
    Option.toList_some, Option.toList_none, List.append_nil, Bool.false_and]
  rw [addAlternative_concat]
  rfl

/-- Where a content is in progress, an alternative joins its segment. -/
theorem value_or_of_segment? {b : Builder} {s : Segment} (hs : b.pending.segment? = some s)
    (x : Choice) :
    ((x.call .or).apply b).value =
      { b with segments :=
                 b.releaseHeld.value.segments ++ [s.push (x.built.embedded b.groups).wrapped],
               held := none,
               groups := b.groups + x.built.groups,
               pending := {},
               extended := b.extended || x.built.extended } := by
  have hcontent : b.pending.hasContent = true := by
    rw [Fragment.segment?_eq, Option.map_eq_some_iff] at hs
    obtain ⟨c, hc, -⟩ := hs
    rw [Fragment.hasContent, hc]
    rfl
  have hkept : b.keptGroups = b.groups := by
    rw [keptGroups, capturesNothing, hcontent, Bool.not_true, Bool.and_false,
      if_neg Bool.false_ne_true]
  rw [value_or_choice, written, hs, Option.toList_some, addAlternative_concat, hkept,
    value_releaseHeld]

end Builder

namespace Call

/-- A chain of alternatives on any builder writes all that is in progress, and then one group
with the alternatives in their order, each of them renumbered by the groups in front of it: those
that the builder keeps, and those of the alternatives before. Nothing is in progress behind it,
and the pattern needs the extended engine if it did before or an alternative does. An alternative
where a content is in progress joins the segment of this content only, behind a held alternative
that is written alone. -/
theorem value_chain (b : Builder) (x y : Choice) (ys : List Choice) :
    (applyAll b (chain x y ys)).value =
      { b with segments := b.flush.value.segments ++
                 [⟨.group, (x :: y :: ys).mapIdx fun k z => (z.built.embedded (b.keptGroups +
                   (((x :: y :: ys).take k).map (·.built.groups)).sum)).wrapped⟩],
               groups := b.keptGroups + ((x :: y :: ys).map (·.built.groups)).sum,
               pending := {},
               held := none,
               extended := b.extended || (x :: y :: ys).any (·.built.extended) } ∧
    ∀ s, b.pending.segment? = some s →
      ((y.call .or).apply b).value =
        { b with segments :=
                   b.releaseHeld.value.segments ++ [s.push (y.built.embedded b.groups).wrapped],
                 groups := b.groups + y.built.groups,
                 pending := {},
                 held := none,
                 extended := b.extended || y.built.extended } := by
  refine ⟨?_, fun s hs => Builder.value_or_of_segment? hs y⟩
  have hchain : (applyAll b (chain x y ys)).value = (applyAll
      ((y.call .or).apply ((x.call .either).apply b).value).value (ys.map (·.call .or))).value :=
    rfl
  rw [hchain, Builder.value_either_or, Builder.value_ors, ← Choice.alternatives_eq_mapIdx,
    Builder.value_flush]
  simp only [Choice.alternatives, List.map_cons, List.sum_cons, List.any_cons, Nat.add_assoc,
    Bool.or_assoc, List.cons_append, List.nil_append]

/-- A captured text in progress behind a held alternative with a group, and an alternative that
names its own group. -/
theorem value_chain_pending :
    let b := builder [.patternOperand .either [.word .captured, .word .anyChar],
      .text .text ['a'], .word .captured]
    let y : Choice := .pattern [.word .captured, .word .anyChar, .count .exactly 1,
      .count .groupAgain 1]
    b.pending.segment? = some (.capture "(?:a)".toList) ∧
      ((y.call .or).apply b).value.segments =
        [.group "(?:((?:.)))".toList,
          ⟨.capture, ["(?:a)".toList, "(?:((?:.))(?:(?:\\3)\x7b1,1\x7d))".toList]⟩] := by
  intro b y
  have hs : b.pending.segment? = some (.capture "(?:a)".toList) := by decide +kernel
  have hor := congrArg Builder.segments ((value_chain b y y []).2 _ hs)
  exact ⟨hs, hor.trans (by decide +kernel)⟩

end Call

end FluentPattern
