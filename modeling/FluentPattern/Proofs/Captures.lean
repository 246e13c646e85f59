import FluentPattern.Proofs.GroupCount
import FluentPattern.Proofs.Matching.Answers
import Mathlib.Data.List.DropRight

/-!
# Groups of compiled patterns

The extended engine knows every group that a built pattern has counted. The basic engine
drops a piece that is repeated no time, and the groups in it. The others keep their numbers,
so it knows all groups up to the last one that is kept. A query for a group that the engine
does not know is refused, whatever the text, and no other query for a group is.

Main statements: `Branches.topGroup_lower` (the last group that is kept),
`Call.group_eq_noSuchGroup_iff`.
-/

namespace FluentPattern

/-! ## Groups that are kept -/

mutual

/-- For each capturing group of a piece, in their order, whether it stands outside of all
pieces that are repeated no time. -/
def Piece.kept : Piece → List Bool
  | .atom _ | .flags _ => []
  | .group .capture branches => true :: Branches.kept branches
  | .group _ branches => Branches.kept branches
  | .repeated q p => if q.most = some 0 then p.kept.map fun _ => false else p.kept

/-- For each capturing group of pieces one after the other, whether it is kept. -/
def Branch.kept : Branch → List Bool
  | [] => []
  | p :: pieces => p.kept ++ Branch.kept pieces

/-- For each capturing group of branches, whether it is kept. -/
def Branches.kept : Branches → List Bool
  | [] => []
  | b :: branches => Branch.kept b ++ Branches.kept branches

end

mutual

theorem Piece.length_kept : ∀ p : Piece, p.kept.length = p.tokens.countP Token.isCapture
  | .atom a => by cases a <;> rfl
  | .flags fs => rfl
  | .group k bs => by
    have hbody := Branches.length_kept bs
    cases k <;> simp [Piece.kept, Piece.tokens, Token.isCapture, hbody, List.countP_cons,
      List.countP_append]
  | .repeated q p => by
    have hbody := p.length_kept
    rw [Piece.kept, Piece.tokens, List.countP_append, ← hbody]
    split <;> simp [Token.isCapture]

theorem Branch.length_kept : ∀ b : Branch, b.kept.length = b.tokens.countP Token.isCapture
  | [] => rfl
  | p :: b => by
    rw [Branch.kept, Branch.tokens, List.length_append, List.countP_append, p.length_kept,
      Branch.length_kept b]

/-- There is one entry for each capturing group. -/
theorem Branches.length_kept : ∀ bs : Branches,
    (Branches.kept bs).length = bs.tokens.countP Token.isCapture
  | [] => rfl
  | [b] => by
    rw [Branches.kept, Branches.kept, List.append_nil, Branches.tokens_singleton, b.length_kept]
  | b :: c :: bs => by
    rw [Branches.kept, Branches.tokens_cons (List.cons_ne_nil c bs), List.length_append,
      List.countP_append, b.length_kept, Branches.length_kept (c :: bs)]
    rfl

end

/-! ## The last group that is kept -/

/-- The number of the last group that is kept, numbered behind others; zero if none is. -/
def lastKept (groups : Nat) : List Bool → Nat
  | [] => 0
  | k :: ks => max (if k then groups + 1 else 0) (lastKept (groups + 1) ks)

theorem lastKept_append (groups : Nat) (ks ls : List Bool) :
    lastKept groups (ks ++ ls) = max (lastKept groups ks) (lastKept (groups + ks.length) ls) := by
  induction ks generalizing groups with
  | nil => exact (Nat.zero_max _).symm
  | cons k ks ih =>
    have hbehind : groups + 1 + ks.length = groups + (ks.length + 1) := by omega
    rw [List.cons_append, lastKept, ih, lastKept, max_assoc, List.length_cons, hbehind]

theorem lastKept_dropped (groups : Nat) (ks : List Bool) :
    lastKept groups (ks.map fun _ => false) = 0 := by
  induction ks generalizing groups with
  | nil => rfl
  | cons k ks ih => exact ih (groups + 1)

/-- Numbered from one, it is the number of groups without those at the end that are not
kept. -/
theorem lastKept_zero (ks : List Bool) : lastKept 0 ks = (ks.rdropWhile (!·)).length := by
  induction ks using List.reverseRecOn with
  | nil => rfl
  | append_singleton ks k ih =>
    have hle := (List.rdropWhile_prefix (!·) ks).length_le
    rw [lastKept_append, ih, List.rdropWhile_concat]
    cases k with
    | true => simp [lastKept]; omega
    | false => simp [lastKept]

/-- The last group is the last one that is kept if there is none that is not. -/
theorem length_rdropWhile_eq_iff (ks : List Bool) :
    (ks.rdropWhile (!·)).length = ks.length ↔ ks.getLast? ≠ some false := by
  rcases List.eq_nil_or_concat ks with rfl | ⟨ks, k, rfl⟩
  · simp
  · have hle := (List.rdropWhile_prefix (!·) ks).length_le
    rw [List.concat_eq_append, List.rdropWhile_concat, List.getLast?_concat]
    cases k with
    | true => simp
    | false => simp; omega

theorem Node.topGroup_repeatBasic (q : Quantity) (n : Node) :
    (repeatBasic q n).topGroup = if q.most = some 0 then 0 else n.topGroup := by
  unfold repeatBasic
  grind [topGroup]

mutual

theorem Piece.topGroup_lower : ∀ (p : Piece) (flags : Flags) (groups : Nat),
    (p.lower .basic flags groups).node.topGroup = lastKept groups p.kept
  | .atom a, flags, groups => by cases a <;> rfl
  | .flags fs, flags, groups => rfl
  | .group k bs, flags, groups => by
    have hbody := Branches.topGroup_lower bs (k.flagsInside flags)
      (groups + [Token.opening k].countP Token.isCapture)
    rw [Piece.lower_group]
    cases k with
    | capture => exact congrArg (max (groups + 1)) hbody
    | _ => exact hbody
  | .repeated q p, flags, groups => by
    have hbody := p.topGroup_lower flags groups
    rw [Piece.lower, Piece.kept]
    refine (Node.topGroup_repeatBasic q _).trans ?_
    rw [hbody]
    split
    · exact (lastKept_dropped groups p.kept).symm
    · rfl

theorem Branch.topGroup_lower : ∀ (b : Branch) (flags : Flags) (groups : Nat),
    (Branch.lower .basic flags groups b).node.topGroup = lastKept groups b.kept
  | [], flags, groups => rfl
  | p :: b, flags, groups => by
    have hfirst := p.topGroup_lower flags groups
    have hrest := Branch.topGroup_lower b (p.lower .basic flags groups).flags
      (p.lower .basic flags groups).groups
    have hgroups : (p.lower .basic flags groups).groups = groups + p.kept.length := by
      rw [(Piece.fits_lower .basic p flags groups).groups_eq, p.length_kept]
    rw [Branch.lower, Branch.kept, lastKept_append, ← hfirst, ← hgroups, ← hrest]
    rfl

/-- In the basic engine the last group of a lowered tree is the last one that is kept. -/
theorem Branches.topGroup_lower : ∀ (bs : Branches) (flags : Flags) (groups : Nat),
    (Branches.lower .basic flags groups bs).node.topGroup = lastKept groups (Branches.kept bs)
  | [], flags, groups => rfl
  | [b], flags, groups => by
    rw [Branches.lower_singleton, Branches.kept, Branches.kept, List.append_nil]
    exact b.topGroup_lower flags groups
  | b :: c :: bs, flags, groups => by
    have hfirst := b.topGroup_lower flags groups
    have hrest := Branches.topGroup_lower (c :: bs) (Branch.lower .basic flags groups b).flags
      (Branch.lower .basic flags groups b).groups
    have hgroups : (Branch.lower .basic flags groups b).groups = groups + b.kept.length := by
      rw [(Branch.fits_lower .basic b flags groups).groups_eq, b.length_kept]
    rw [Branches.lower_cons _ _ _ (List.cons_ne_nil c bs), Branches.kept, lastKept_append,
      ← hfirst, ← hgroups, ← hrest]
    rfl

end

/-! ## Compiled patterns -/

/-- A query for a group is refused if the matcher does not know the group, whatever the text,
and no other query for a group is. -/
theorem Compiled.group_eq_error_iff (c : Compiled) (t : Text) (n m k : Nat) :
    c.group t n = .error (.noSuchGroup m k) ↔ c.matcher.groups ≤ n ∧ m = n ∧
      k = c.matcher.groups := by
  rw [group, Pattern.group, pattern, Matcher.groups_regex]
  split
  · rename_i hle
    simp [hle, eq_comm]
  · rename_i hlt
    cases c.matcher.regex.group t n <;> simp [hlt, Except.mapError]

namespace Call

variable {calls : List Call} {row : Branch}

theorem length_kept_eq_groups (hrow : Spells (build calls).value.literal [row]) :
    row.kept.length = (build calls).value.groups := by
  have hopenings : openings (build calls).value.literal = (build calls).value.groups :=
    (isCounted_builder calls).openings_literal
  rw [row.length_kept, ← Branches.tokens_singleton, ← hrow.openings_eq, hopenings]

/-- With engines that follow the dialect, the extended one knows all groups, and the basic one
those up to the last one that is kept. -/
theorem groups_regex_of_followsDialect {compile : Expression → Except CompileError Regex}
    (hd : FollowsDialect compile) (hrow : Spells (build calls).value.literal [row]) {r : Regex}
    (hr : compile (build calls).value.expression = .ok r) :
    r.groups = (if (build calls).value.extended then (build calls).value.groups
      else (row.kept.rdropWhile (!·)).length) + 1 := by
  have hkept : Branch.kept ((build calls).value.expressionRow row) = row.kept := by
    unfold Built.expressionRow
    cases (build calls).value.flags.inline? <;> rfl
  have hcaptures := Branch.length_kept ((build calls).value.expressionRow row)
  rw [hkept, length_kept_eq_groups hrow] at hcaptures
  obtain ⟨bs, hbs, hgroups, -⟩ := hd.exists_readFor hr
  obtain rfl := Built.eq_of_readFor hrow hbs
  rw [hgroups]
  unfold Matcher.ofBranches
  rw [needsBacktracking_expression, Branches.lower_singleton, Branches.lower_singleton]
  cases (build calls).value.extended with
  | true =>
    show (Branch.lower .extended .empty 0 _).groups + 1 = _
    rw [(Branch.fits_lower _ _ _ _).groups_eq, ← hcaptures, Nat.zero_add]
    rfl
  | false =>
    show (Branch.lower .basic .empty 0 _).node.topGroup + 1 = _
    rw [Branch.topGroup_lower, hkept, lastKept_zero]
    rfl

theorem groups_matcher (hrow : Spells (build calls).value.literal [row]) {c : Compiled}
    (hc : (build calls).value.compile.value = .ok c) :
    c.matcher.groups = (if (build calls).value.extended then (build calls).value.groups
      else (row.kept.rdropWhile (!·)).length) + 1 :=
  c.matcher.groups_regex.symm.trans
    (groups_regex_of_followsDialect Expression.followsDialect hrow (Built.map_regex_compile hc))

/-- A compiled pattern knows the groups that were counted, and the whole match, unless the
basic engine drops the last of them with a piece that is repeated no time; then it knows the
groups up to the last one that it keeps. A query for a group is refused if the compiled
pattern does not know it, whatever the text, and no other query is. -/
theorem group_eq_noSuchGroup_iff (calls : List Call) :
    ∃ row, readPattern .grammar (build calls).value.literal = .ok [row] ∧
      row.kept.length = (build calls).value.groups ∧
        ∀ c, (build calls).value.compile.value = .ok c →
          c.matcher.groups = (if (build calls).value.extended then (build calls).value.groups
            else (row.kept.rdropWhile (!·)).length) + 1 ∧
          (c.matcher.groups = (build calls).value.groups + 1 ↔
            (build calls).value.extended = true ∨ row.kept.getLast? ≠ some false) ∧
          ∀ t n m k, c.group t n = .error (.noSuchGroup m k) ↔
            c.matcher.groups ≤ n ∧ m = n ∧ k = c.matcher.groups := by
  obtain ⟨row, hrow, hread, -⟩ := exists_readPattern_build calls
  refine ⟨row, hread, length_kept_eq_groups hrow, fun c hc => ?_⟩
  have hgroups := groups_matcher hrow hc
  refine ⟨hgroups, ?_, c.group_eq_error_iff⟩
  rw [hgroups, ← length_rdropWhile_eq_iff, length_kept_eq_groups hrow]
  cases (build calls).value.extended <;> simp

/-- A group that is repeated no time, before one that is kept. -/
theorem group_eq_noSuchGroup_keptLast :
    let calls : List Call := [.count .exactly 0,
      .pattern .like [.text .once ['a'], .word .captured], .text .once ['b'], .word .captured]
    ∃ c, (build calls).value.compile.value = .ok c ∧ c.matcher.groups = 3 ∧
      ∀ t n, c.group t n = .error (.noSuchGroup n 3) ↔ 2 < n := by
  intro calls
  obtain ⟨c, hc, hgroups⟩ := Built.exists_compiled (p := (build calls).value)
    (f := fun c => c.matcher.groups) (a := 3) (by decide +kernel)
  obtain ⟨row, -, -, hall⟩ := group_eq_noSuchGroup_iff calls
  refine ⟨c, hc, hgroups, fun t n => ((hall c hc).2.2 t n n 3).trans ?_⟩
  rw [hgroups]
  simp [Nat.succ_le_iff]

/-- A group that is repeated no time and that no kept one follows is counted, but a query for
it is refused. -/
theorem not_groups_matcher_zeroTimes :
    let calls : List Call := [.count .exactly 0,
      .pattern .like [.text .once ['a'], .word .captured]]
    ∃ c, (build calls).value.compile.value = .ok c ∧ (build calls).value.groups = 1 ∧
      c.matcher.groups ≠ (build calls).value.groups + 1 ∧
        ∀ t, c.group t 1 = .error (.noSuchGroup 1 1) := by
  intro calls
  obtain ⟨c, hc, hgroups⟩ := Built.exists_compiled (p := (build calls).value)
    (f := fun c => c.matcher.groups) (a := 1) (by decide +kernel)
  have hcount : (build calls).value.groups = 1 := by decide +kernel
  refine ⟨c, hc, hcount, by rw [hgroups, hcount]; decide, fun t => ?_⟩
  rw [Compiled.group_of_le (Nat.le_of_eq hgroups), hgroups]

end Call

end FluentPattern
