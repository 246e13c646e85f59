import FluentPattern.Proofs.Matching.Leftmost
import FluentPattern.Proofs.Matching.Lowered

/-!
# Compiled expressions

Every backreference of the tree that is read from a pattern stands in the pattern. So a pattern is
matched by tables only if its node has none, and what its matcher finds can be told from the ways
of the node.

Main statements: `Reading.mem_of_readAll`, `Matcher.isSound_ofBranches`,
`Expression.isSound_of_compile`.
-/

namespace FluentPattern

/-! ## What is read stands in the text -/

theorem Branch.mem_tokens_iff {t : Token} {b : Branch} :
    t ∈ Branch.tokens b ↔ ∃ p ∈ b, t ∈ p.tokens := by
  induction b with
  | nil => simp [Branch.tokens]
  | cons p b ih => simp [Branch.tokens, ih]

/-- An atom stands in branches if it stands in one of them. -/
theorem Branches.atom_mem_tokens_iff {a : Atom} {bs : Branches} :
    .atom a ∈ Branches.tokens bs ↔ ∃ b ∈ bs, .atom a ∈ Branch.tokens b := by
  induction bs with
  | nil => simp [tokens]
  | cons b bs ih =>
    cases bs with
    | nil => simp
    | cons c bs =>
      rw [tokens_cons (List.cons_ne_nil c bs), List.mem_append, List.mem_cons, ih]
      simp

/-- A backreference to a group stands in what is read of a group. -/
def Unfinished.RefersTo (group : Nat) (u : Unfinished) : Prop :=
  (∃ b ∈ u.branches, .atom (.groupAgain group) ∈ Branch.tokens b) ∨
    ∃ p ∈ u.pieces, .atom (.groupAgain group) ∈ p.tokens

/-- A backreference to a group stands in what is read of a pattern. -/
def Reading.RefersTo (group : Nat) (r : Reading) : Prop :=
  r.inner.RefersTo group ∨ ∃ o ∈ r.outer, o.2.RefersTo group

section

variable {group : Nat}

theorem Unfinished.refersTo_add {u : Unfinished} {p : Piece} :
    (u.add p).RefersTo group ↔ .atom (.groupAgain group) ∈ p.tokens ∨ u.RefersTo group := by
  simp only [RefersTo, add, List.exists_mem_cons_iff]
  exact or_left_comm

theorem Unfinished.refersTo_endBranch {u : Unfinished} :
    u.endBranch.RefersTo group ↔ u.RefersTo group := by
  simp only [RefersTo, endBranch, List.exists_mem_cons_iff, Branch.mem_tokens_iff,
    List.mem_reverse, List.not_mem_nil, false_and, exists_false, or_false]
  exact or_comm

theorem Unfinished.mem_tokens_close {u : Unfinished} :
    .atom (.groupAgain group) ∈ Branches.tokens u.close ↔ u.RefersTo group := by
  rw [Branches.atom_mem_tokens_iff, ← refersTo_endBranch]
  simp [RefersTo, close, endBranch, or_comm]

theorem Reading.refersTo_add {r : Reading} {p : Piece} :
    (r.add p).RefersTo group ↔ .atom (.groupAgain group) ∈ p.tokens ∨ r.RefersTo group := by
  rw [RefersTo, RefersTo, add, Unfinished.refersTo_add, or_assoc]

/-- Reading a token brings in no backreference but the token itself. -/
theorem Reading.refersTo_of_accept {r r' : Reading} {t : Token} (h : r.accept t = .ok r')
    (hr : r'.RefersTo group) : r.RefersTo group ∨ t = .atom (.groupAgain group) := by
  cases t with
  | atom a =>
    obtain rfl := Except.ok.inj h
    exact (refersTo_add.1 hr).symm.imp_right fun ha => (List.mem_singleton.1 ha).symm
  | flags fs =>
    obtain rfl := Except.ok.inj h
    exact .inl ((refersTo_add.1 hr).resolve_left (by simp [Piece.tokens]))
  | looseBrace =>
    obtain rfl := Except.ok.inj h
    exact .inl ((refersTo_add.1 hr).resolve_left (by simp [Piece.tokens]))
  | bar =>
    obtain rfl := Except.ok.inj h
    exact .inl (hr.imp_left Unfinished.refersTo_endBranch.1)
  | quantity q =>
    rw [accept] at h
    split at h
    · cases h
    · -- The piece before goes on to stand there, inside the repetition.
      rename_i p pieces hp
      obtain rfl := Except.ok.inj h
      simpa [RefersTo, Unfinished.RefersTo, Piece.tokens, hp] using hr
  | opening k =>
    obtain rfl := Except.ok.inj h
    simpa [RefersTo, Unfinished.RefersTo] using hr
  | closing =>
    rw [accept] at h
    split at h
    · cases h
    · -- What was read of the group moves into a piece of what stands before the group.
      rename_i k before outer houter
      obtain rfl := Except.ok.inj h
      have hclose : .atom (.groupAgain group) ∈ (Piece.group k r.inner.close).tokens ↔
          r.inner.RefersTo group := by
        simp [Piece.tokens, Unfinished.mem_tokens_close]
      rw [RefersTo, Unfinished.refersTo_add, hclose, or_assoc] at hr
      rw [RefersTo, houter, List.exists_mem_cons_iff]
      exact .inl hr
  | fault f => cases h

/-- Every backreference that is read stands in the tokens. -/
theorem Reading.mem_of_readAll {rules : Rules} {ts : List Token} {r r' : Reading}
    (h : r.readAll rules ts = .ok r') (hr : r'.RefersTo group) :
    r.RefersTo group ∨ .atom (.groupAgain group) ∈ ts := by
  induction ts generalizing r with
  | nil => exact .inl (Except.ok.inj h ▸ hr)
  | cons t ts ih =>
    rw [readAll, step] at h
    split at h
    · rename_i next hstep
      split at hstep
      · cases hstep
      · rcases ih h with hnext | hmem
        · exact (refersTo_of_accept hstep hnext).imp_right fun ht =>
            List.mem_cons.2 (.inl ht.symm)
        · exact .inr (List.mem_cons_of_mem t hmem)
    · cases h

/-- The rules refuse none of the tokens that are read. -/
theorem Reading.notMem_of_readAll {rules : Rules} {t : Token} {ts : List Token} {r r' : Reading}
    (ht : ∀ depth before, rules.refuse depth before t ≠ none)
    (h : r.readAll rules ts = .ok r') : t ∉ ts := by
  induction ts generalizing r with
  | nil => exact List.not_mem_nil
  | cons u ts ih =>
    rw [readAll, step] at h
    split at h
    · rename_i next hstep
      split at hstep
      · cases hstep
      · rename_i hrefuse
        intro hmem
        rcases List.mem_cons.1 hmem with rfl | hmem
        · exact ht _ _ hrefuse
        · exact ih h hmem
    · cases h

end

/-- A tree is what all tokens come to with no group left open. -/
theorem exists_readAll_of_readTokens {rules : Rules} {ts : List Token} {bs : Branches}
    (h : readTokens rules ts = .ok bs) :
    ∃ r, Reading.readAll rules {} ts = .ok r ∧ r.inner.close = bs := by
  rw [readTokens] at h
  split at h
  · rename_i r hr
    rw [Reading.finish] at h
    split at h
    · exact ⟨r, hr, Except.ok.inj h⟩
    · cases h
  · cases h

theorem mem_of_readTokens {rules : Rules} {ts : List Token} {bs : Branches}
    (h : readTokens rules ts = .ok bs) {group : Nat}
    (hg : .atom (.groupAgain group) ∈ Branches.tokens bs) : .atom (.groupAgain group) ∈ ts := by
  obtain ⟨r, hr, rfl⟩ := exists_readAll_of_readTokens h
  refine (Reading.mem_of_readAll hr (.inl (Unfinished.mem_tokens_close.1 hg))).resolve_left ?_
  simp [Reading.RefersTo, Unfinished.RefersTo]

/-! ## What is compiled -/

theorem Except.exists_of_bind {ε α β : Type} {e : Except ε α} {f : α → Except ε β} {b : β}
    (h : e >>= f = .ok b) : ∃ a, e = .ok a ∧ f a = .ok b := by
  cases e with
  | ok a => exact ⟨a, rfl, h⟩
  | error _ => cases h

/-- What the basic engine admits is what it has read. -/
theorem readTokens_of_readBasic {t : Text} {bs : Branches} (h : readBasic t = .ok bs) :
    readTokens .basic (tokens t) = .ok bs := by
  obtain ⟨cs, hread, h⟩ := Except.exists_of_bind h
  split at h
  · cases h
  split at h
  · cases h
  · exact hread.trans h

/-- What the extended engine admits is what it has read. -/
theorem readTokens_of_readExtended {t : Text} {bs : Branches} (h : readExtended t = .ok bs) :
    readTokens (.extended t.byteLength) (tokens t) = .ok bs := by
  obtain ⟨cs, hread, h⟩ := Except.exists_of_bind h
  split at h
  · cases h
  split at h
  · cases h
  split at h
  · exact hread.trans h
  split at h
  · cases h
  · exact hread.trans h

/-- Where an engine reads a backreference, the pattern is matched by backtracking. -/
theorem Expression.needsBacktracking_of_mem {e : Expression} {bs : Branches}
    (h : readFor e.engine e.text = .ok bs) {group : Nat}
    (hg : .atom (.groupAgain group) ∈ Branches.tokens bs) : e.needsBacktracking = true := by
  rw [needsBacktracking]
  cases hengine : e.engine with
  | basic =>
    rw [hengine, readFor] at h
    have hread := readTokens_of_readBasic h
    obtain ⟨r, hr, -⟩ := exists_readAll_of_readTokens hread
    have hrefuse (depth : Nat) (before : Option Piece) :
        Rules.basic.refuse depth before (.atom (.groupAgain group)) ≠ none := by
      rw [basic_refuse_groupAgain]
      exact Option.some_ne_none _
    exact absurd (mem_of_readTokens hread hg) (Reading.notMem_of_readAll hrefuse hr)
  | extended =>
    rw [hengine, readFor] at h
    have hmem := mem_of_readTokens (readTokens_of_readExtended h) hg
    exact List.any_eq_true.2 ⟨_, hmem, rfl⟩

/-- The matcher of an admitted pattern backtracks, or has no backreferences. -/
theorem Matcher.isSound_ofBranches {e : Expression} {bs : Branches}
    (h : readFor e.engine e.text = .ok bs) : (Matcher.ofBranches e bs).IsSound := by
  unfold ofBranches
  split
  · exact .inl rfl
  · rename_i hbacktracking
    refine .inr (List.eq_nil_iff_forall_not_mem.2 fun g hg => hbacktracking ?_)
    exact e.needsBacktracking_of_mem h ((Branches.fits_lower _ _ _ _).mem_of_mem_references g hg)

end FluentPattern
