import FluentPattern.Proofs.Matching.Leftmost
import FluentPattern.Proofs.Matching.Stops
import FluentPattern.Proofs.Row

/-!
# Anchored rows

A row of pieces behind the start of the input matches if it has a way from there, and one
before the end of the input as well if such a way stops at the end.

Main statements: `Branch.isSome_leftmost_begun`, `Branch.isSome_leftmost_framed`.
-/

namespace FluentPattern

/-! ## Rows behind the start and before the end -/

/-- A row behind the start of the input. -/
def Branch.begun (b : Branch) : Branch :=
  .group .plain [[.atom .start]] :: b

/-- A row before the end of the input. -/
def Branch.ended (b : Branch) : Branch :=
  b ++ [.group .plain [[.atom .stop]]]

/-- The segment of the start of the input. -/
def Segment.inputStart : Segment :=
  .group ['^']

/-- The segment of the end of the input. -/
def Segment.inputEnd : Segment :=
  .group ['$']

/-- Calls between those for the ends of the input write between their segments. -/
theorem Call.builder_framed (calls : List Call) :
    builder (.word .inputStart :: (calls ++ [.word .inputEnd])) =
      ((applyAll (Builder.empty.addSegment .inputStart).value calls).value.addSegment
        .inputEnd).value :=
  value_applyAll_append (Builder.empty.addSegment .inputStart).value calls [.word .inputEnd]

theorem Spells.begun {t : Text} {b : Branch} (h : Spells t [b]) :
    Spells (Segment.inputStart.text ++ t) [b.begun] :=
  Segment.spells_append (List.cons_ne_nil _ _) (.cons (.single rfl .nil) .nil) h

theorem Segment.spells_inputEnd :
    Spells ([Segment.inputEnd].flatMap Segment.text) [Branch.ended []] :=
  Segment.spells_append (List.cons_ne_nil _ _) (.cons (.single rfl .nil) .nil) .nil

/-! ## Their ways -/

namespace Branch

/-- Groups keep the flags in front of them. -/
theorem flags_lower_groups (engine : Engine) (flags : Flags) (groups : Nat) {b : Branch}
    (hb : ∀ p ∈ b, ∃ k bs, p = .group k bs) : (lower engine flags groups b).flags = flags := by
  induction b generalizing groups with
  | nil => rfl
  | cons p b ih =>
    obtain ⟨⟨k, bs, rfl⟩, hrest⟩ := List.forall_mem_cons.1 hb
    rw [lower, Piece.lower_group]
    exact ih _ hrest

variable (h : Haystack) (engine : Engine) (b : Branch)

theorem ways_begun :
    (lower engine .empty 0 b.begun).node.ways h =
      .seq (.test (Anchor.holds h · .inputStart)) ((lower engine .empty 0 b).node.ways h) :=
  congrArg (Ways.seq · _) (Ways.seq_unit _)

/-- A row behind the start of the input matches if it has a way from there. -/
theorem isSome_leftmost_begun :
    (Ways.leftmost h.size ((lower engine .empty 0 b.begun).node.ways h)).isSome = true ↔
      ∃ v, v ∈ (lower engine .empty 0 b).node.ways h 0 .empty := by
  rw [Ways.isSome_leftmost, ways_begun]
  simp only [Ways.seq, Ways.test, List.mem_flatMap, Anchor.holds, beq_iff_eq]
  constructor
  · rintro ⟨p, -, v, x, hx, hv⟩
    split at hx
    · rename_i hp
      obtain rfl := List.mem_singleton.1 hx
      exact ⟨v, hp ▸ hv⟩
    · exact absurd hx List.not_mem_nil
  · rintro ⟨v, hv⟩
    exact ⟨0, Nat.zero_le _, v, ⟨0, .empty⟩, List.mem_singleton_self _, hv⟩

variable {b}

/-- A row before the end of the input goes its ways that stop there. -/
theorem exists_mem_ways_ended (hflags : (lower engine .empty 0 b).flags = .empty) :
    (∃ v, v ∈ (lower engine .empty 0 b.ended).node.ways h 0 .empty) ↔
      ((lower engine .empty 0 b).node.ways h).StopsAt 0 .empty h.size := by
  have hstop (groups : Nat) :
      (lower engine .empty groups (ended [])).node.ways h =
        .test (Anchor.holds h · .inputEnd) :=
    (Ways.seq_unit _).trans (Ways.seq_unit _)
  have hways := ways_lower_append h engine b (ended []) .empty 0
  dsimp only at hways
  rw [hflags, hstop] at hways
  have hended : (lower engine .empty 0 b.ended).node.ways h = _ := hways
  rw [hended]
  simp only [Ways.StopsAt, Ways.seq, Ways.test, List.mem_flatMap, Anchor.holds, beq_iff_eq]
  constructor
  · rintro ⟨v, x, hx, hv⟩
    split at hv
    · rename_i hend
      exact ⟨x, hx, hend⟩
    · exact absurd hv List.not_mem_nil
  · rintro ⟨x, hx, hend⟩
    exact ⟨⟨x.stop, x.record⟩, x, hx, by rw [if_pos hend]; exact List.mem_singleton_self _⟩

/-- A row between the ends of the input matches if one of its ways leads from the one to the
other. -/
theorem isSome_leftmost_framed (hflags : (lower engine .empty 0 b).flags = .empty) :
    (Ways.leftmost h.size ((lower engine .empty 0 b.ended.begun).node.ways h)).isSome = true ↔
      ((lower engine .empty 0 b).node.ways h).StopsAt 0 .empty h.size :=
  (isSome_leftmost_begun h engine b.ended).trans (exists_mem_ways_ended h engine hflags)

end Branch

end FluentPattern
