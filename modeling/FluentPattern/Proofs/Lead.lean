import FluentPattern.Proofs.GroupCount

/-!
# Places in a pattern

A lead is what stands in a pattern before a place where a row can stand: openings of
groups and bars, each after a row. A row that follows is read apart from the lead, so
the groups of the row are numbered after those that open in the lead. After the row
stands the rest, which starts with the end of a group or with a bar.

Main statements: `Text.IsLead.signs_append`, `Text.IsLead.shift`,
`signs_lead_row_rest`, `shiftReferences_lead_row_rest`.
-/

namespace FluentPattern

/-- What stands before a place in a pattern. -/
inductive Text.IsLead : Text → Prop
  | nil : IsLead []
  | opening {s t : Text} (k : GroupKind) :
    s.IsRow → k.IsWritable → IsLead t → IsLead (s ++ (k.text ++ t))
  | bar {s t : Text} : s.IsRow → IsLead t → IsLead (s ++ '|' :: t)

/-- What stands after a row. -/
def Text.IsRest (t : Text) : Prop :=
  t.head? = some ')' ∨ t.head? = some '|'

theorem Text.IsRest.append {t : Text} (h : t.IsRest) (u : Text) : (t ++ u).IsRest := by
  cases t with
  | nil => rcases h with h | h <;> simp at h
  | cons c t => exact h

theorem Text.IsRest.startsWithDigit {t : Text} (h : t.IsRest) : t.startsWithDigit = false := by
  cases t with
  | nil => rfl
  | cons c t =>
    rcases h with h | h
    · rw [Option.some.inj h]
      rfl
    · rw [Option.some.inj h]
      rfl

theorem Text.IsRest.head?_ne {t : Text} (h : t.IsRest) : t.head? ≠ some '?' := by
  rcases h with h | h <;> simp [h]

theorem Text.IsRest.shift {t : Text} (h : t.IsRest) (d : Nat) :
    Text.IsRest (shiftReferences d t) := by
  cases t with
  | nil => rcases h with h | h <;> simp at h
  | cons c t =>
    have hc : c ≠ '\\' := by
      rcases h with h | h <;> rw [Option.some.inj h] <;> decide
    rw [shiftReferences_cons hc]
    exact h

/-! ## Leads -/

theorem Text.IsRow.head?_append_ne {s t : Text} (hs : s.IsRow) (ht : t.head? ≠ some '?') :
    (s ++ t).head? ≠ some '?' := by
  obtain ⟨b, hb⟩ := hs
  exact hb.head?_append_ne ht

theorem Text.IsRow.tokens_append {s t : Text} (hs : s.IsRow) (hd : t.startsWithDigit = false)
    (hq : t.head? ≠ some '?') : tokens (s ++ t) = tokens s ++ tokens t := by
  obtain ⟨b, hb⟩ := hs
  rw [hb.tokens_append hd hq, hb.tokens_eq]

namespace Text.IsLead

variable {s t u : Text}

theorem of_opening {k : GroupKind} (hk : k.IsWritable) : k.text.IsLead := by
  have h := IsLead.opening k .nil hk .nil
  simpa using h

theorem append (hs : s.IsLead) (ht : t.IsLead) : (s ++ t).IsLead := by
  induction hs with
  | nil => exact ht
  | opening k hrow hk _ ih =>
    rw [List.append_assoc, List.append_assoc]
    exact .opening k hrow hk ih
  | bar hrow _ ih =>
    rw [List.append_assoc]
    exact .bar hrow ih

theorem head?_append_ne (hs : s.IsLead) (ht : t.head? ≠ some '?') :
    (s ++ t).head? ≠ some '?' := by
  cases hs with
  | nil => exact ht
  | opening k hrow _ _ =>
    obtain ⟨v, hv⟩ := k.exists_text
    rw [List.append_assoc]
    exact hrow.head?_append_ne (by simp [hv])
  | bar hrow _ =>
    rw [List.append_assoc]
    exact hrow.head?_append_ne (by simp)

theorem head?_ne (hs : s.IsLead) : s.head? ≠ some '?' := by
  have h := hs.head?_append_ne (t := []) (by simp)
  rwa [List.append_nil] at h

/-- What follows a lead is read apart from it. -/
theorem signs_append (hs : s.IsLead) (ht : t.head? ≠ some '?') :
    signs (s ++ t) = signs s ++ signs t := by
  induction hs with
  | nil => simp
  | opening k hrow _ hu ih =>
    have hd (v : Text) : (k.text ++ v).startsWithDigit = false := by
      obtain ⟨w, hw⟩ := k.exists_text
      rw [hw]
      rfl
    rw [List.append_assoc, List.append_assoc, hrow.settled _ (hd _), hrow.settled _ (hd _),
      signs_opening k (hu.head?_append_ne ht), signs_opening k hu.head?_ne, ih]
    simp only [List.append_assoc]
  | bar hrow _ ih =>
    rw [List.append_assoc, List.cons_append, hrow.settled _ rfl, hrow.settled _ rfl,
      signs_cons (by decide) (by decide) (by decide),
      signs_cons (by decide) (by decide) (by decide), ih]
    simp only [List.append_assoc, List.cons_append]

theorem tokens_append (hs : s.IsLead) (ht : t.head? ≠ some '?') :
    tokens (s ++ t) = tokens s ++ tokens t := by
  induction hs with
  | nil => simp
  | opening k hrow hk hu ih =>
    obtain ⟨w, hw⟩ := k.exists_text
    have hd (v : Text) : (k.text ++ v).startsWithDigit = false := by
      rw [hw]
      rfl
    have hq (v : Text) : (k.text ++ v).head? ≠ some '?' := by simp [hw]
    rw [List.append_assoc, List.append_assoc, hrow.tokens_append (hd _) (hq _),
      hrow.tokens_append (hd _) (hq _), tokens_opening hk (hu.head?_append_ne ht),
      tokens_opening hk hu.head?_ne, ih]
    simp only [List.append_assoc, List.cons_append]
  | bar hrow _ ih =>
    rw [List.append_assoc, List.cons_append, hrow.tokens_append rfl (by simp),
      hrow.tokens_append rfl (by simp), tokens_bar, tokens_bar, ih]
    simp only [List.append_assoc, List.cons_append]

theorem openings_append (hs : s.IsLead) (ht : t.head? ≠ some '?') :
    openings (s ++ t) = openings s + openings t := by
  rw [openings, hs.signs_append ht, List.countP_append]
  rfl

theorem shiftReferences_append (hs : s.IsLead) (ht : t.head? ≠ some '?') (d : Nat) :
    shiftReferences d (s ++ t) = shiftReferences d s ++ shiftReferences d t := by
  refine FluentPattern.shiftReferences_append ?_ d
  rw [← map_lexeme_signs, hs.signs_append ht, List.map_append, map_lexeme_signs, map_lexeme_signs]

/-- Renumbering a lead gives a lead. -/
theorem shift (hs : s.IsLead) (d : Nat) : Text.IsLead (shiftReferences d s) := by
  induction hs with
  | nil =>
    rw [shiftReferences_nil]
    exact .nil
  | @opening s u k hrow hk _ ih =>
    have hd : (k.text ++ u).startsWithDigit = false := by
      obtain ⟨w, hw⟩ := k.exists_text
      rw [hw]
      rfl
    rw [hrow.settled.shiftReferences_append hd, shiftReferences_opening]
    exact .opening k (hrow.shift d) hk ih
  | bar hrow _ ih =>
    rw [hrow.settled.shiftReferences_append rfl, shiftReferences_cons (by decide)]
    exact .bar (hrow.shift d) ih

end Text.IsLead

/-! ## A row at its place -/

section

variable {u t v : Text} (hu : u.IsLead) (ht : t.IsRow) (hv : v.IsRest)
include hu ht hv

/-- A row is read apart from what stands before and after it. -/
theorem signs_lead_row_rest : signs (u ++ (t ++ v)) = signs u ++ (signs t ++ signs v) := by
  rw [hu.signs_append (ht.head?_append_ne hv.head?_ne), ht.settled v hv.startsWithDigit]

/-- A row is renumbered apart from what stands before and after it. -/
theorem shiftReferences_lead_row_rest (d : Nat) :
    shiftReferences d (u ++ (t ++ v)) =
      shiftReferences d u ++ (shiftReferences d t ++ shiftReferences d v) := by
  rw [hu.shiftReferences_append (ht.head?_append_ne hv.head?_ne),
    ht.settled.shiftReferences_append hv.startsWithDigit]

end

end FluentPattern
