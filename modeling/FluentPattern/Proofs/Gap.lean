import FluentPattern.Proofs.Lead

/-!
# Gaps in a pattern

What is written around an embedded pattern is a lead and a rest. The pattern itself is
renumbered by one offset after the other, and the offsets add up to the number of groups
that open in the lead. In a segment the pattern stands in the gap of one alternative.

Main statements: `Surrounding.exists_embedded` (what is around a pattern inside a pattern
that is embedded in turn), `Gap.text_fill`.
-/

namespace FluentPattern

/-! ## Texts that are renumbered again and again -/

/-- A text renumbered by one offset after the other. -/
def shiftAll (offsets : List Nat) (t : Text) : Text :=
  offsets.foldl (fun t d => shiftReferences d t) t

theorem shiftAll_concat (offsets : List Nat) (d : Nat) (t : Text) :
    shiftAll (offsets ++ [d]) t = shiftReferences d (shiftAll offsets t) :=
  List.foldl_concat _ _ _ _

theorem shiftAll_append (first second : List Nat) (t : Text) :
    shiftAll (first ++ second) t = shiftAll second (shiftAll first t) :=
  List.foldl_append

theorem Text.IsRow.shiftAll {t : Text} (ht : t.IsRow) (offsets : List Nat) :
    Text.IsRow (shiftAll offsets t) := by
  induction offsets generalizing t with
  | nil => exact ht
  | cons d offsets ih => exact ih (ht.shift d)

theorem openings_shiftAll (offsets : List Nat) (t : Text) :
    openings (shiftAll offsets t) = openings t := by
  induction offsets generalizing t with
  | nil => rfl
  | cons d offsets ih => exact (ih _).trans (openings_shiftReferences d t)

/-- A row is renumbered apart from what stands around it. -/
theorem exists_shiftAll_lead_row_rest {u v : Text} (hu : u.IsLead) (hv : v.IsRest)
    (offsets : List Nat) :
    ∃ u' v', Text.IsLead u' ∧ Text.IsRest v' ∧ openings u' = openings u ∧
      ∀ t, Text.IsRow t →
        shiftAll offsets (u ++ (t ++ v)) = u' ++ (shiftAll offsets t ++ v') := by
  induction offsets generalizing u v with
  | nil => exact ⟨u, v, hu, hv, rfl, fun _ _ => rfl⟩
  | cons d offsets ih =>
    obtain ⟨u', v', hu', hv', ho, heq⟩ := ih (hu.shift d) (hv.shift d)
    refine ⟨u', v', hu', hv', ho.trans (openings_shiftReferences d u), fun t ht => ?_⟩
    refine Eq.trans ?_ (heq _ (ht.shift d))
    exact congrArg (shiftAll offsets) (shiftReferences_lead_row_rest hu ht hv d)

/-! ## What stands around a pattern -/

/-- What a finished pattern has around a pattern that it embeds, and its other data. -/
structure Surrounding where
  /-- What is written before the pattern. -/
  lead : Text
  /-- What is written after the pattern. -/
  rest : Text
  /-- The offsets by which the pattern is renumbered. -/
  offsets : List Nat
  /-- The number of groups of the finished pattern. -/
  groups : Nat
  /-- The flags of the finished pattern. -/
  flags : Flags
  isLead : lead.IsLead
  isRest : rest.IsRest
  openings_lead : openings lead = offsets.sum

namespace Surrounding

/-- Whether a finished pattern is a text with the surrounding around it. -/
structure Holds (s : Surrounding) (t : Text) (p : Built) : Prop where
  literal : p.literal = s.lead ++ (shiftAll s.offsets t ++ s.rest)
  groups : p.groups = s.groups
  flags : p.flags = s.flags

/-- What the flags of a pattern put around its literal captures nothing. -/
theorem exists_scopedLiteral (flags : Flags) :
    ∃ u v : Text, u.IsLead ∧ openings u = 0 ∧
      ∀ p : Built, p.flags = flags → p.scopedLiteral = u ++ (p.literal ++ v) := by
  rcases Built.scopedLiteral_eq flags with h | ⟨fs, hk, h⟩
  · refine ⟨[], [], .nil, openings_nil, fun p hp => ?_⟩
    rw [h p hp, List.append_nil, List.nil_append]
  · have ho := openings_opening (.flagged fs) (t := []) (by simp)
    rw [List.append_nil, openings_nil] at ho
    exact ⟨_, _, .of_opening hk, ho, h⟩

/-- A pattern inside a pattern that is embedded has the surroundings of both. -/
theorem exists_embedded (inner outer : Surrounding) :
    ∃ s : Surrounding, ∀ (t : Text) (p r : Built), t.IsRow → inner.Holds t p →
      outer.Holds p.scopedLiteral r → s.Holds t r := by
  obtain ⟨u, v, hu, hu0, hscoped⟩ := exists_scopedLiteral inner.flags
  obtain ⟨u', v', hu', hv', ho', hshift⟩ := exists_shiftAll_lead_row_rest
    (hu.append inner.isLead) (inner.isRest.append v) outer.offsets
  refine ⟨⟨outer.lead ++ u', v' ++ outer.rest, inner.offsets ++ outer.offsets, outer.groups,
    outer.flags, outer.isLead.append hu', hv'.append _, ?_⟩, fun t p r ht hp hr => ?_⟩
  · rw [outer.isLead.openings_append hu'.head?_ne, ho', hu.openings_append inner.isLead.head?_ne,
      hu0, outer.openings_lead, inner.openings_lead, List.sum_append]
    omega
  · refine ⟨?_, hr.groups, hr.flags⟩
    have hin : p.scopedLiteral =
        (u ++ inner.lead) ++ (shiftAll inner.offsets t ++ (inner.rest ++ v)) := by
      rw [hscoped p hp.flags, hp.literal]
      simp only [List.append_assoc]
    rw [hr.literal, hin, hshift _ (ht.shiftAll _), shiftAll_append]
    simp only [List.append_assoc]

end Surrounding

/-! ## Segments with a gap -/

/-- A segment without a part of one of its alternatives. -/
structure Gap where
  /-- The kind of group. -/
  opening : Opening
  /-- The alternatives before the one with the gap. -/
  first : List Text
  /-- What stands before the gap in its alternative. -/
  left : Text
  /-- What stands after the gap in its alternative. -/
  right : Text
  /-- The alternatives after the one with the gap. -/
  last : List Text

namespace Gap

variable (g : Gap)

/-- The segment with a text in the gap. -/
def fill (t : Text) : Segment :=
  ⟨g.opening, g.first ++ (g.left ++ t ++ g.right) :: g.last⟩

/-- One more alternative. -/
def push (alternative : Text) : Gap :=
  { g with last := g.last ++ [alternative] }

/-- What is written before the gap. -/
def lead : Text :=
  g.opening.text ++ (g.first.flatMap (· ++ ['|']) ++ g.left)

/-- What is written after the gap. -/
def rest : Text :=
  g.right ++ (g.last.flatMap ('|' :: ·) ++ [')'])

/-- The groups that open before the gap: that of the segment, if it captures, and those of
the alternatives before. -/
def groupCount : Nat :=
  (if g.opening = .capture then 1 else 0) + (g.first.map openings).sum

/-- The alternatives before the gap are rows, and in its own alternative there is at most a
group around the gap that captures nothing. -/
structure IsFormed : Prop where
  first : ∀ t ∈ g.first, Text.IsRow t
  left : g.left = [] ∨ g.left = GroupKind.plain.text
  right : g.right = [] ∨ g.right.head? = some ')'

/-- The gap of an alternative that stands in a group. -/
def wrapped (opening : Opening) (first : List Text) (suffix : Text) : Gap :=
  ⟨opening, first, GroupKind.plain.text, ')' :: suffix, []⟩

variable {g}

theorem isFormed_wrapped (opening : Opening) {first : List Text}
    (h : ∀ t ∈ first, Text.IsRow t) (suffix : Text) : (wrapped opening first suffix).IsFormed :=
  ⟨h, .inr rfl, .inr rfl⟩

theorem fill_push (alternative t : Text) :
    (g.push alternative).fill t = (g.fill t).push alternative := by
  simp [fill, push, Segment.push]

theorem intercalate_append_cons (first last : List Text) (t : Text) :
    ['|'].intercalate (first ++ t :: last) =
      first.flatMap (· ++ ['|']) ++ (t ++ last.flatMap ('|' :: ·)) := by
  have hlast (t : Text) : ['|'].intercalate (t :: last) = t ++ last.flatMap ('|' :: ·) := by
    induction last generalizing t with
    | nil => simp [List.intercalate]
    | cons u last ih =>
      have h := ih u
      simp only [List.intercalate, List.intersperse_cons_cons, List.flatten_cons] at h ⊢
      rw [h]
      simp
  induction first with
  | nil => exact hlast t
  | cons u first ih =>
    obtain ⟨w, ws, hw⟩ : ∃ w ws, first ++ t :: last = w :: ws :=
      List.exists_cons_of_ne_nil (by simp)
    rw [List.flatMap_cons, List.append_assoc, ← ih, List.cons_append, hw]
    simp [List.intercalate]

/-- The segment is written as what stands before the gap, the text, and what stands after
the gap. -/
theorem text_fill (t : Text) : (g.fill t).text = g.lead ++ (t ++ g.rest) := by
  rw [Segment.text, fill, intercalate_append_cons]
  simp [lead, rest]

theorem IsFormed.isLead_bars (h : g.IsFormed) :
    Text.IsLead (g.first.flatMap (· ++ ['|']) ++ g.left) := by
  have hleft : g.left.IsLead := by
    rcases h.left with hl | hl
    · exact hl ▸ .nil
    · exact hl ▸ .of_opening trivial
  have hfirst := h.first
  generalize g.first = first at hfirst ⊢
  induction first with
  | nil => exact hleft
  | cons t first ih =>
    rw [List.flatMap_cons, List.append_assoc, List.append_assoc]
    exact .bar (hfirst t List.mem_cons_self) (ih fun x hx => hfirst x (List.mem_cons_of_mem _ hx))

theorem IsFormed.openings_bars (h : g.IsFormed) :
    openings (g.first.flatMap (· ++ ['|']) ++ g.left) = (g.first.map openings).sum := by
  have hleft : openings g.left = 0 := by
    rcases h.left with hl | hl
    · rw [hl, openings_nil]
    · have ho := openings_opening .plain (t := []) (by simp)
      rwa [List.append_nil, openings_nil, ← hl] at ho
  have hfirst := h.first
  generalize g.first = first at hfirst ⊢
  induction first with
  | nil => exact hleft
  | cons t first ih =>
    obtain ⟨b, hb⟩ := hfirst t List.mem_cons_self
    rw [List.flatMap_cons, List.append_assoc, List.append_assoc, List.singleton_append,
      hb.openings_bar, ih fun x hx => hfirst x (List.mem_cons_of_mem _ hx), List.map_cons,
      List.sum_cons]

theorem IsFormed.isRest_rest (h : g.IsFormed) : g.rest.IsRest := by
  unfold Gap.rest
  rcases h.right with hr | hr
  · rw [hr]
    cases g.last with
    | nil => exact .inl rfl
    | cons t ts => exact .inr rfl
  · exact Text.IsRest.append (.inl hr) _

theorem IsFormed.push (h : g.IsFormed) (alternative : Text) : (g.push alternative).IsFormed :=
  ⟨h.first, h.left, h.right⟩

variable {s : Text} (hs : s.IsRow)
include hs

theorem IsFormed.isLead_append_lead (h : g.IsFormed) : (s ++ g.lead).IsLead := by
  have hl := Text.IsLead.opening g.opening.kind hs g.opening.isWritable_kind h.isLead_bars
  rwa [Opening.text_kind] at hl

theorem IsFormed.openings_append_lead (h : g.IsFormed) :
    openings (s ++ g.lead) = openings s + g.groupCount := by
  have hd : g.lead.startsWithDigit = false := by
    unfold Gap.lead
    cases g.opening <;> rfl
  have hk : g.opening.kind = .capture ↔ g.opening = .capture := by
    cases g.opening <;> decide
  have ho := openings_opening g.opening.kind h.isLead_bars.head?_ne
  rw [Opening.text_kind, h.openings_bars] at ho
  rw [hs.settled.openings_append hd]
  simp only [lead, groupCount, ho, hk]

end Gap

end FluentPattern
