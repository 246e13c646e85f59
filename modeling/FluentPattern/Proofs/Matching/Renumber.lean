import FluentPattern.Proofs.Matching.Ways

/-!
# Ways after other records

What was passed before a node matters to its backreferences only. So where a change of the
record is one that these do not see, up to other numbers of the groups, the node goes the
same ways and changes their records likewise. Two changes are of use: to put an older
record behind, which a node without backreferences does not see, and to move all groups
behind those of a record that is there already.

Main statements: `Node.tracks_ways`, `Node.isFree_ways` (without backreferences the ways do
not depend on what was passed before), `Node.ways_renumber`.
-/

namespace FluentPattern

/-! ## Tracking -/

/-- The way with its record changed. -/
def Way.change (change : Record → Record) (v : Way) : Way :=
  ⟨v.stop, change v.record⟩

/-- After a changed record the second goes the ways that the first goes after the record
itself, their records changed likewise. -/
def Ways.Tracks (change : Record → Record) (first second : Ways) : Prop :=
  ∀ p r, second p (change r) = (first p r).map (Way.change change)

namespace Ways.Tracks

variable {change : Record → Record} {first second v w v' w' : Ways}

theorem unit : Ways.unit.Tracks change Ways.unit :=
  fun _ _ => rfl

theorem test (condition : Nat → Bool) :
    (Ways.test condition).Tracks change (Ways.test condition) := by
  intro p r
  unfold Ways.test
  split <;> rfl

theorem char (h : Haystack) (s : CharSet) : (Ways.char h s).Tracks change (Ways.char h s) := by
  intro p r
  unfold Ways.char
  split
  · split <;> rfl
  · rfl

theorem seq (hv : v.Tracks change v') (hw : w.Tracks change w') :
    (Ways.seq v w).Tracks change (Ways.seq v' w') := by
  intro p r
  rw [Ways.seq, hv p r, List.flatMap_map, Ways.seq, List.map_flatMap]
  exact List.flatMap_congr fun u _ => hw u.stop u.record

theorem alt (hv : v.Tracks change v') (hw : w.Tracks change w') :
    (Ways.alt v w).Tracks change (Ways.alt v' w') := by
  intro p r
  rw [Ways.alt, hv p r, hw p r, Ways.alt, List.map_append]

theorem capture (hv : v.Tracks change v') {group group' : Nat}
    (hpass : ∀ r side p, change (Record.pass r group side p) = (change r).pass group' side p) :
    (Ways.capture group v).Tracks change (Ways.capture group' v') := by
  intro p r
  unfold Ways.capture
  rw [← hpass, hv p, List.map_map, List.map_map]
  exact List.map_congr_left fun u _ => congrArg (Way.mk u.stop) (hpass _ _ _).symm

theorem look (hv : v.Tracks change v') (negated : Bool) :
    (Ways.look negated v).Tracks change (Ways.look negated v') := by
  intro p r
  unfold Ways.look
  rw [hv p r, List.head?_map]
  cases (v p r).head? <;> cases negated <;> rfl

theorem groupAgain (h : Haystack) {group group' : Nat}
    (hspan : ∀ r, (change r).span? group' = r.span? group) :
    (Ways.groupAgain h group).Tracks change (Ways.groupAgain h group') := by
  intro p r
  unfold Ways.groupAgain
  rw [hspan]
  cases r.span? group with
  | none => rfl
  | some span =>
    dsimp only
    split <;> rfl

theorem orEmpty (hv : v.Tracks change v') (greedy : Bool) :
    (Ways.orEmpty greedy v).Tracks change (Ways.orEmpty greedy v') := by
  unfold Ways.orEmpty
  split
  · exact hv.alt unit
  · exact unit.alt hv

theorem copies (hv : v.Tracks change v') (n : Nat) :
    (Ways.copies v n).Tracks change (Ways.copies v' n) := by
  induction n with
  | zero => exact unit
  | succ n ih => exact hv.seq ih

theorem upTo (hv : v.Tracks change v') (greedy : Bool) (n : Nat) :
    (Ways.upTo greedy v n).Tracks change (Ways.upTo greedy v' n) := by
  induction n with
  | zero => exact unit
  | succ n ih => exact (hv.seq ih).orEmpty greedy

theorem moving (hv : v.Tracks change v') : (Ways.moving v).Tracks change (Ways.moving v') := by
  intro p r
  rw [Ways.moving, hv p r, List.filter_map]
  rfl

theorem iterate (hv : v.Tracks change v') (greedy : Bool) (n : Nat) :
    (Ways.iterate greedy v n).Tracks change (Ways.iterate greedy v' n) := by
  induction n with
  | zero => exact unit
  | succ n ih => exact (hv.moving.seq ih).orEmpty greedy

theorem star (hv : v.Tracks change v') (size : Nat) (greedy : Bool) :
    (Ways.star size greedy v).Tracks change (Ways.star size greedy v') :=
  fun p => hv.iterate greedy (size - p + 1) p

theorem plus (hv : v.Tracks change v') (size : Nat) (greedy : Bool) :
    (Ways.plus size greedy v).Tracks change (Ways.plus size greedy v') := by
  intro p r
  unfold Ways.plus
  rw [hv p r, List.flatMap_map, List.map_flatMap]
  refine List.flatMap_congr fun u _ => ?_
  show (if p < u.stop then _ else _) = _
  split
  · exact hv.star size greedy u.stop u.record
  · rfl

theorem times (hv : v.Tracks change v') (size least : Nat) (more : Further) (greedy : Bool) :
    (Ways.times size least more greedy v).Tracks change
      (Ways.times size least more greedy v') := by
  refine (hv.copies least).seq ?_
  cases more with
  | upTo n => exact hv.upTo greedy n
  | star => exact hv.star size greedy
  | plus => exact hv.plus size greedy

end Ways.Tracks

/-! ## Renumbered nodes -/

namespace Node

/-- The numbers of the groups of a node. -/
def captures : Node → List Nat
  | empty | char _ | anchor _ | groupAgain _ => []
  | seq first second | alt first second => first.captures ++ second.captures
  | capture group body => group :: body.captures
  | look _ body | times _ _ _ body => body.captures

/-- The groups that a node refers to. -/
def references : Node → List Nat
  | empty | char _ | anchor _ => []
  | seq first second | alt first second => first.references ++ second.references
  | groupAgain group => [group]
  | capture _ body | look _ body | times _ _ _ body => body.references

/-- The node with its groups moved. -/
def renumber (offset : Nat) : Node → Node
  | empty => empty
  | char s => char s
  | anchor a => anchor a
  | seq first second => seq (first.renumber offset) (second.renumber offset)
  | alt first second => alt (first.renumber offset) (second.renumber offset)
  | capture group body => capture (group + offset) (body.renumber offset)
  | look negated body => look negated (body.renumber offset)
  | groupAgain group => groupAgain (group + offset)
  | times least further greedy body => times least further greedy (body.renumber offset)

theorem renumber_zero (n : Node) : n.renumber 0 = n := by
  induction n with
  | seq first second hf hs | alt first second hf hs => rw [renumber, hf, hs]
  | capture group body hb => rw [renumber, hb, Nat.add_zero]
  | look negated body hb | times least further greedy body hb => rw [renumber, hb]
  | _ => rfl

/-- A node tracks each change of the record that takes its groups to the moved ones and
shows its backreferences the same. -/
theorem tracks_ways (h : Haystack) {change : Record → Record} {offset : Nat} {n : Node}
    (hpass : ∀ g ∈ n.captures, ∀ r side p,
      change (Record.pass r g side p) = (change r).pass (g + offset) side p)
    (hspan : ∀ g ∈ n.references, ∀ r, (change r).span? (g + offset) = r.span? g) :
    (n.ways h).Tracks change ((n.renumber offset).ways h) := by
  induction n with
  | empty => exact .unit
  | char s => exact .char h s
  | anchor a => exact .test _
  | seq first second hf hs =>
    exact (hf (fun g hg => hpass g (List.mem_append_left _ hg))
        fun g hg => hspan g (List.mem_append_left _ hg)).seq
      (hs (fun g hg => hpass g (List.mem_append_right _ hg))
        fun g hg => hspan g (List.mem_append_right _ hg))
  | alt first second hf hs =>
    exact (hf (fun g hg => hpass g (List.mem_append_left _ hg))
        fun g hg => hspan g (List.mem_append_left _ hg)).alt
      (hs (fun g hg => hpass g (List.mem_append_right _ hg))
        fun g hg => hspan g (List.mem_append_right _ hg))
  | capture group body hb =>
    exact (hb (fun g hg => hpass g (List.mem_cons_of_mem _ hg)) hspan).capture
      (hpass group List.mem_cons_self)
  | look negated body hb => exact (hb hpass hspan).look negated
  | groupAgain group => exact .groupAgain h (hspan group List.mem_cons_self)
  | times least further greedy body hb => exact (hb hpass hspan).times _ least further greedy

end Node

/-! ## Ways that do not look back -/

/-- What was passed before stands behind what is passed on the way, and does not matter for
anything else. -/
def Ways.IsFree (w : Ways) : Prop :=
  ∀ r, w.Tracks (Record.after · r) w

namespace Ways.IsFree

variable {w : Ways} (hw : w.IsFree)

include hw

theorem eq (p : Nat) (r : Record) : w p r = (w p .empty).map (Way.after r) :=
  hw r p .empty

theorem copies (n : Nat) : (Ways.copies w n).IsFree :=
  fun r => (hw r).copies n

theorem upTo (greedy : Bool) (n : Nat) : (Ways.upTo greedy w n).IsFree :=
  fun r => (hw r).upTo greedy n

theorem star (size : Nat) (greedy : Bool) : (Ways.star size greedy w).IsFree :=
  fun r => (hw r).star size greedy

theorem plus (size : Nat) (greedy : Bool) : (Ways.plus size greedy w).IsFree :=
  fun r => (hw r).plus size greedy

end Ways.IsFree

/-- A node without backreferences does not look back. -/
theorem Node.isFree_ways (h : Haystack) {n : Node} (hn : n.references = []) :
    (n.ways h).IsFree := by
  intro r
  have htracks : (n.ways h).Tracks (Record.after · r) ((n.renumber 0).ways h) :=
    tracks_ways h (fun g _ s side p => Record.pass_after s r g side p) (by simp [hn])
  rwa [renumber_zero] at htracks

/-! ## Groups behind others -/

namespace Record

/-- The record with its groups moved behind those of another one. -/
def behind (before : Record) (offset : Nat) (r : Record) : Record :=
  fun g s => if offset < g then r (g - offset) s else before g s

variable {before r : Record} {offset : Nat}

theorem behind_add {group : Nat} (hg : 0 < group) (side : Side) :
    before.behind offset r (group + offset) side = r group side := by
  rw [behind, if_pos (Nat.lt_add_of_pos_left hg), Nat.add_sub_cancel]

theorem behind_empty (h : ∀ g, offset < g → before g = fun _ => none) :
    before.behind offset empty = before := by
  funext g s
  unfold behind
  split
  · rw [h g ‹_›]
    rfl
  · rfl

theorem behind_pass {group : Nat} (hg : 0 < group) (side : Side) (position : Nat) :
    before.behind offset (r.pass group side position) =
      (before.behind offset r).pass (group + offset) side position := by
  funext g s
  unfold behind pass
  grind

theorem span?_behind {group : Nat} (hg : 0 < group) :
    (before.behind offset r).span? (group + offset) = r.span? group := by
  rw [span?, behind_add hg, behind_add hg]
  rfl

end Record

/-- A node with its groups moved goes the same ways, and the moved groups pass what the
groups passed. -/
theorem Node.ways_renumber (h : Haystack) {n : Node} (hc : 0 ∉ n.captures)
    (hr : 0 ∉ n.references) (before : Record) (offset p : Nat) (r : Record) :
    (n.renumber offset).ways h p (before.behind offset r) =
      (n.ways h p r).map (Way.change (before.behind offset)) :=
  tracks_ways h
    (fun _ hg _ _ _ => Record.behind_pass (Nat.pos_of_ne_zero fun h0 => hc (h0 ▸ hg)) _ _)
    (fun _ hg _ => Record.span?_behind (Nat.pos_of_ne_zero fun h0 => hr (h0 ▸ hg))) p r

end FluentPattern
