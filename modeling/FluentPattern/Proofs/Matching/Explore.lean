import FluentPattern.Proofs.Matching.Ways

/-!
# Backtracking explores the ways

A step hands the ways of a node to what comes after it, one after the other, until one is
accepted. So as long as the budget lasts the search from a position finds the first way.

Main statements: `Node.explores_step`.
-/

namespace FluentPattern

/-! ## The first answer in a list -/

section

variable {α β γ : Type}

theorem findSome?_flatMap (f : β → Option γ) (g : α → List β) (l : List α) :
    (l.flatMap g).findSome? f = l.findSome? fun a => (g a).findSome? f := by
  induction l with
  | nil => rfl
  | cons a l ih =>
    rw [List.flatMap_cons, List.findSome?_append, ih, List.findSome?_cons]
    cases (g a).findSome? f <;> rfl

theorem findSome?_filter (f : α → Option β) (keep : α → Bool) (l : List α) :
    (l.filter keep).findSome? f = l.findSome? fun a => if keep a then f a else none := by
  induction l with
  | nil => rfl
  | cons a l ih =>
    rw [List.filter_cons, List.findSome?_cons]
    cases keep a with
    | true => rw [if_pos rfl, if_pos rfl, List.findSome?_cons, ih]
    | false => exact ih

theorem findSome?_some (l : List α) : l.findSome? some = l.head? := by
  cases l <;> rfl

end

/-! ## Steps -/

/-- What a verdict tells about an answer: a match is the answer, no match is none, and a spent
budget tells nothing. -/
def Verdict.Tells (answer : Option Way) : Verdict → Prop
  | found stop marks _ => answer = some ⟨stop, marks.position?⟩
  | failed _ => answer = none
  | exhausted => True

/-- Going back to another way tells the first answer, or else the second. -/
theorem Verdict.Tells.orElse {a b : Option Way} {v : Verdict} (hv : v.Tells a)
    {next : Nat → Verdict} (hnext : ∀ budget, (next budget).Tells b) :
    (v.orElse next).Tells (a.or b) := by
  cases v with
  | found stop marks budget =>
    obtain rfl : a = _ := hv
    rfl
  | failed budget =>
    obtain rfl : a = none := hv
    cases budget with
    | zero => trivial
    | succ budget => exact hnext budget
  | exhausted => trivial

/-- The step tries the ways in order: if what comes after it tells `accept` of each way, the
step tells the first that is accepted. -/
def Step.Explores (s : Step) (w : Ways) : Prop :=
  ∀ p marks budget rest, ∀ accept : Way → Option Way,
    (∀ q marks budget, (rest q marks budget).Tells (accept ⟨q, Marks.position? marks⟩)) →
      (s p marks budget rest).Tells ((w p (Marks.position? marks)).findSome? accept)

namespace Step.Explores

variable {s first second : Step} {w v : Ways}

theorem unit : Step.unit.Explores Ways.unit := by
  intro p marks budget rest accept hrest
  rw [Ways.unit, List.findSome?_singleton]
  exact hrest p marks budget

theorem test (condition : Nat → Bool) : (Step.test condition).Explores (Ways.test condition) := by
  intro p marks budget rest accept hrest
  unfold Step.test Ways.test
  split
  · exact unit p marks budget rest accept hrest
  · rfl

theorem char (h : Haystack) (cs : CharSet) : (Step.char h cs).Explores (Ways.char h cs) := by
  intro p marks budget rest accept hrest
  unfold Step.char Ways.char
  cases h[p]? with
  | none => rfl
  | some c =>
    dsimp only
    split
    · rw [List.findSome?_singleton]
      exact hrest (p + 1) marks budget
    · rfl

theorem seq (hf : first.Explores v) (hs : second.Explores w) :
    (Step.seq first second).Explores (Ways.seq v w) := by
  intro p marks budget rest accept hrest
  rw [Ways.seq, findSome?_flatMap]
  exact hf p marks budget _ _ fun q marks budget => hs q marks budget rest accept hrest

theorem alt (hf : first.Explores v) (hs : second.Explores w) :
    (Step.alt first second).Explores (Ways.alt v w) := by
  intro p marks budget rest accept hrest
  rw [Ways.alt, List.findSome?_append]
  exact (hf p marks budget rest accept hrest).orElse
    fun budget => hs p marks budget rest accept hrest

theorem capture (hs : s.Explores w) (group : Nat) :
    (Step.capture group s).Explores (Ways.capture group w) := by
  intro p marks budget rest accept hrest
  rw [Ways.capture, List.findSome?_map, ← Marks.position?_cons]
  refine hs p _ budget _ _ fun q marks budget => ?_
  have h := hrest q (⟨group, .closing, q⟩ :: marks) budget
  rw [Marks.position?_cons] at h
  exact h

theorem look (hs : s.Explores w) (negated : Bool) :
    (Step.look negated s).Explores (Ways.look negated w) := by
  intro p marks budget rest accept hrest
  have hfound := hs p marks budget .found some fun q marks budget => rfl
  rw [findSome?_some] at hfound
  unfold Step.look Ways.look
  cases hv : s p marks budget .found with
  | found stop found budget =>
    rw [hv] at hfound
    rw [show (w p (Marks.position? marks)).head? = _ from hfound]
    cases negated with
    | true => rfl
    | false =>
      rw [List.findSome?_singleton]
      exact hrest p found budget
  | failed budget =>
    rw [hv] at hfound
    rw [show (w p (Marks.position? marks)).head? = none from hfound]
    cases negated with
    | false => rfl
    | true =>
      cases budget with
      | zero => trivial
      | succ budget =>
        rw [List.findSome?_singleton]
        exact hrest p marks budget
  | exhausted => cases negated <;> trivial

theorem groupAgain (h : Haystack) (group : Nat) :
    (Step.groupAgain h group).Explores (Ways.groupAgain h group) := by
  intro p marks budget rest accept hrest
  unfold Step.groupAgain Ways.groupAgain
  rw [Marks.span?_eq]
  cases Record.span? (Marks.position? marks) group with
  | none => rfl
  | some span =>
    dsimp only
    split
    · rw [List.findSome?_singleton]
      exact hrest _ marks budget
    · rfl

theorem orEmpty (hs : s.Explores w) (greedy : Bool) :
    (Step.orEmpty greedy s).Explores (Ways.orEmpty greedy w) := by
  unfold Step.orEmpty Ways.orEmpty
  split
  · exact hs.alt unit
  · exact unit.alt hs

theorem copies (hs : s.Explores w) (n : Nat) : (Step.copies s n).Explores (Ways.copies w n) := by
  induction n with
  | zero => exact unit
  | succ n ih => exact hs.seq ih

theorem upTo (hs : s.Explores w) (greedy : Bool) (n : Nat) :
    (Step.upTo greedy s n).Explores (Ways.upTo greedy w n) := by
  induction n with
  | zero => exact unit
  | succ n ih => exact (hs.seq ih).orEmpty greedy

theorem moving (hs : s.Explores w) : (Step.moving s).Explores (Ways.moving w) := by
  intro p marks budget rest accept hrest
  rw [Ways.moving, findSome?_filter]
  refine hs p marks budget _ _ fun q marks budget => ?_
  by_cases hlt : p < q
  · simpa [hlt] using hrest q marks budget
  · simp [hlt, Verdict.Tells]

theorem iterate (hs : s.Explores w) (greedy : Bool) (n : Nat) :
    (Step.iterate greedy s n).Explores (Ways.iterate greedy w n) := by
  induction n with
  | zero => exact unit
  | succ n ih => exact (hs.moving.seq ih).orEmpty greedy

theorem star (hs : s.Explores w) (h : Haystack) (greedy : Bool) :
    (Step.star h greedy s).Explores (Ways.star h.size greedy w) :=
  fun p => hs.iterate greedy (h.size - p + 1) p

theorem plus (hs : s.Explores w) (h : Haystack) (greedy : Bool) :
    (Step.plus h greedy s).Explores (Ways.plus h.size greedy w) := by
  intro p marks budget rest accept hrest
  rw [Ways.plus, findSome?_flatMap]
  refine hs p marks budget _ _ fun q marks budget => ?_
  dsimp only
  split
  · exact hs.star h greedy q marks budget rest accept hrest
  · rw [List.findSome?_singleton]
    exact hrest q marks budget

theorem times (hs : s.Explores w) (h : Haystack) (least : Nat) (more : Further) (greedy : Bool) :
    (Step.times h least more greedy s).Explores (Ways.times h.size least more greedy w) := by
  refine (hs.copies least).seq ?_
  cases more with
  | upTo n => exact hs.upTo greedy n
  | star => exact hs.star h greedy
  | plus => exact hs.plus h greedy

end Step.Explores

/-- Trying a node explores its ways. -/
theorem Node.explores_step (h : Haystack) (n : Node) : (n.step h).Explores (n.ways h) := by
  induction n with
  | empty => exact .unit
  | char s => exact .char h s
  | anchor a => exact .test _
  | seq first second hf hs => exact hf.seq hs
  | alt first second hf hs => exact hf.alt hs
  | capture group body hb => exact hb.capture group
  | look negated body hb => exact hb.look negated
  | groupAgain group => exact .groupAgain h group
  | times least further greedy body hb => exact hb.times h least further greedy

end FluentPattern
