import FluentPattern.Proofs.Alternation
import FluentPattern.Proofs.Matching.Units

/-!
# Repetitions

A unit between the ends of the input, with bounds for its number of repetitions: it matches
exactly the texts that are its content over and over, as often as the bounds allow. A class
without members is no content, so that no unit is written at all.

Main statements: `Builder.Prepares` (the unit in progress), `Repeated.reads_row`,
`Call.isMatch_repetition`.
-/

namespace FluentPattern

/-! ## Repeated units -/

/-- How the bounds of a quantity are given. -/
inductive Bounds where
  /-- One number for both. -/
  | exactly (n : Nat)
  /-- The lower bound. -/
  | atLeast (n : Nat)
  /-- The upper bound. -/
  | atMost (n : Nat)
  /-- The lower bound and then the upper bound. -/
  | between (least most : Nat)

namespace Bounds

/-- The calls that give them. -/
def calls : Bounds → List Call
  | exactly n => [.count .exactly n]
  | atLeast n => [.count .atLeast n]
  | atMost n => [.count .atMost n]
  | between least most => [.count .atLeast least, .count .atMost most]

/-- Whether a number is within the bounds. -/
def Admits (k : Nat) : Bounds → Prop
  | exactly n => k = n
  | atLeast n => n ≤ k
  | atMost n => k ≤ n
  | between least most => least ≤ k ∧ k ≤ most

instance (k : Nat) : (bounds : Bounds) → Decidable (bounds.Admits k)
  | exactly n => inferInstanceAs (Decidable (k = n))
  | atLeast n => inferInstanceAs (Decidable (n ≤ k))
  | atMost n => inferInstanceAs (Decidable (k ≤ n))
  | between least most => inferInstanceAs (Decidable (least ≤ k ∧ k ≤ most))

/-- The lower bound, if it is given. -/
def least? : Bounds → Option Nat
  | exactly n | atLeast n | between n _ => some n
  | atMost _ => none

/-- The upper bound, if it is given. -/
def most? : Bounds → Option Nat
  | exactly n | atMost n | between _ n => some n
  | atLeast _ => none

/-- The quantity that they are written as. -/
def quantity (bounds : Bounds) (greedy : Bool) : Quantity :=
  ⟨bounds.least?.getD 0, bounds.most?, greedy⟩

theorem admits_quantity (bounds : Bounds) (greedy : Bool) (k : Nat) :
    (bounds.quantity greedy).Admits k ↔ bounds.Admits k := by
  cases bounds <;> simp [Admits, Quantity.Admits, quantity, least?, most?]
  omega

/-- Bounds always give a quantity. -/
theorem quantity?_eq (bounds : Bounds) {f : Fragment} (hmin : f.min = bounds.least?)
    (hmax : f.max = bounds.most?) : f.quantity? = some (bounds.quantity !f.reluctant) := by
  rw [Fragment.quantity?, Fragment.hasQuantity, hmin, hmax]
  cases bounds <;> rfl

end Bounds

/-- What is repeated. -/
inductive Repeated where
  /-- A text. -/
  | text (t : Text)
  /-- One of some characters. -/
  | oneOf (members : Text)
  /-- Any character but some. -/
  | noneOf (members : Text)
  /-- Any character but a line feed. -/
  | anyChar

namespace Repeated

/-- The call that gives it. -/
def call : Repeated → Call
  | text t => .text .text t
  | oneOf members => .text .oneOf members
  | noneOf members => .text .noneOf members
  | anyChar => .word .anyChar

/-- Whether there is something to repeat: the text is not empty, and the class has members. -/
def IsGiven : Repeated → Prop
  | text t => t ≠ []
  | oneOf members | noneOf members => members ≠ []
  | anyChar => True

/-- Whether a text is what is repeated, over and over within the bounds. -/
def Spans (bounds : Bounds) (t : Text) : Repeated → Prop
  | text u => ∃ k, bounds.Admits k ∧ t = (List.replicate k u).flatten
  | oneOf members => bounds.Admits t.length ∧ ∀ c ∈ t, c ∈ members
  | noneOf members => bounds.Admits t.length ∧ ∀ c ∈ t, c ∉ members
  | anyChar => bounds.Admits t.length ∧ ∀ c ∈ t, c ≠ '\n'

end Repeated

/-- What else is said of a unit. -/
inductive Modifier where
  /-- It repeats as little as possible. -/
  | reluctantly
  /-- It captures what it matches. -/
  | captured

/-- The call that says it. -/
def Modifier.call : Modifier → Call
  | reluctantly => .word .reluctantly
  | captured => .word .captured

/-- The calls of a unit with bounds, with modifiers in any of their places. -/
def Repeated.calls (x : Repeated) (bounds : Bounds) (before between after : List Modifier) :
    List Call :=
  before.map Modifier.call ++ (bounds.calls ++ (between.map Modifier.call ++
    (x.call :: after.map Modifier.call)))

/-- A unit with bounds between the ends of the input. -/
def Call.repetition (x : Repeated) (bounds : Bounds) (before between after : List Modifier) :
    List Call :=
  .word .inputStart :: (x.calls bounds before between after ++ [.word .inputEnd])

/-! ## The built repetition -/

namespace Repeated

/-- The content of a unit. -/
def content : Repeated → Content
  | text t => .text t.escapeOutside
  | oneOf members => .oneOf members.escapeInside
  | noneOf members => .noneOf members.escapeInside
  | anyChar => .anyChar

theorem shift_content (x : Repeated) (offset : Nat) : x.content.shift offset = x.content := by
  cases x <;> rfl

theorem value_apply_call {x : Repeated} (hx : x.IsGiven) (b : Builder) :
    (x.call.apply b).value = { b with pending := b.pending.setContent x.content } := by
  rw [← Builder.value_withContent]
  cases x with
  | anyChar => rfl
  | text t => exact congrArg Logged.value (if_neg (by simpa [IsGiven] using hx))
  | oneOf members => exact congrArg Logged.value (if_neg (by simpa [IsGiven] using hx))
  | noneOf members => exact congrArg Logged.value (if_neg (by simpa [IsGiven] using hx))

end Repeated

/-- A builder that has written the start of the input, with a unit in progress that has some
bounds and, if it is given, a content. Whether it captures and how it repeats is left open. -/
structure Builder.Prepares (b : Builder) (least most : Option Nat) (x : Option Repeated) :
    Prop where
  segments_eq : b.segments = [.inputStart]
  held_eq : b.held = none
  min_eq : b.pending.min = least
  max_eq : b.pending.max = most
  content_eq : b.pending.content = x.map Repeated.content
  flags_eq : b.flags = {}
  extended_eq : b.extended = false

namespace Builder.Prepares

variable {b : Builder} {least most : Option Nat} {x : Option Repeated}

theorem modifier (hb : b.Prepares least most x) (m : Modifier) :
    (m.call.apply b).value.Prepares least most x := by
  obtain ⟨hsegments, hheld, hmin, hmax, hcontent, hflags, hextended⟩ := hb
  cases m with
  | reluctantly => exact ⟨hsegments, hheld, hmin, hmax, hcontent, hflags, hextended⟩
  | captured =>
    show b.captured.Prepares least most x
    unfold captured
    split
    · exact ⟨hsegments, hheld, hmin, hmax, hcontent, hflags, hextended⟩
    · refine ⟨hsegments, hheld, hmin, hmax, ?_, hflags, hextended⟩
      show b.pending.content.map (Content.shift 1) = _
      rw [hcontent, Option.map_map]
      exact congrArg (Option.map · x) (funext fun y => y.shift_content 1)

theorem modifiers (hb : b.Prepares least most x) (ms : List Modifier) :
    (Call.applyAll b (ms.map Modifier.call)).value.Prepares least most x := by
  induction ms generalizing b with
  | nil => exact hb
  | cons m ms ih => exact ih (hb.modifier m)

/-- A bound changes the bounds only: nothing is finished before a content is given. -/
theorem finished (hb : b.Prepares least most none) :
    b.written = b.segments ∧ b.waiting = b.pending :=
  ⟨written_of_idle hb.held_eq hb.content_eq, waiting_of_idle hb.content_eq⟩

theorem atLeast (hb : b.Prepares least most none) (n : Nat) :
    (b.atLeast n).value.Prepares (some n) most none := by
  rw [value_atLeast, hb.finished.1, hb.finished.2]
  exact ⟨hb.segments_eq, rfl, rfl, hb.max_eq, hb.content_eq, hb.flags_eq, hb.extended_eq⟩

theorem atMost (hb : b.Prepares least most none) (n : Nat) :
    (b.atMost n).value.Prepares least (some n) none := by
  rw [value_atMost, hb.finished.1, hb.finished.2]
  exact ⟨hb.segments_eq, rfl, hb.min_eq, rfl, hb.content_eq, hb.flags_eq, hb.extended_eq⟩

theorem exactly (hb : b.Prepares least most none) (n : Nat) :
    (b.exactly n).value.Prepares (some n) (some n) none := by
  rw [value_exactly, hb.finished.1, hb.finished.2]
  exact ⟨hb.segments_eq, rfl, rfl, rfl, hb.content_eq, hb.flags_eq, hb.extended_eq⟩

theorem bounds (hb : b.Prepares none none none) (bounds : Bounds) :
    (Call.applyAll b bounds.calls).value.Prepares bounds.least? bounds.most? none := by
  cases bounds with
  | exactly n => exact hb.exactly n
  | atLeast n => exact hb.atLeast n
  | atMost n => exact hb.atMost n
  | between least most => exact (hb.atLeast least).atMost most

theorem content (hb : b.Prepares least most none) {y : Repeated} (hy : y.IsGiven) :
    (y.call.apply b).value.Prepares least most (some y) := by
  rw [Repeated.value_apply_call hy]
  refine ⟨hb.segments_eq, hb.held_eq, hb.min_eq, hb.max_eq, ?_, hb.flags_eq, hb.extended_eq⟩
  show b.pending.content.or (some y.content) = _
  rw [hb.content_eq]
  rfl

theorem calls (hb : b.Prepares none none none) {y : Repeated} (hy : y.IsGiven) (bounds : Bounds)
    (before between after : List Modifier) :
    (Call.applyAll b (y.calls bounds before between after)).value.Prepares bounds.least?
      bounds.most? (some y) := by
  rw [Repeated.calls, Call.value_applyAll_append, Call.value_applyAll_append,
    Call.value_applyAll_append]
  exact ((((hb.modifiers before).bounds bounds).modifiers between).content hy).modifiers after

end Builder.Prepares

/-- A repetition is written as one unit between the ends of the input, and it needs no
extended engine. -/
theorem Call.build_repetition {x : Repeated} (hx : x.IsGiven) (bounds : Bounds)
    (before between after : List Modifier) :
    let p := (build (repetition x bounds before between after)).value
    p.flags = {} ∧ p.extended = false ∧ ∃ f : Fragment, f.min = bounds.least? ∧
      f.max = bounds.most? ∧
        p.literal = [.inputStart, f.segmentOf x.content, .inputEnd].flatMap Segment.text := by
  intro p
  have hstart : (Builder.empty.addSegment .inputStart).value.Prepares none none none :=
    ⟨rfl, rfl, rfl, rfl, rfl, rfl, rfl⟩
  have hunit := hstart.calls hx bounds before between after
  have hvalue := builder_framed (x.calls bounds before between after)
  generalize (applyAll (Builder.empty.addSegment .inputStart).value
    (x.calls bounds before between after)).value = b at hunit hvalue
  have hwaiting : b.waiting = {} := by
    rw [Builder.waiting, Fragment.hasContent, hunit.content_eq]
    rfl
  have hwrites := Builder.writes_addSegment hwaiting hunit.flags_eq .inputEnd
  have hwritten : b.written = [.inputStart, b.pending.segmentOf x.content] := by
    rw [Builder.written, Builder.heldSegments, hunit.segments_eq, hunit.held_eq,
      Fragment.segment?_eq, hunit.content_eq]
    rfl
  have hp : p = _ :=
    (congrArg (fun d : Builder => d.build.value) hvalue).trans hwrites.build
  rw [hp, hwritten]
  exact ⟨rfl, hunit.extended_eq, b.pending, hunit.min_eq, hunit.max_eq, rfl⟩

/-! ## The content of a repetition -/

namespace Repeated

/-- The pieces of the content. -/
def row : Repeated → Branch
  | text t => t.row
  | oneOf members => [.atom (.bracket ⟨false, members.map fun c => .range c c⟩)]
  | noneOf members => [.atom (.bracket ⟨true, members.map fun c => .range c c⟩)]
  | anyChar => [.atom .any]

/-- The words of the content. -/
def words : Repeated → Language Char
  | text t => {t}
  | oneOf members => CharSet.words ⟨members.map fun c => .range c c, false, false⟩
  | noneOf members => CharSet.words ⟨members.map fun c => .range c c, false, true⟩
  | anyChar => CharSet.notLineFeed.words

theorem spells_content {x : Repeated} (hx : x.IsGiven) : Spells x.content.literal [x.row] := by
  cases x with
  | text t => exact spells_escapeOutside t
  | anyChar => exact .single rfl .nil
  | oneOf members =>
    have hne : members ≠ [] := hx
    have hclass := Text.spells_class false hne
    rwa [classText, Token.membersText_map_ofChar] at hclass
  | noneOf members =>
    have hne : members ≠ [] := hx
    have hclass := Text.spells_class true hne
    rwa [classText, Token.membersText_map_ofChar] at hclass

theorem reads_row (x : Repeated) (h : Haystack) (engine : Engine) (groups : Nat) :
    ((Branch.lower engine .empty groups x.row).node.ways h).Reads h x.words := by
  cases x with
  | text t => exact Text.reads_row h engine groups rfl t
  | anyChar => exact Atom.reads h engine groups rfl
  | oneOf members => exact Atom.reads h engine groups rfl
  | noneOf members => exact Atom.reads h engine groups rfl

/-- Words in a row that the bounds admit are what the unit means. -/
theorem mem_powers_words (x : Repeated) (bounds : Bounds) (greedy : Bool) (t : Text) :
    t ∈ (bounds.quantity greedy).powers x.words ↔ x.Spans bounds t := by
  cases x with
  | text u =>
    refine (Quantity.mem_powers_singleton _).trans (exists_congr fun k => ?_)
    rw [bounds.admits_quantity]
  | oneOf members =>
    refine (Quantity.mem_powers_words _ _).trans ?_
    simp only [Spans, bounds.admits_quantity, CharSet.contains_ranges, iff_true]
  | noneOf members =>
    refine (Quantity.mem_powers_words _ _).trans ?_
    simp only [Spans, bounds.admits_quantity, CharSet.contains_ranges, Bool.true_eq_false,
      iff_false]
  | anyChar =>
    refine (Quantity.mem_powers_words _ _).trans ?_
    simp only [Spans, bounds.admits_quantity, CharSet.contains_notLineFeed]

end Repeated

/-! ## What a repetition matches -/

namespace Call

/-- A unit between the ends of the input, given with bounds and with or without modifiers,
matches exactly the texts that are its content over and over within the bounds, and its
query always answers. -/
theorem isMatch_repetition (x : Repeated) (hx : x.IsGiven) (bounds : Bounds)
    (before between after : List Modifier) {c : Compiled}
    (hc : (build (repetition x bounds before between after)).value.compile.value = .ok c)
    (t : Text) : ∃ a, c.isMatch t = .ok a ∧ (a = true ↔ x.Spans bounds t) := by
  obtain ⟨hflags, hbasic, f, hmin, hmax, hliteral⟩ :=
    build_repetition hx bounds before between after
  have hquantity := bounds.quantity?_eq hmin hmax
  have htree : Spells (build (repetition x bounds before between after)).value.literal
      [(Branch.ended [f.piece x.row]).begun] := by
    rw [hliteral]
    exact (f.spells_append (Repeated.spells_content hx) Segment.spells_inputEnd).begun
  obtain ⟨a, ha⟩ := exists_isMatch htree hc (t := t) hbasic
  refine ⟨a, ha, ?_⟩
  have hscope : (build (repetition x bounds before between after)).value.scope = .empty := by
    rw [Built.scope, hflags]
    rfl
  rw [isMatch_eq htree hc ha, hscope]
  refine (Branch.isSome_leftmost_framed t.toArray _ (f.flags_lower_piece ..)).trans ?_
  -- bounds in the wrong order do not compile, so the quantity means what it says
  have hmem : .quantity (bounds.quantity !f.reluctant) ∈
      ((Branch.ended [f.piece x.row]).begun).tokens := by
    simp [Branch.begun, Branch.ended, Fragment.piece, hquantity, Piece.times, Branch.tokens,
      Piece.tokens]
  have hordered := Quantity.isReversed_of_isPlain
    (Built.isPlain_of_compiles_basic htree hbasic ⟨c, hc⟩ hmem)
  have hreads (engine : Engine) :=
    Fragment.reads_piece (x.reads_row t.toArray engine) hquantity hordered 0
  rw [hreads _ 0 (Nat.zero_le _), Haystack.between_all, x.mem_powers_words]
  exact ⟨fun hspans => hspans.2.2, fun hspans => ⟨Nat.zero_le _, Nat.le_refl _, hspans⟩⟩

/-- A text with a special character, as little as possible and captured. -/
theorem isMatch_repetition_twice :
    let x : Repeated := .text ['a', '+']
    ∃ c, (build (repetition x (.between 1 2) [.reluctantly] [] [.captured])).value.compile.value =
      .ok c ∧ c.isMatch ['a', '+', 'a', '+'] = .ok true := by
  intro x
  obtain ⟨c, hc⟩ := Built.compiles_of_fault?
    (p := (build (repetition x (.between 1 2) [.reluctantly] [] [.captured])).value)
    (by decide +kernel)
  obtain ⟨a, ha, hspans⟩ := isMatch_repetition x (List.cons_ne_nil _ _) (.between 1 2)
    [.reluctantly] [] [.captured] hc ['a', '+', 'a', '+']
  obtain rfl : a = true := hspans.2 ⟨2, by decide, rfl⟩
  exact ⟨c, hc, ha⟩

/-- A class without members is no unit, although every character is outside it. -/
theorem not_isMatch_repetition_noneOf_nil :
    let x : Repeated := .noneOf []
    ∃ c, (build (repetition x (.exactly 1) [] [] [])).value.compile.value = .ok c ∧
      c.isMatch ['a'] = .ok false ∧ x.Spans (.exactly 1) ['a'] := by
  intro x
  obtain ⟨c, hc, ha⟩ := Built.exists_compiled
    (p := (build (repetition x (.exactly 1) [] [] [])).value)
    (f := fun c => c.isMatch ['a']) (a := .ok false) (by decide +kernel)
  exact ⟨c, hc, ha, rfl, fun _ _ => List.not_mem_nil⟩

end Call

end FluentPattern
