import FluentPattern.Proofs.Copy
import FluentPattern.Proofs.Repetition

/-!
# Modifiers and contents

Whether a unit captures and how it repeats can be said before its content or after it, with the
same builder as the result. That is not plain for a capture around a pattern: said before, its
group is counted when the pattern is embedded, and said after, the pattern has been renumbered
without it and is renumbered by one more. White space is a content only if a quantity waits for
it; else it is a segment of its own, and the modifier stays for the next unit.

Main statements: `Built.shift_embedded` (renumbering by one more), `Modifier.apply_on`,
`Call.value_modifier_content`.
-/

namespace FluentPattern

/-! ## Contents -/

/-- The calls without an argument that give a unit its content. -/
def Word.contents : List Word :=
  [.anyChar, .lineBreaks, .space, .notSpace, .spaces, .notSpaces, .tabs, .digits, .notDigits,
    .letters, .notLetters, .lowerLetters, .upperLetters]

/-- Whether a call gives a unit its content. -/
def Call.GivesContent : Call → Prop
  | .word w => w ∈ Word.contents
  | .text w _ => w = .text ∨ w = .oneOf ∨ w = .noneOf
  | .count w _ => w = .groupAgain
  | .range .. => True
  | .pattern w _ => w = .like
  | _ => False

/-- Whether the numbers of the backreferences of a pattern fit in 64 bits behind some groups. -/
def Built.FitsBehind (groups : Nat) (p : Built) : Prop :=
  ∀ ds, Lexeme.reference ds ∈ lexemes p.literal → ds.readDecimal + groups ≤ Lexeme.largestGroup

/-- Whether the backreferences of a pattern that a call takes fit behind some groups. -/
def Call.FitsBehind (groups : Nat) : Call → Prop
  | .pattern _ calls => (build calls).value.FitsBehind groups
  | _ => True

/-- Whether a move gives a unit its content behind some groups. -/
def Move.GivesContent (groups : Nat) : Move → Prop
  | content c => c.IsGiven
  | groupAgain group => group ≠ 0
  | unit literal => literal = ['\\', 's'] ∨ literal = ['\\', 'S']
  | like other => other.IsFormed ∧ other.build.value.FitsBehind groups
  | _ => False

theorem Built.fitsBehind_of_countReferences {p : Built} (hp : countReferences p.literal = 0)
    (groups : Nat) : p.FitsBehind groups := by
  intro ds hds
  exact absurd rfl (List.countP_eq_zero.1 hp _ hds)

section

variable {groups : Nat}

theorem Word.givesContent_moves {w : Word} (hw : w ∈ contents) :
    ∃ m, w.moves = [m] ∧ m.GivesContent groups := by
  have unit (calls : List Call) (h : countReferences (Call.build calls).value.literal = 0) :
      (Move.like (Call.builder calls)).GivesContent groups :=
    ⟨Call.isFormed_builder calls, Built.fitsBehind_of_countReferences h groups⟩
  simp only [contents, List.mem_cons, List.not_mem_nil, or_false] at hw
  rcases hw with rfl | rfl | rfl | rfl | rfl | rfl | rfl | rfl | rfl | rfl | rfl | rfl | rfl
  · exact ⟨_, rfl, .anyChar⟩
  · exact ⟨_, rfl, unit [.word .lineBreak] (by decide +kernel)⟩
  · exact ⟨_, rfl, .inl rfl⟩
  · exact ⟨_, rfl, .inr rfl⟩
  · exact ⟨_, rfl, unit [.word .space] (by decide +kernel)⟩
  · exact ⟨_, rfl, unit [.word .notSpace] (by decide +kernel)⟩
  · exact ⟨_, rfl, unit [.word .tab] (by decide +kernel)⟩
  · exact ⟨_, rfl, unit [.word .digit] (by decide +kernel)⟩
  · exact ⟨_, rfl, unit [.word .notDigit] (by decide +kernel)⟩
  · exact ⟨_, rfl, .oneOf .letters⟩
  · exact ⟨_, rfl, .noneOf .letters⟩
  · exact ⟨_, rfl, .oneOf .lowerLetters⟩
  · exact ⟨_, rfl, .oneOf .upperLetters⟩

theorem Move.givesContent_ofText {content : Text → Content}
    (h : ∀ t, t ≠ [] → (content t).IsGiven) (t : Text) :
    ofText content t = [] ∨ ∃ m, ofText content t = [m] ∧ m.GivesContent groups := by
  cases t with
  | nil => exact .inl rfl
  | cons c t => exact .inr ⟨_, rfl, h _ (List.cons_ne_nil c t)⟩

/-- A call that gives a content makes at most one move. -/
theorem Call.givesContent_moves {c : Call} (hc : c.GivesContent) (hfit : c.FitsBehind groups) :
    c.moves = [] ∨ ∃ m, c.moves = [m] ∧ m.GivesContent groups := by
  cases c with
  | word w => exact .inr (Word.givesContent_moves hc)
  | text w t =>
    rcases hc with rfl | rfl | rfl
    · exact Move.givesContent_ofText Content.isGiven_ofText t
    · exact Move.givesContent_ofText Content.isGiven_ofMembers t
    · exact Move.givesContent_ofText Content.isGiven_ofExcluded t
  | count w n =>
    obtain rfl : w = .groupAgain := hc
    by_cases hn : n = 0
    · exact .inl (if_pos hn)
    · exact .inr ⟨_, if_neg hn, hn⟩
  | range negated first last =>
    cases negated with
    | false => exact .inr ⟨_, rfl, .oneOf (.range first last)⟩
    | true => exact .inr ⟨_, rfl, .noneOf (.range first last)⟩
  | pattern w calls =>
    obtain rfl : w = .like := hc
    exact .inr ⟨_, rfl, Call.isFormed_builder calls, hfit⟩
  | flag f => exact absurd hc id
  | textOperand w t => exact absurd hc id
  | patternOperand w calls => exact absurd hc id

end

/-! ## Renumbered contents -/

theorem Content.IsGiven.shift_eq {c : Content} (hc : c.IsGiven) (offset : Nat) :
    c.shift offset = c := by
  cases hc <;> rfl

theorem Content.shift_named {literal : Text}
    (h : literal = ['\\', 's'] ∨ literal = ['\\', 'S']) (offset : Nat) :
    (Content.pattern literal).shift offset = .pattern literal := by
  rcases h with rfl | rfl
  · rw [shift, shiftReferences_pair rfl, shiftReferences_nil]
  · rw [shift, shiftReferences_pair rfl, shiftReferences_nil]

/-- A pattern that is embedded behind some groups and renumbered is embedded behind more of
them. -/
theorem Built.shift_embedded {p : Built} (hp : p.literal.IsRow) {groups : Nat}
    (hfit : p.FitsBehind groups) (offset : Nat) :
    shiftReferences offset (p.embedded groups) = p.embedded (groups + offset) := by
  rw [embedded, shiftReferences_shiftReferences, Nat.add_comm]
  · rfl
  · exact fun ds hds _ => hfit ds (mem_lexemes_of_mem_scopedLiteral hp hds)

/-! ## Units without content -/

namespace Builder

/-- The builder whose unit has a content, which comes with some groups and perhaps needs the
extended engine. -/
def give (b : Builder) (c : Content) (groups : Nat) (extended : Bool) : Builder :=
  { b with pending := { b.pending with content := some c },
           groups := b.groups + groups,
           extended := b.extended || extended }

variable {b : Builder} (hb : b.pending.content = none)

include hb

theorem value_withContent_of_idle (c : Content) : (b.withContent c).value = b.give c 0 false := by
  rw [value_withContent, Fragment.setContent, hb, Option.none_or, give, Bool.or_false]
  rfl

theorem value_groupAgain_of_idle {group : Nat} (hgroup : group ≠ 0) :
    (b.groupAgain group).value = b.give (.groupAgain group) 0 true := by
  rw [value_groupAgain b hgroup, Fragment.setContent, hb]
  rfl

theorem value_like_of_idle (other : Builder) :
    (b.like other).value = b.give (.pattern (other.build.value.embedded b.groups))
      other.build.value.groups other.build.value.extended :=
  value_like_of_none b other hb

/-- White space is the content of a unit if a quantity waits for one. -/
theorem value_unit_of_idle (literal : Text) :
    (b.unit literal).value =
      if b.pending.hasQuantity then (b.withContent (.pattern literal)).value
      else (b.addSegment (.group literal)).value := by
  rw [value_unit, Fragment.hasContent, hb, Option.isSome_none, Bool.not_false, Bool.and_true]

end Builder

/-! ## Modifiers -/

namespace Modifier

/-- The builder whose unit has the modifier. -/
def on (b : Builder) : Modifier → Builder
  | reluctantly => b.reluctantly
  | captured => b.captured

/-- The number of groups that the modifier opens. -/
def opens (b : Builder) : Modifier → Nat
  | reluctantly => 0
  | captured => if b.pending.capture then 0 else 1

variable (m : Modifier)

theorem value_apply_call (b : Builder) : (m.call.apply b).value = m.on b := by
  cases m <;> rfl

theorem groups_on (b : Builder) : (m.on b).groups = b.groups + m.opens b := by
  cases m with
  | reluctantly => rfl
  | captured =>
    rw [on, opens, Builder.captured]
    cases b.pending.capture <;> rfl

theorem hasQuantity_on (b : Builder) :
    (m.on b).pending.hasQuantity = b.pending.hasQuantity := by
  cases m with
  | reluctantly => rfl
  | captured =>
    rw [on, Builder.captured]
    cases b.pending.capture <;> rfl

/-- A modifier before a content is the modifier after it, if the content that is given then is
renumbered behind the group that the modifier opens. -/
theorem give_on (b : Builder) (c : Content) (groups : Nat) (extended : Bool) :
    (m.on b).give (c.shift (m.opens b)) groups extended = m.on (b.give c groups extended) := by
  cases m with
  | reluctantly =>
    rw [opens, Content.shift_zero]
    rfl
  | captured =>
    unfold on opens Builder.captured
    cases hcapture : b.pending.capture with
    | true => simp [Builder.give, hcapture]
    | false =>
      simp [Builder.give, hcapture, Fragment.setCapture, Fragment.shiftGroups,
        Nat.add_right_comm]

variable {b : Builder} (hb : b.pending.content = none)

include hb

theorem content_on : (m.on b).pending.content = none := by
  cases m with
  | reluctantly => exact hb
  | captured =>
    rw [on, Builder.captured]
    split
    · exact hb
    · exact congrArg (Option.map _) hb

/-- A modifier stays for the next unit behind a segment. -/
theorem addSegment_on (s : Segment) :
    ((m.on b).addSegment s).value = m.on (b.addSegment s).value := by
  have hidle := m.content_on hb
  have hwritten : (m.on b).written = b.written := by
    rw [Builder.written, Builder.written, Fragment.segment?_eq, Fragment.segment?_eq, hidle, hb]
    cases m with
    | reluctantly => rfl
    | captured =>
      rw [on, Builder.captured]
      cases b.pending.capture <;> rfl
  rw [Builder.value_addSegment_eq, Builder.value_addSegment_eq, hwritten,
    Builder.waiting_of_idle hb, Builder.waiting_of_idle hidle]
  cases m with
  | reluctantly => rfl
  | captured =>
    rw [on, on, Builder.captured, Builder.captured]
    cases b.pending.capture <;> rfl

/-- A modifier may be said before or after a content. -/
theorem apply_on {mv : Move} (hmv : mv.GivesContent b.groups) :
    mv.apply (m.on b) = m.on (mv.apply b) := by
  have hidle := m.content_on hb
  have hgive {c : Content} (hc : c.shift (m.opens b) = c) (groups : Nat) (extended : Bool) :
      (m.on b).give c groups extended = m.on (b.give c groups extended) :=
    (congrArg ((m.on b).give · groups extended) hc.symm).trans (m.give_on b c groups extended)
  cases mv with
  | content c =>
    rw [Move.apply, Move.apply, Builder.value_withContent_of_idle hb,
      Builder.value_withContent_of_idle hidle]
    exact hgive (Content.IsGiven.shift_eq hmv _) 0 false
  | groupAgain group =>
    rw [Move.apply, Move.apply, Builder.value_groupAgain_of_idle hb hmv,
      Builder.value_groupAgain_of_idle hidle hmv]
    exact hgive rfl 0 true
  | unit literal =>
    rw [Move.apply, Move.apply, Builder.value_unit_of_idle hb, Builder.value_unit_of_idle hidle,
      hasQuantity_on]
    split
    · rw [Builder.value_withContent_of_idle hb, Builder.value_withContent_of_idle hidle]
      exact hgive (Content.shift_named hmv _) 0 false
    · exact m.addSegment_on hb _
  | like other =>
    obtain ⟨hother, hfit⟩ := hmv
    rw [Move.apply, Move.apply, Builder.value_like_of_idle hb, Builder.value_like_of_idle hidle,
      groups_on, ← Built.shift_embedded hother.isRow_literal hfit]
    exact m.give_on b (.pattern _) _ _
  | _ => exact absurd hmv id

end Modifier

/-- A modifier and a content may be said in either order on a builder with no content in
progress. The builder is the same, the groups of a pattern that is the content and its
backreferences included, if the numbers of these fit in 64 bits. -/
theorem Call.value_modifier_content (m : Modifier) {c : Call} (hc : c.GivesContent) {b : Builder}
    (hb : b.pending.content = none) (hfit : c.FitsBehind b.groups) :
    (applyAll b [m.call, c]).value = (applyAll b [c, m.call]).value := by
  show (c.apply (m.call.apply b).value).value = (m.call.apply (c.apply b).value).value
  rw [m.value_apply_call, m.value_apply_call, value_apply, value_apply]
  obtain hnone | ⟨mv, hmv, hgives⟩ := givesContent_moves hc hfit
  · rw [hnone]
    rfl
  · rw [hmv]
    exact m.apply_on hb hgives

/-- A captured character twice, said before or after the capture around it behind another
group. -/
theorem Call.value_captured_like_twice :
    let twice : List Call :=
      [.word .captured, .word .anyChar, .count .exactly 1, .count .groupAgain 1]
    let b := builder [.word .captured, .word .anyChar, .count .exactly 2]
    (applyAll b [.word .captured, .pattern .like twice]).value =
      (applyAll b [.pattern .like twice, .word .captured]).value := by
  intro twice b
  refine value_modifier_content .captured (c := .pattern .like twice) rfl rfl ?_
  intro ds hds
  have hl : (build twice).value.literal = "((?:.))(?:(?:\\1)\x7b1,1\x7d)".toList := by decide
  rw [hl] at hds
  obtain rfl : ds = ['1'] := by simpa [lexemes, Text.digits, Text.afterDigits] using hds
  decide

end FluentPattern
