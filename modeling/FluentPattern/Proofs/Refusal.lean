import FluentPattern.Proofs.Modifiers

/-!
# Refused contents

A unit takes one content. A call that gives it a second one is refused, and so is a call that has
nothing to give: an empty text, a class without members, or group zero. Of such a call only a
warning is left, behind what building its argument reports. The builder stays as it is, so a
pattern that is refused leaves neither its groups nor its engine behind.

Main statements: `Call.apply_refused`, `Call.builder_refused` (calls that are refused may be left
out).
-/

namespace FluentPattern

/-! ## Calls that only give a content -/

namespace Call

/-- Whether a call does nothing but give the unit in progress a content. White space is not such a
call, since it is a unit of its own where no quantity waits for it. -/
def OnlyGivesContent (c : Call) : Prop :=
  c.GivesContent ∧ c ≠ .word .space ∧ c ≠ .word .notSpace

/-- Whether a call has nothing to give. -/
def IsVoid : Call → Prop
  | .text w t => (w = .text ∨ w = .oneOf ∨ w = .noneOf) ∧ t = []
  | .count w n => w = .groupAgain ∧ n = 0
  | _ => False

/-- The pattern that a call builds before it gives it. -/
def argument? : Call → Option (Logged Builder)
  | .word .lineBreaks => some Builder.empty.lineBreak
  | .word .spaces => some Builder.empty.space
  | .word .notSpaces => some Builder.empty.notSpace
  | .word .tabs => some Builder.empty.tab
  | .word .digits => some Builder.empty.digit
  | .word .notDigits => some Builder.empty.notDigit
  | .pattern _ calls => some (applyAll .empty calls)
  | _ => none

/-- What building the argument of a call reports. -/
def argumentEvents (c : Call) : List Event :=
  c.argument?.elim [] Logged.events

end Call

/-- The warning of a unit that holds a content and is given another one by a move. -/
def Move.refusal (held : Content) : Move → Event
  | content c => .contentRefused held c
  | groupAgain group => .contentRefused held (.groupAgain group)
  | _ => .patternRefused held

/-- The warning of a call that has nothing to give. -/
def Call.voidWarning : Call → Event
  | .text .text _ => .textEmpty
  | .text w _ => .membersEmpty (w = .noneOf)
  | _ => .groupZero

/-- The warning that a refused call leaves on a builder, if the call is refused: it has nothing to
give, or the unit holds a content. -/
def Call.refusal? (b : Builder) (c : Call) : Option Event :=
  match c.moves with
  | [] => some c.voidWarning
  | m :: _ => b.pending.content.map m.refusal

/-! ## A unit that holds a content -/

namespace Builder

variable {b : Builder} {held : Content} (hb : b.pending.content = some held)

include hb

theorem withContent_of_some (c : Content) :
    b.withContent c = ⟨b, [.contentRefused held c]⟩ := by
  unfold withContent
  rw [hb]
  rfl

theorem groupAgain_of_some {group : Nat} (hgroup : group ≠ 0) :
    b.groupAgain group = ⟨b, [.contentRefused held (.groupAgain group)]⟩ := by
  unfold groupAgain
  rw [if_neg hgroup, withContent_of_some hb, hb, Option.isNone_some, Bool.or_false]
  rfl

theorem like_of_some (other : Builder) : b.like other = ⟨b, [.patternRefused held]⟩ := by
  unfold like
  rw [hb]
  rfl

theorem bind_like_of_some (other : Logged Builder) :
    other >>= b.like = ⟨b, other.events ++ [.patternRefused held]⟩ := by
  show (⟨(b.like other.value).value, other.events ++ (b.like other.value).events⟩ :
    Logged Builder) = _
  rw [like_of_some hb]

end Builder

/-- Whether a move gives the unit a content. -/
def Move.Gives : Move → Prop
  | content _ | like _ => True
  | groupAgain group => group ≠ 0
  | _ => False

/-- A unit without content takes the one that it is given. -/
theorem Move.hasContent_apply {m : Move} (hm : m.Gives) {b : Builder}
    (hb : b.pending.content = none) : (m.apply b).pending.hasContent = true := by
  cases m with
  | content c => rw [apply, Builder.value_withContent_of_idle hb]; rfl
  | groupAgain group => rw [apply, Builder.value_groupAgain_of_idle hb hm]; rfl
  | like other => rw [apply, Builder.value_like_of_idle hb]; rfl
  | _ => exact absurd hm id

/-! ## The call that is refused -/

theorem Move.level_refusal (held : Content) (m : Move) : (m.refusal held).level = .warn := by
  cases m <;> rfl

theorem Call.level_voidWarning (c : Call) : c.voidWarning.level = .warn := by
  rcases c with _ | ⟨w, t⟩ | _ | _ | _ | _ | _ | _
  case text => cases w <;> rfl
  all_goals rfl

/-- A word that gives a content gives it in one move, which a unit with a content refuses. -/
theorem Word.exists_gives {w : Word} (hw : w ∈ contents) (hspace : w ≠ .space)
    (hnotSpace : w ≠ .notSpace) :
    ∃ m : Move, w.moves = [m] ∧ m.Gives ∧ ∀ (b : Builder) (held : Content),
      b.pending.content = some held →
        w.apply b = ⟨b, (Call.word w).argumentEvents ++ [m.refusal held]⟩ := by
  cases w
  case space => exact absurd rfl hspace
  case notSpace => exact absurd rfl hnotSpace
  case anyChar | letters | notLetters | lowerLetters | upperLetters =>
    exact ⟨_, rfl, trivial, fun _ _ hb => Builder.withContent_of_some hb _⟩
  case lineBreaks | spaces | notSpaces | tabs | digits | notDigits =>
    exact ⟨_, rfl, trivial, fun _ _ hb => Builder.bind_like_of_some hb _⟩
  all_goals exact absurd hw (by decide)

/-- A call that only gives a content has nothing to give and says so, or gives it in one move,
which a unit with a content refuses. -/
theorem Call.void_or_gives {c : Call} (hc : c.OnlyGivesContent) :
    (c.IsVoid ∧ c.moves = [] ∧
      ∀ b : Builder, c.apply b = ⟨b, c.argumentEvents ++ [c.voidWarning]⟩) ∨
    (¬c.IsVoid ∧ ∃ m : Move, c.moves = [m] ∧ m.Gives ∧ ∀ (b : Builder) (held : Content),
      b.pending.content = some held →
        c.apply b = ⟨b, c.argumentEvents ++ [m.refusal held]⟩) := by
  obtain ⟨hgives, hspace, hnotSpace⟩ := hc
  cases c with
  | word w =>
    obtain ⟨m, hmoves, hm, happly⟩ := Word.exists_gives hgives
      (fun h => hspace (congrArg _ h)) (fun h => hnotSpace (congrArg _ h))
    refine .inr ⟨id, m, hmoves, hm, fun b held hb => ?_⟩
    rw [apply]
    exact happly b held hb
  | text w t =>
    cases t with
    | nil =>
      refine .inl ⟨⟨hgives, rfl⟩, ?_, fun b => ?_⟩
      · rcases hgives with rfl | rfl | rfl <;> rfl
      · rw [apply]
        rcases hgives with rfl | rfl | rfl <;> rfl
    | cons x t =>
      refine .inr ⟨fun h => List.cons_ne_nil x t h.2, ?_⟩
      rcases hgives with rfl | rfl | rfl
      all_goals
        refine ⟨_, rfl, trivial, fun b held hb => ?_⟩
        rw [apply]
        exact Builder.withContent_of_some hb _
  | count w n =>
    obtain rfl : w = .groupAgain := hgives
    by_cases hn : n = 0
    · refine .inl ⟨⟨rfl, hn⟩, if_pos hn, fun b => ?_⟩
      rw [apply]
      exact if_pos hn
    · refine .inr ⟨fun h => hn h.2, _, if_neg hn, hn, fun b held hb => ?_⟩
      rw [apply]
      exact Builder.groupAgain_of_some hb hn
  | range negated first last =>
    refine .inr ⟨id, ?_⟩
    cases negated
    all_goals
      refine ⟨_, rfl, trivial, fun b held hb => ?_⟩
      rw [apply]
      exact Builder.withContent_of_some hb _
  | pattern w calls =>
    obtain rfl : w = .like := hgives
    refine .inr ⟨id, _, rfl, trivial, fun b held hb => ?_⟩
    rw [apply]
    exact Builder.bind_like_of_some hb _
  | _ => exact absurd hgives id

/-- A call that is refused leaves nothing but a warning behind what building its argument
reports. -/
theorem Call.exists_apply_eq {c : Call} (hc : c.OnlyGivesContent) {b : Builder}
    (h : b.pending.hasContent = true ∨ c.IsVoid) :
    ∃ e : Event, c.refusal? b = some e ∧ e.level = .warn ∧
      c.apply b = ⟨b, c.argumentEvents ++ [e]⟩ := by
  obtain ⟨-, hmoves, happly⟩ | ⟨hvoid, m, hmoves, -, happly⟩ := void_or_gives hc
  · refine ⟨c.voidWarning, ?_, c.level_voidWarning, happly b⟩
    rw [refusal?, hmoves]
  · obtain ⟨held, hheld⟩ := Option.isSome_iff_exists.1 (h.resolve_right hvoid)
    refine ⟨m.refusal held, ?_, m.level_refusal held, happly b held hheld⟩
    rw [refusal?, hmoves, hheld]
    rfl

/-- A call that is not refused gives the unit its content. -/
theorem Call.hasContent_value_apply {c : Call} (hc : c.OnlyGivesContent) (hvoid : ¬c.IsVoid)
    {b : Builder} (hb : b.pending.content = none) :
    (c.apply b).value.pending.hasContent = true := by
  obtain ⟨m, hmoves, hm, -⟩ := ((void_or_gives hc).resolve_left fun h => hvoid h.1).2
  rw [value_apply, hmoves]
  exact m.hasContent_apply hm hb

/-- A call that only gives a content leaves the builder as it is if and only if the unit holds a
content or the call has nothing to give. Such a call reports exactly one thing besides what
building its argument reports, and that is a warning. -/
theorem Call.apply_refused {c : Call} (hc : c.OnlyGivesContent) (b : Builder) :
    ((c.apply b).value = b ↔ b.pending.hasContent = true ∨ c.IsVoid) ∧
    (b.pending.hasContent = true ∨ c.IsVoid →
      ∃ e : Event, c.refusal? b = some e ∧ e.level = .warn ∧
        c.apply b = ⟨b, c.argumentEvents ++ [e]⟩) := by
  refine ⟨⟨fun heq => ?_, fun h => ?_⟩, exists_apply_eq hc⟩
  · by_contra hnot
    obtain ⟨hidle, hvoid⟩ := not_or.1 hnot
    have hb : b.pending.content = none := by simpa [Fragment.hasContent] using hidle
    have hgiven := hasContent_value_apply hc hvoid hb
    rw [heq] at hgiven
    exact hidle hgiven
  · obtain ⟨e, -, -, happly⟩ := exists_apply_eq hc h
    rw [happly]

/-- A pattern with a group and a backreference, refused by a captured text: neither its group nor
the engine that it needs is left on the builder. -/
theorem Call.apply_refused_twice :
    let twice : List Call :=
      [.word .captured, .word .anyChar, .count .exactly 1, .count .groupAgain 1]
    let b := builder [.count .exactly 1, .text .text ['a'], .word .captured]
    ((Call.pattern .like twice).apply b).value = b ∧ b.groups = 1 ∧ b.extended = false := by
  intro twice b
  have h := (apply_refused (c := .pattern .like twice) ⟨rfl, nofun, nofun⟩ b).1
  exact ⟨h.2 (.inl rfl), rfl, rfl⟩

/-! ## Leaving refused calls out -/

/-- A unit that holds a content refuses one call after the other. -/
theorem Call.value_applyAll_refused : ∀ {calls : List Call}, (∀ c ∈ calls, c.OnlyGivesContent) →
    ∀ {b : Builder}, b.pending.hasContent = true → (applyAll b calls).value = b
  | [], _, b, _ => by rw [applyAll]; rfl
  | c :: calls, hcalls, b, hb => by
    obtain ⟨hc, hcalls⟩ := List.forall_mem_cons.1 hcalls
    obtain ⟨e, -, -, happly⟩ := exists_apply_eq hc (.inl hb)
    rw [applyAll, Logged.value_bind, happly]
    exact value_applyAll_refused hcalls hb

/-- A pattern is the same without the calls that its units refuse. -/
theorem Call.builder_refused {first refused : List Call}
    (hrefused : ∀ c ∈ refused, c.OnlyGivesContent)
    (hfirst : (builder first).pending.hasContent = true) (last : List Call) :
    builder (first ++ (refused ++ last)) = builder (first ++ last) := by
  rw [builder, builder, value_applyAll_append, value_applyAll_append, value_applyAll_append]
  exact congrArg (fun b => (applyAll b last).value) (value_applyAll_refused hrefused hfirst)

end FluentPattern
