import FluentPattern.Builder.Call

/-!
# Calls as basic moves

Every call on a builder is a short row of basic moves: a flag, a finished segment, a
bound, a content, a modifier, an alternative, an assertion, or dropping the run of
any characters that a later assertion replaces. What holds after every move so holds
after every call.

Main statements: `Call.value_apply` (a call makes its moves), `Call.holds_builder`
(what the moves keep holds of every builder that calls give).
-/

set_option linter.unusedSectionVars false

namespace FluentPattern

/-- A basic move on a builder. -/
inductive Move where
  | flag (f : Flag)
  | segment (s : Segment)
  | exactly (n : Nat)
  | atLeast (n : Nat)
  | atMost (n : Nat)
  | content (c : Content)
  | groupAgain (group : Nat)
  | unit (literal : Text)
  | like (other : Builder)
  | reluctantly
  | captured
  | either (other : Builder)
  | or (other : Builder)
  | look (opening : Opening) (other : Builder)
  | dropRun

/-- The builder without its fragment in progress, if that is a run of any characters. -/
def Builder.dropRun (b : Builder) : Builder :=
  if b.pending.isOpenAnyRun then { b with pending := {} } else b

/-- A run of any characters is nothing but its content. -/
theorem Fragment.of_isOpenAnyRun {f : Fragment} (h : f.isOpenAnyRun = true) :
    f.content = some .anyChar ∧ f.capture = false := by
  simp only [isOpenAnyRun, Bool.and_eq_true, beq_iff_eq, Bool.not_eq_true'] at h
  exact ⟨h.1.1.2, h.1.2⟩

/-- The builder after a move. -/
def Move.apply (b : Builder) : Move → Builder
  | flag f => b.withFlag f
  | segment s => (b.addSegment s).value
  | exactly n => (b.exactly n).value
  | atLeast n => (b.atLeast n).value
  | atMost n => (b.atMost n).value
  | content c => (b.withContent c).value
  | groupAgain group => (b.groupAgain group).value
  | unit literal => (b.unit literal).value
  | like other => (b.like other).value
  | reluctantly => b.reluctantly
  | captured => b.captured
  | either other => (b.either (.pattern other)).value
  | or other => (b.or (.pattern other)).value
  | look opening other => (b.look opening other).value
  | dropRun => b.dropRun

/-- The builder after some moves. -/
def Move.applyAll (b : Builder) (ms : List Move) : Builder :=
  ms.foldl Move.apply b

/-! ## The moves of a call -/

/-- The segments that calls add by themselves. -/
def Segment.units : List Segment :=
  [.group ['^'], .group ['$'], ⟨.group, [['\\', 'r', '\\', 'n'], ['\\', 'r'], ['\\', 'n']]⟩,
    .group ['\\', 't'], .group ['[', '0', '-', '9', ']'], .group ['[', '^', '0', '-', '9', ']']]

/-- The moves of a call without an argument. -/
def Word.moves : Word → List Move
  | ignoreCase => [.flag .ignoreCase]
  | multiLine => [.flag .multiLine]
  | everyMatch => [.flag .everyMatch]
  | inputStart => [.segment (.group ['^'])]
  | lineStart => [.flag .multiLine, .segment (.group ['^'])]
  | inputEnd => [.segment (.group ['$'])]
  | lineEnd => [.flag .multiLine, .segment (.group ['$'])]
  | anyChar => [.content .anyChar]
  | reluctantly => [.reluctantly]
  | captured => [.captured]
  | something => [.atLeast 1, .content .anyChar]
  | anything => [.atLeast 0, .content .anyChar]
  | any => [.exactly 1, .content .anyChar]
  | lineBreak => [.segment ⟨.group, [['\\', 'r', '\\', 'n'], ['\\', 'r'], ['\\', 'n']]⟩]
  | lineBreaks => [.like Builder.empty.lineBreak.value]
  | space => [.unit ['\\', 's']]
  | notSpace => [.unit ['\\', 'S']]
  | spaces => [.like Builder.empty.space.value]
  | notSpaces => [.like Builder.empty.notSpace.value]
  | tab => [.segment (.group ['\\', 't'])]
  | tabs => [.like Builder.empty.tab.value]
  | digit => [.segment (.group ['[', '0', '-', '9', ']'])]
  | notDigit => [.segment (.group ['[', '^', '0', '-', '9', ']'])]
  | digits => [.like Builder.empty.digit.value]
  | notDigits => [.like Builder.empty.notDigit.value]
  | letter => [.exactly 1, .content (.oneOf "A-Za-z".toList)]
  | notLetter => [.exactly 1, .content (.noneOf "A-Za-z".toList)]
  | letters => [.content (.oneOf "A-Za-z".toList)]
  | notLetters => [.content (.noneOf "A-Za-z".toList)]
  | lowerLetter => [.exactly 1, .content (.oneOf "a-z".toList)]
  | lowerLetters => [.content (.oneOf "a-z".toList)]
  | upperLetter => [.exactly 1, .content (.oneOf "A-Z".toList)]
  | upperLetters => [.content (.oneOf "A-Z".toList)]

/-- The move that gives a content made of a text; an empty text is no content. -/
def Move.ofText (content : Text → Content) (t : Text) : List Move :=
  if t.isEmpty then [] else [.content (content t)]

/-- A text, escaped, as content. -/
def Content.ofText (t : Text) : Content :=
  .text t.escapeOutside

/-- The characters of a text as the members of a class. -/
def Content.ofMembers (t : Text) : Content :=
  .oneOf t.escapeInside

/-- The characters of a text as the members that a class excludes. -/
def Content.ofExcluded (t : Text) : Content :=
  .noneOf t.escapeInside

/-- The moves of a run of characters that does not start with a text. -/
def Move.runWithout (least : Nat) : Text → List Move
  | [] => [.atLeast least, .content .anyChar]
  | [c] => [.atLeast least, .content (.ofExcluded [c])]
  | t => [.look .notAhead (Builder.empty.once t).value, .atLeast least, .content .anyChar]

/-- The moves of a call that takes a text. -/
def TextWord.moves (t : Text) : TextWord → List Move
  | text => Move.ofText .ofText t
  | oneOf => Move.ofText .ofMembers t
  | noneOf => Move.ofText .ofExcluded t
  | once => .exactly 1 :: Move.ofText .ofText t
  | someOf => .atLeast 1 :: Move.ofText .ofMembers t
  | maybeSomeOf => .atLeast 0 :: Move.ofText .ofMembers t
  | maybe => .atMost 1 :: Move.ofText .ofText t
  | anythingBut => Move.runWithout 0 t
  | somethingBut => Move.runWithout 1 t

/-- The moves of a call that takes a number. -/
def CountWord.moves (n : Nat) : CountWord → List Move
  | exactly => [.exactly n]
  | atLeast => [.atLeast n]
  | atMost => [.atMost n]
  | groupAgain => if n = 0 then [] else [.groupAgain n]

/-- The moves of a call that takes a pattern. -/
def PatternWord.moves (other : Builder) : PatternWord → List Move
  | like => [.like other]
  | ahead => [.look .ahead other]
  | notAhead => [.look .notAhead other]
  | append => [.exactly 1, .like other]
  | optional => [.atMost 1, .like other]

/-- The moves of a call that takes an operand, given as a builder. -/
def OperandWord.moves (other : Builder) : OperandWord → List Move
  | either => [.either other]
  | or => [.or other]
  | neither => [.look .notAhead other]
  | nor => [.dropRun, .look .notAhead other, .atLeast 0, .content .anyChar]

/-- The moves of a call. -/
def Call.moves : Call → List Move
  | .word w => w.moves
  | .text w t => w.moves t
  | .count w n => w.moves n
  | .range false first last => [.content (.oneOf (Text.rangeMembers first last))]
  | .range true first last => [.content (.noneOf (Text.rangeMembers first last))]
  | .flag f => [.flag f]
  | .pattern w calls => w.moves (Call.builder calls)
  | .textOperand w t => w.moves (Builder.empty.once t).value
  | .patternOperand w calls => w.moves (Call.builder calls)

/-! ## A call makes its moves -/

theorem Word.value_apply (b : Builder) (w : Word) :
    (w.apply b).value = Move.applyAll b w.moves := by
  cases w <;> rfl

theorem Move.applyAll_ofText (b : Builder) (t : Text) :
    Move.applyAll b (Move.ofText .ofText t) = (b.text t).value := by
  cases t <;> rfl

theorem Move.applyAll_ofMembers (b : Builder) (t : Text) :
    Move.applyAll b (Move.ofText .ofMembers t) = (b.oneOf t).value := by
  cases t <;> rfl

theorem Move.applyAll_ofExcluded (b : Builder) (t : Text) :
    Move.applyAll b (Move.ofText .ofExcluded t) = (b.noneOf t).value := by
  cases t <;> rfl

theorem Move.applyAll_runWithout (b : Builder) (least : Nat) (t : Text) :
    Move.applyAll b (Move.runWithout least t) = (b.runWithout least t).value := by
  rcases t with _ | ⟨c, _ | ⟨d, t⟩⟩ <;> rfl

theorem TextWord.value_apply (b : Builder) (t : Text) (w : TextWord) :
    (w.apply b t).value = Move.applyAll b (w.moves t) := by
  cases w with
  | text => exact (Move.applyAll_ofText b t).symm
  | oneOf => exact (Move.applyAll_ofMembers b t).symm
  | noneOf => exact (Move.applyAll_ofExcluded b t).symm
  | once => exact (Move.applyAll_ofText (b.exactly 1).value t).symm
  | someOf => exact (Move.applyAll_ofMembers (b.atLeast 1).value t).symm
  | maybeSomeOf => exact (Move.applyAll_ofMembers (b.atLeast 0).value t).symm
  | maybe => exact (Move.applyAll_ofText (b.atMost 1).value t).symm
  | anythingBut => exact (Move.applyAll_runWithout b 0 t).symm
  | somethingBut => exact (Move.applyAll_runWithout b 1 t).symm

theorem CountWord.value_apply (b : Builder) (n : Nat) (w : CountWord) :
    (w.apply b n).value = Move.applyAll b (w.moves n) := by
  cases w with
  | groupAgain =>
    by_cases hn : n = 0
    · rw [hn]
      rfl
    · simp only [CountWord.moves, if_neg hn]
      rfl
  | _ => rfl

theorem PatternWord.value_apply (b other : Builder) (w : PatternWord) :
    (w.apply b other).value = Move.applyAll b (w.moves other) := by
  cases w <;> rfl

/-- The builder as `or` leaves it before it drops a fragment without content: content
after a held alternative is finished behind it. -/
def Builder.finishForOr (b : Builder) : Builder :=
  (if b.pending.hasContent then b.releaseHeld.value else b).finishFragment.value

/-- An alternative is embedded after the fragment is finished or dropped. -/
theorem Builder.value_or (b : Builder) (operand : Operand) :
    (b.or operand).value =
      let embedded := (b.finishForOr.dropFragment.value.embed (ofOperand operand).value).value
      (embedded.2.placeAlternative (['(', '?', ':'] ++ embedded.1 ++ [')'])).value := by
  unfold Builder.or Builder.finishForOr
  cases b.pending.hasContent
  · simp only [Bool.false_eq_true, if_false, Logged.value_bind, Logged.value_pure]
    cases b.finishFragment.value.pending.hasQuantity <;> rfl
  · simp only [if_true, Logged.value_bind]
    cases b.releaseHeld.value.finishFragment.value.pending.hasQuantity <;> rfl

theorem OperandWord.value_apply (b : Builder) (operand : Operand) (w : OperandWord) :
    (w.apply b operand).value =
      Move.applyAll b (w.moves (Builder.ofOperand operand).value) := by
  cases w with
  | or => exact (b.value_or operand).trans (b.value_or (.pattern _)).symm
  | _ => rfl

/-- A call makes its moves. -/
theorem Call.value_apply (b : Builder) (c : Call) :
    (c.apply b).value = Move.applyAll b c.moves := by
  cases c with
  | word w => rw [Call.apply]; exact w.value_apply b
  | text w t => rw [Call.apply]; exact w.value_apply b t
  | count w n => rw [Call.apply]; exact w.value_apply b n
  | range negated first last => cases negated <;> (rw [Call.apply]; rfl)
  | flag f => rw [Call.apply]; rfl
  | pattern w calls => rw [Call.apply]; exact w.value_apply b _
  | textOperand w t => rw [Call.apply]; exact w.value_apply b (.text t)
  | patternOperand w calls => rw [Call.apply]; exact w.value_apply b (.pattern _)

/-- Calls make their moves in order. -/
theorem Call.value_applyAll (b : Builder) (calls : List Call) :
    (Call.applyAll b calls).value = Move.applyAll b (calls.flatMap Call.moves) := by
  induction calls generalizing b with
  | nil => rw [Call.applyAll]; rfl
  | cons c calls ih =>
    rw [Call.applyAll, List.flatMap_cons, Move.applyAll, List.foldl_append]
    refine (ih _).trans ?_
    rw [Call.value_apply]
    rfl

/-! ## What the moves of a call are like -/

/-- The members of a class as calls write them. -/
inductive Text.IsMembers : Text → Prop
  | chars {t : Text} : t ≠ [] → IsMembers t.escapeInside
  | range (first last : Char) : IsMembers (Text.rangeMembers first last)
  | letters : IsMembers ['A', '-', 'Z', 'a', '-', 'z']
  | lowerLetters : IsMembers ['a', '-', 'z']
  | upperLetters : IsMembers ['A', '-', 'Z']

/-- A content as calls write it, embedded patterns and backreferences apart. -/
inductive Content.IsGiven : Content → Prop
  | text {t : Text} : t ≠ [] → IsGiven (.text t.escapeOutside)
  | anyChar : IsGiven .anyChar
  | oneOf {t : Text} : t.IsMembers → IsGiven (.oneOf t)
  | noneOf {t : Text} : t.IsMembers → IsGiven (.noneOf t)

/-- Whether a move can be one of a call, where `P` holds of the builders that calls
take. -/
def Move.Allowed (P : Builder → Prop) : Move → Prop
  | segment s => s ∈ Segment.units
  | content c => c.IsGiven
  | groupAgain group => group ≠ 0
  | unit literal => literal = ['\\', 's'] ∨ literal = ['\\', 'S']
  | like other | either other | or other => P other
  | look opening other => (opening = .ahead ∨ opening = .notAhead) ∧ P other
  | _ => True

theorem Move.Allowed.mono {P Q : Builder → Prop} (h : ∀ b, P b → Q b) {m : Move}
    (hm : m.Allowed P) : m.Allowed Q := by
  cases m with
  | like other => exact h _ hm
  | either other => exact h _ hm
  | or other => exact h _ hm
  | look opening other => exact ⟨hm.1, h _ hm.2⟩
  | _ => exact hm

theorem Move.holds_applyAll {P : Builder → Prop}
    (hmove : ∀ b m, P b → Move.Allowed P m → P (m.apply b)) :
    ∀ (ms : List Move) (b : Builder), P b → (∀ m ∈ ms, m.Allowed P) → P (Move.applyAll b ms)
  | [], _, hb, _ => hb
  | m :: ms, b, hb, hms =>
    holds_applyAll hmove ms (m.apply b) (hmove b m hb (hms m List.mem_cons_self))
      fun x hx => hms x (List.mem_cons_of_mem _ hx)

section

variable {P : Builder → Prop}

theorem Move.allowed_ofText {content : Text → Content} (h : ∀ t, t ≠ [] → (content t).IsGiven)
    (t : Text) : ∀ m ∈ Move.ofText content t, m.Allowed P := by
  intro m hm
  cases t with
  | nil => exact absurd hm List.not_mem_nil
  | cons c t =>
    rw [List.mem_singleton.1 hm]
    exact h _ (List.cons_ne_nil c t)

theorem Content.isGiven_ofText (t : Text) (ht : t ≠ []) : (Content.ofText t).IsGiven :=
  .text ht

theorem Content.isGiven_ofMembers (t : Text) (ht : t ≠ []) : (Content.ofMembers t).IsGiven :=
  .oneOf (.chars ht)

theorem Content.isGiven_ofExcluded (t : Text) (ht : t ≠ []) : (Content.ofExcluded t).IsGiven :=
  .noneOf (.chars ht)

theorem CountWord.allowed_moves (n : Nat) (w : CountWord) : ∀ m ∈ w.moves n, m.Allowed P := by
  intro m hm
  cases w with
  | groupAgain =>
    by_cases hn : n = 0
    · simp [CountWord.moves, hn] at hm
    · obtain rfl : m = .groupAgain n := by simpa [CountWord.moves, hn] using hm
      exact hn
  | _ =>
    rw [List.mem_singleton.1 hm]
    exact trivial

theorem PatternWord.allowed_moves {other : Builder} (ho : P other) (w : PatternWord) :
    ∀ m ∈ w.moves other, m.Allowed P := by
  intro m hm
  cases w <;> simp only [PatternWord.moves, List.mem_cons, List.not_mem_nil, or_false] at hm
  all_goals
    rcases hm with rfl | rfl
  all_goals simp [Move.Allowed, ho]

theorem OperandWord.allowed_moves {other : Builder} (ho : P other) (w : OperandWord) :
    ∀ m ∈ w.moves other, m.Allowed P := by
  intro m hm
  cases w <;> simp only [OperandWord.moves, List.mem_cons, List.not_mem_nil, or_false] at hm
  all_goals
    rcases hm with rfl | rfl | rfl | rfl
  all_goals simp [Move.Allowed, ho, Content.IsGiven.anyChar]

variable (hempty : P .empty) (hmove : ∀ b m, P b → Move.Allowed P m → P (m.apply b))
include hempty hmove

theorem Builder.holds_once (t : Text) : P (Builder.empty.once t).value := by
  rw [show (Builder.empty.once t).value = Move.applyAll .empty (TextWord.once.moves t) from
    TextWord.value_apply .empty t .once]
  refine Move.holds_applyAll hmove _ _ hempty fun m hm => ?_
  rcases List.mem_cons.1 hm with rfl | hm
  · exact trivial
  · exact Move.allowed_ofText Content.isGiven_ofText t m hm

theorem Word.allowed_moves (w : Word) : ∀ m ∈ w.moves, m.Allowed P := by
  have one (m : Move) (hm : m.Allowed P) : P (m.apply .empty) := hmove _ _ hempty hm
  intro m hm
  cases w <;> simp only [Word.moves, List.mem_cons, List.not_mem_nil, or_false] at hm
  -- the words that embed a unit of their own first, since these need `P` of it
  case lineBreaks | tabs | digits | notDigits =>
    rw [hm]
    exact one (.segment _) (by simp [Move.Allowed, Segment.units])
  case spaces =>
    rw [hm]
    exact one (.unit _) (.inl rfl)
  case notSpaces =>
    rw [hm]
    exact one (.unit _) (.inr rfl)
  all_goals
    rcases hm with rfl | rfl
  all_goals simp [Move.Allowed, Segment.units, Content.IsGiven.anyChar, Content.IsGiven.oneOf,
    Content.IsGiven.noneOf, Text.IsMembers.letters, Text.IsMembers.lowerLetters,
    Text.IsMembers.upperLetters]

theorem Move.allowed_runWithout (least : Nat) (t : Text) :
    ∀ m ∈ Move.runWithout least t, m.Allowed P := by
  intro m hm
  rcases t with _ | ⟨c, _ | ⟨d, t⟩⟩ <;>
    simp only [Move.runWithout, List.mem_cons, List.not_mem_nil, or_false] at hm
  · rcases hm with rfl | rfl
    · exact trivial
    · exact Content.IsGiven.anyChar
  · rcases hm with rfl | rfl
    · exact trivial
    · exact Content.isGiven_ofExcluded [c] (List.cons_ne_nil c [])
  · rcases hm with rfl | rfl | rfl
    · exact ⟨.inr rfl, Builder.holds_once hempty hmove _⟩
    · exact trivial
    · exact Content.IsGiven.anyChar

theorem TextWord.allowed_moves (t : Text) (w : TextWord) : ∀ m ∈ w.moves t, m.Allowed P := by
  have after {ms : List Move} {m : Move} (hm : m.Allowed P) (h : ∀ x ∈ ms, x.Allowed P) :
      ∀ x ∈ m :: ms, x.Allowed P := by
    intro x hx
    rcases List.mem_cons.1 hx with rfl | hx
    · exact hm
    · exact h x hx
  have text := Move.allowed_ofText (P := P) Content.isGiven_ofText t
  have members := Move.allowed_ofText (P := P) Content.isGiven_ofMembers t
  have excluded := Move.allowed_ofText (P := P) Content.isGiven_ofExcluded t
  cases w with
  | text => exact text
  | oneOf => exact members
  | noneOf => exact excluded
  | once => exact after trivial text
  | someOf => exact after trivial members
  | maybeSomeOf => exact after trivial members
  | maybe => exact after trivial text
  | anythingBut => exact Move.allowed_runWithout hempty hmove 0 t
  | somethingBut => exact Move.allowed_runWithout hempty hmove 1 t

mutual

/-- The moves of a call are allowed where `P` is what all moves keep. -/
theorem Call.allowed_moves : ∀ c : Call, ∀ m ∈ c.moves, m.Allowed P
  | .word w => w.allowed_moves hempty hmove
  | .text w t => w.allowed_moves hempty hmove t
  | .count w n => w.allowed_moves n
  | .range false first last => fun _ hm =>
    List.mem_singleton.1 hm ▸ Content.IsGiven.oneOf (.range first last)
  | .range true first last => fun _ hm =>
    List.mem_singleton.1 hm ▸ Content.IsGiven.noneOf (.range first last)
  | .flag _ => fun _ hm => List.mem_singleton.1 hm ▸ trivial
  | .pattern w calls => w.allowed_moves (Call.holds_applyAll calls .empty hempty)
  | .textOperand w t => w.allowed_moves (Builder.holds_once hempty hmove t)
  | .patternOperand w calls => w.allowed_moves (Call.holds_applyAll calls .empty hempty)

/-- What all moves keep, calls keep. -/
theorem Call.holds_applyAll : ∀ (calls : List Call) (b : Builder), P b →
    P (Call.applyAll b calls).value
  | [], b, hb => by
    rw [Call.applyAll]
    exact hb
  | c :: calls, b, hb => by
    have hc : P (c.apply b).value := by
      rw [Call.value_apply]
      exact Move.holds_applyAll hmove _ _ hb (Call.allowed_moves c)
    rw [Call.applyAll]
    exact Call.holds_applyAll calls _ hc

end

/-- What the empty builder has and all moves keep, every builder that calls give has. -/
theorem Call.holds_builder (calls : List Call) : P (Call.builder calls) :=
  Call.holds_applyAll hempty hmove calls .empty hempty

end

end FluentPattern
