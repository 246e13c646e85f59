import FluentPattern.Proofs.Structure
import Mathlib.Data.List.DropRight

/-!
# The contents of a pattern

The contents of a builder are what its alternatives, its held alternative and its
fragment in progress match, without the groups, quantities and captures around them.
Calls only add contents at the end: what is finished, held or released on the way keeps
its place.

Main statements: `Builder.contents_eq` (the contents are those of all that the builder
would write now), `Builder.contents_apply` (what a move adds), `Call.contents_value_apply`.
-/

namespace FluentPattern

/-! ## Contents -/

/-- A text without the group around it that captures nothing and without the quantity of
that group; a text that has no such group is itself. -/
def Text.unwrapped : Text → Text
  | '(' :: '?' :: ':' :: t => (t.rdropWhile (· != ')')).dropLast
  | t => t

/-- What the alternatives of a segment match. The pattern of an assertion stands in the
group of its segment only. -/
def Segment.contents (s : Segment) : List Text :=
  match s.opening with
  | .group | .capture => s.alternatives.map Text.unwrapped
  | .ahead | .notAhead => s.alternatives.take 1 ++ (s.alternatives.drop 1).map Text.unwrapped

/-- What the segments match, then the held alternative, then the content in progress. -/
def Builder.contents (b : Builder) : List Text :=
  b.segments.flatMap Segment.contents ++ b.held.toList ++
    (b.pending.content.map Content.literal).toList

theorem Text.unwrapped_wrapped_append {t q : Text} (hq : ')' ∉ q) :
    (t.wrapped ++ q).unwrapped = t := by
  have hdrop : (t ++ ')' :: q).rdropWhile (· != ')') = t ++ [')'] := by
    rw [List.rdropWhile, List.reverse_append, List.reverse_cons, List.append_assoc,
      List.dropWhile_append_of_pos]
    · simp
    · intro c hc
      rw [bne_iff_ne]
      rintro rfl
      exact hq (List.mem_reverse.1 hc)
  have hw : t.wrapped ++ q = '(' :: '?' :: ':' :: (t ++ ')' :: q) := by
    simp [wrapped]
  rw [hw, unwrapped, hdrop, List.dropLast_concat]

@[simp] theorem Text.unwrapped_wrapped (t : Text) : t.wrapped.unwrapped = t := by
  have h := unwrapped_wrapped_append (t := t) (q := []) (by simp)
  rwa [List.append_nil] at h

theorem Fragment.not_mem_quantity (f : Fragment) : ')' ∉ f.quantity ++ f.reluctance := by
  have digits (n : Nat) : ')' ∉ Text.decimal n := fun h =>
    absurd (Text.isDigit_of_mem_decimal h) (by decide)
  unfold quantity reluctance
  cases f.min <;> cases f.max <;> cases f.reluctant && f.hasQuantity <;> simp [digits]

@[simp] theorem Fragment.contents_segmentOf (f : Fragment) (c : Content) :
    (f.segmentOf c).contents = [c.literal] := by
  have hu : (c.literal.wrapped ++ f.quantity ++ f.reluctance).unwrapped = c.literal := by
    rw [List.append_assoc]
    exact Text.unwrapped_wrapped_append f.not_mem_quantity
  unfold segmentOf Segment.contents
  cases f.capture <;> simp only [Bool.false_eq_true, if_true, if_false, List.map_singleton, hu]

/-- The contents are those of all that the builder would write now. -/
theorem Builder.contents_eq (b : Builder) : b.contents = b.written.flatMap Segment.contents := by
  unfold contents written heldSegments
  rw [Fragment.segment?_eq, List.flatMap_append, List.flatMap_append]
  congr 1
  · congr 1
    cases b.held <;> simp [Segment.contents, Segment.group]
  · cases b.pending.content <;> simp

/-- One more alternative is one more content. -/
theorem Segment.contents_push {s : Segment} (hs : s.alternatives ≠ []) (t : Text) :
    (s.push t).contents = s.contents ++ [t.unwrapped] := by
  obtain ⟨o, ts⟩ := s
  cases ts with
  | nil => exact absurd rfl hs
  | cons u ts => cases o <;> simp [contents, push]

theorem contents_addAlternative {ss : List Segment} (h : ∀ s ∈ ss, s.IsFormed) (t : Text) :
    (addAlternative ss t.wrapped).flatMap Segment.contents =
      ss.flatMap Segment.contents ++ [t] := by
  unfold addAlternative
  split
  · rename_i last hl
    have hss : ss.dropLast ++ [last] = ss := List.dropLast_append_getLast? last hl
    have hlast := (h last (List.mem_of_getLast? hl)).ne_nil
    conv_rhs => rw [← hss]
    rw [List.flatMap_append, List.flatMap_append, List.flatMap_singleton, List.flatMap_singleton,
      Segment.contents_push hlast, Text.unwrapped_wrapped, List.append_assoc]
  · rename_i hl
    rw [List.getLast?_eq_none_iff.1 hl]
    simp [Segment.contents, Segment.group]

/-! ## What a move adds -/

/-- A content as the fragment in progress takes it: not at all if it has one. -/
def Builder.accepted (b : Builder) (t : Text) : List Text :=
  if b.pending.hasContent then [] else [t]

/-- The contents that a move supplies and the builder accepts. -/
def Move.supplies (b : Builder) : Move → List Text
  | segment s => s.contents
  | content c => b.accepted c.literal
  | groupAgain group => b.accepted (Content.groupAgain group).literal
  | unit literal => [literal]
  | like other => b.accepted (other.build.value.embedded b.groups)
  | either other | or other | look _ other => [other.build.value.embedded b.keptGroups]
  | _ => []

/-- The contents that a move keeps: all of them, but a capture renumbers the pattern in
progress, and `dropRun` drops a run of any characters. -/
def Move.keeps (b : Builder) : Move → List Text
  | captured =>
    if b.pending.capture then b.contents
    else Builder.contents { b with pending := b.pending.shiftGroups 1 }
  | dropRun => b.dropRun.contents
  | _ => b.contents

namespace Builder

variable (b : Builder)

theorem contents_of_segments (ss : List Segment) (groups : Nat) (flags : Flags) {f : Fragment}
    (hf : f.content = none) (extended : Bool) :
    contents ⟨ss, groups, flags, f, none, extended⟩ = ss.flatMap Segment.contents := by
  simp [contents, hf]

/-- Writing what is in progress neither adds nor drops a content. -/
theorem contents_of_written {groups : Nat} {flags : Flags} {f : Fragment} (hf : f.content = none)
    {extended : Bool} :
    contents ⟨b.written, groups, flags, f, none, extended⟩ = b.contents ++ [] := by
  rw [contents_of_segments _ _ _ hf, List.append_nil, contents_eq]

theorem contents_addSegment (s : Segment) :
    (b.addSegment s).value.contents = b.contents ++ s.contents := by
  rw [value_addSegment_eq, contents_of_segments _ _ _ b.content_waiting, List.flatMap_append,
    List.flatMap_singleton, contents_eq]

theorem contents_setContent (c : Content) (groups : Nat) (extended : Bool) :
    contents { b with pending := b.pending.setContent c, groups := groups, extended := extended } =
      b.contents ++ b.accepted c.literal := by
  unfold contents accepted Fragment.hasContent
  cases h : b.pending.content <;> simp [Fragment.setContent, h]

/-- What is kept of the contents, then what is supplied. -/
theorem contents_apply (hb : b.IsFormed) {m : Move} (hm : m.Allowed Builder.IsFormed) :
    (m.apply b).contents = m.keeps b ++ m.supplies b := by
  have hw := b.contents_eq
  cases m with
  | flag f => exact (List.append_nil _).symm
  | segment s => exact b.contents_addSegment s
  | exactly n =>
    rw [Move.apply, value_exactly]
    exact b.contents_of_written (f := b.waiting.setExact n) b.content_waiting
  | atLeast n =>
    rw [Move.apply, value_atLeast]
    exact b.contents_of_written (f := b.waiting.setMin n) b.content_waiting
  | atMost n =>
    rw [Move.apply, value_atMost]
    exact b.contents_of_written (f := b.waiting.setMax n) b.content_waiting
  | content c =>
    rw [Move.apply, value_withContent]
    exact b.contents_setContent c _ _
  | groupAgain group =>
    rw [Move.apply, value_groupAgain b hm]
    exact b.contents_setContent _ _ _
  | unit literal =>
    have hu : literal.unwrapped = literal := by
      rcases hm with rfl | rfl <;> rfl
    rw [Move.apply, value_unit]
    split
    · rename_i h
      have hc : b.pending.hasContent = false := by
        rw [Bool.and_eq_true, Bool.not_eq_true'] at h
        exact h.2
      rw [value_withContent]
      refine (b.contents_setContent (.pattern literal) _ _).trans ?_
      rw [accepted, hc]
      rfl
    · rw [contents_addSegment, Segment.group, Segment.contents, List.map_singleton, hu]
      rfl
  | like other =>
    cases hc : b.pending.content with
    | some c =>
      rw [Move.apply, value_like_of_some b other hc]
      simp [Move.keeps, Move.supplies, accepted, Fragment.hasContent, hc]
    | none =>
      have h := b.contents_setContent (.pattern (other.build.value.embedded b.groups))
        (b.groups + other.build.value.groups) (b.extended || other.build.value.extended)
      rw [Move.apply, value_like_of_none b other hc]
      rw [Fragment.setContent, hc] at h
      exact h
  | reluctantly => exact (List.append_nil _).symm
  | captured =>
    refine Eq.trans ?_ (List.append_nil _).symm
    show b.captured.contents = if b.pending.capture then b.contents
      else contents { b with pending := b.pending.shiftGroups 1 }
    unfold Builder.captured
    split <;> rfl
  | either other =>
    show _ = b.contents ++ [other.build.value.embedded b.keptGroups]
    rw [Move.apply, value_either, hw]
    simp [contents, content_keptFragment]
  | or other =>
    show _ = b.contents ++ [other.build.value.embedded b.keptGroups]
    rw [Move.apply, value_or_pattern, contents_of_segments _ _ _ rfl,
      contents_addAlternative hb.written, hw]
  | look opening other =>
    show _ = b.contents ++ [other.build.value.embedded b.keptGroups]
    rw [Move.apply, value_look, contents_of_segments _ _ _ b.content_keptFragment,
      List.flatMap_append, List.flatMap_singleton, hw]
    rcases hm.1 with rfl | rfl <;> rfl
  | dropRun => exact (List.append_nil _).symm

end Builder

/-! ## Segments stay -/

/-- Whether a move adds an alternative. -/
def Move.IsOr : Move → Prop
  | or _ => True
  | _ => False

namespace Builder

variable (b : Builder)

theorem segments_prefix_written : b.segments <+: b.written := by
  unfold written
  rw [List.append_assoc]
  exact List.prefix_append _ _

/-- The segments that are finished stay as they are, unless an alternative is added. -/
theorem segments_prefix_apply {m : Move} (hm : m.Allowed Builder.IsFormed) (hor : ¬m.IsOr) :
    b.segments <+: (m.apply b).segments := by
  have same {c : Builder} (h : c.segments = b.segments) : b.segments <+: c.segments :=
    h ▸ List.prefix_rfl
  have hw {c : Builder} (h : c.segments = b.written) : b.segments <+: c.segments :=
    h ▸ b.segments_prefix_written
  have hadd {c : Builder} {s : Segment} (h : c.segments = b.written ++ [s]) :
      b.segments <+: c.segments :=
    h ▸ b.segments_prefix_written.trans (List.prefix_append _ _)
  cases m with
  | flag f => exact same rfl
  | segment s => exact hadd (by rw [Move.apply, value_addSegment_eq])
  | exactly n => exact hw (by rw [Move.apply, value_exactly])
  | atLeast n => exact hw (by rw [Move.apply, value_atLeast])
  | atMost n => exact hw (by rw [Move.apply, value_atMost])
  | content c => exact same (by rw [Move.apply, value_withContent])
  | groupAgain group => exact same (by rw [Move.apply, value_groupAgain b hm])
  | unit literal =>
    rw [Move.apply, value_unit]
    split
    · exact same (by rw [value_withContent])
    · exact hadd (by rw [value_addSegment_eq])
  | like other =>
    cases hc : b.pending.content with
    | some c => exact same (by rw [Move.apply, value_like_of_some b other hc])
    | none => exact same (by rw [Move.apply, value_like_of_none b other hc])
  | reluctantly => exact same rfl
  | captured =>
    show b.segments <+: b.captured.segments
    unfold Builder.captured
    split <;> exact same rfl
  | either other => exact hw (by rw [Move.apply, value_either])
  | or other => exact absurd trivial hor
  | look opening other => exact hadd (by rw [Move.apply, value_look])
  | dropRun =>
    show b.segments <+: b.dropRun.segments
    unfold Builder.dropRun
    split <;> exact same rfl

/-- An alternative is added to the last segment, or a segment is added. -/
theorem segments_or (other : Builder) :
    b.segments <+: (b.or (.pattern other)).value.segments ∨
      ∃ ss last t, b.segments = ss ++ [last] ∧
        (b.or (.pattern other)).value.segments = ss ++ [last.push t] := by
  rw [value_or_pattern]
  obtain ⟨us, hus⟩ := b.segments_prefix_written
  simp only [← hus]
  rcases List.eq_nil_or_concat us with rfl | ⟨vs, v, rfl⟩
  · rw [List.append_nil]
    rcases List.eq_nil_or_concat b.segments with h | ⟨ss, last, h⟩
    · exact .inl (h ▸ List.nil_prefix)
    · rw [List.concat_eq_append] at h
      refine .inr ⟨ss, last, (other.build.value.embedded b.keptGroups).wrapped, h, ?_⟩
      rw [addAlternative, h, List.getLast?_concat, List.dropLast_concat]
  · refine .inl ?_
    rw [List.concat_eq_append, ← List.append_assoc, addAlternative, List.getLast?_concat,
      List.dropLast_concat]
    exact (List.prefix_append b.segments vs).trans (List.prefix_append _ _)

end Builder

/-! ## What a call adds -/

/-- The contents that a call without an argument supplies and the builder accepts. -/
def Word.supplies (b : Builder) : Word → List Text
  | ignoreCase | multiLine | everyMatch | reluctantly | captured => []
  | inputStart | lineStart => [['^']]
  | inputEnd | lineEnd => [['$']]
  | anyChar => b.accepted ['.']
  | something | anything | any => [['.']]
  | lineBreak => [['\\', 'r', '\\', 'n'], ['\\', 'r'], ['\\', 'n']]
  | lineBreaks => b.accepted (Builder.empty.lineBreak.value.build.value.embedded b.groups)
  | space => [['\\', 's']]
  | notSpace => [['\\', 'S']]
  | spaces => b.accepted (Builder.empty.space.value.build.value.embedded b.groups)
  | notSpaces => b.accepted (Builder.empty.notSpace.value.build.value.embedded b.groups)
  | tab => [['\\', 't']]
  | tabs => b.accepted (Builder.empty.tab.value.build.value.embedded b.groups)
  | digit => [['[', '0', '-', '9', ']']]
  | notDigit => [['[', '^', '0', '-', '9', ']']]
  | digits => b.accepted (Builder.empty.digit.value.build.value.embedded b.groups)
  | notDigits => b.accepted (Builder.empty.notDigit.value.build.value.embedded b.groups)
  | letter => [(Content.oneOf "A-Za-z".toList).literal]
  | notLetter => [(Content.noneOf "A-Za-z".toList).literal]
  | letters => b.accepted (Content.oneOf "A-Za-z".toList).literal
  | notLetters => b.accepted (Content.noneOf "A-Za-z".toList).literal
  | lowerLetter => [(Content.oneOf "a-z".toList).literal]
  | lowerLetters => b.accepted (Content.oneOf "a-z".toList).literal
  | upperLetter => [(Content.oneOf "A-Z".toList).literal]
  | upperLetters => b.accepted (Content.oneOf "A-Z".toList).literal

/-- The contents that a call with a text supplies and the builder accepts. An empty text
is none, but the runs of any characters take it. -/
def TextWord.supplies (b : Builder) (t : Text) : TextWord → List Text
  | text => if t.isEmpty then [] else b.accepted t.escapeOutside
  | oneOf => if t.isEmpty then [] else b.accepted (Content.oneOf t.escapeInside).literal
  | noneOf => if t.isEmpty then [] else b.accepted (Content.noneOf t.escapeInside).literal
  | once | maybe => if t.isEmpty then [] else [t.escapeOutside]
  | someOf | maybeSomeOf => if t.isEmpty then [] else [(Content.oneOf t.escapeInside).literal]
  | anythingBut | somethingBut =>
    match t with
    | [] => [['.']]
    | [c] => [(Content.noneOf (Text.escapeInside [c])).literal]
    | t => [(Builder.empty.once t).value.build.value.embedded b.keptGroups, ['.']]

/-- The contents that a call with a number supplies and the builder accepts. -/
def CountWord.supplies (b : Builder) (n : Nat) : CountWord → List Text
  | exactly | atLeast | atMost => []
  | groupAgain => if n = 0 then [] else b.accepted ('\\' :: Text.decimal n)

/-- The contents that a call with a pattern supplies and the builder accepts. -/
def PatternWord.supplies (b other : Builder) : PatternWord → List Text
  | like => b.accepted (other.build.value.embedded b.groups)
  | append | optional => [other.build.value.embedded b.groups]
  | ahead | notAhead => [other.build.value.embedded b.keptGroups]

/-- The contents that a call with an operand supplies. -/
def OperandWord.supplies (b other : Builder) : OperandWord → List Text
  | either | or | neither => [other.build.value.embedded b.keptGroups]
  | nor => [other.build.value.embedded b.keptGroups, ['.']]

/-- The contents that a call supplies and the builder accepts. -/
def Call.supplies (b : Builder) : Call → List Text
  | .word w => w.supplies b
  | .text w t => w.supplies b t
  | .count w n => w.supplies b n
  | .range false first last => b.accepted (Content.oneOf (Text.rangeMembers first last)).literal
  | .range true first last => b.accepted (Content.noneOf (Text.rangeMembers first last)).literal
  | .flag _ => []
  | .pattern w calls => w.supplies b (Call.builder calls)
  | .textOperand w t => w.supplies b (Builder.empty.once t).value
  | .patternOperand w calls => w.supplies b (Call.builder calls)

/-- The contents that a call keeps: all of them, but a new capture renumbers the pattern
in progress, and `nor` drops a run of any characters. -/
def Call.keeps (b : Builder) : Call → List Text
  | .word .captured =>
    if b.pending.capture then b.contents
    else Builder.contents { b with pending := b.pending.shiftGroups 1 }
  | .textOperand .nor _ | .patternOperand .nor _ => b.dropRun.contents
  | _ => b.contents

/-- Whether a call adds an alternative. -/
def Call.IsOr : Call → Prop
  | .textOperand .or _ | .patternOperand .or _ => True
  | _ => False

/-- The contents that moves supply one after the other. -/
def Move.suppliesAll (b : Builder) : List Move → List Text
  | [] => []
  | m :: ms => m.supplies b ++ suppliesAll (m.apply b) ms

/-- Whether a move keeps all contents as they are. -/
def Move.KeepsAll : Move → Prop
  | captured | dropRun => False
  | _ => True

theorem Move.KeepsAll.keeps_eq {m : Move} (h : m.KeepsAll) (b : Builder) :
    m.keeps b = b.contents := by
  cases m with
  | captured => exact absurd h id
  | dropRun => exact absurd h id
  | _ => rfl

/-- Moves add their contents in order to what the first one keeps, if the others keep all
contents. -/
theorem Move.contents_applyAll : ∀ (ms : List Move) (b : Builder), b.IsFormed →
    (∀ m ∈ ms, m.Allowed Builder.IsFormed) → (∀ m ∈ ms.tail, m.KeepsAll) →
    (applyAll b ms).contents = ms.head?.elim b.contents (Move.keeps b) ++ suppliesAll b ms
  | [], _, _, _, _ => (List.append_nil _).symm
  | m :: ms, b, hb, hms, hk => by
    have hm := hms m List.mem_cons_self
    have ih := contents_applyAll ms (m.apply b) (hb.apply hm)
      (fun x hx => hms x (List.mem_cons_of_mem _ hx)) fun x hx => hk x (List.mem_of_mem_tail hx)
    have hhead : ms.head?.elim (m.apply b).contents (Move.keeps (m.apply b)) =
        (m.apply b).contents := by
      cases ms with
      | nil => rfl
      | cons x ms => exact (hk x List.mem_cons_self).keeps_eq _
    show (applyAll (m.apply b) ms).contents = m.keeps b ++ (m.supplies b ++ _)
    rw [ih, hhead, b.contents_apply hb hm, List.append_assoc]

theorem Move.segments_prefix_applyAll : ∀ (ms : List Move) (b : Builder),
    (∀ m ∈ ms, m.Allowed Builder.IsFormed) → (∀ m ∈ ms, ¬m.IsOr) →
    b.segments <+: (applyAll b ms).segments
  | [], _, _, _ => List.prefix_rfl
  | m :: ms, b, hms, hor =>
    (b.segments_prefix_apply (hms m List.mem_cons_self) (hor m List.mem_cons_self)).trans
      (segments_prefix_applyAll ms (m.apply b) (fun x hx => hms x (List.mem_cons_of_mem _ hx))
        fun x hx => hor x (List.mem_cons_of_mem _ hx))

section

variable (b : Builder)

theorem Builder.accepted_of_content {b : Builder} (h : b.pending.content = none) (t : Text) :
    b.accepted t = [t] := by
  rw [accepted, Fragment.hasContent, h]
  rfl

/-- A quantity finishes what is in progress, so the next content is accepted. -/
@[simp] theorem Builder.accepted_exactly (n : Nat) (t : Text) :
    Builder.accepted (Move.apply b (.exactly n)) t = [t] := by
  rw [Move.apply, value_exactly]
  exact accepted_of_content b.content_waiting t

@[simp] theorem Builder.accepted_atLeast (n : Nat) (t : Text) :
    Builder.accepted (Move.apply b (.atLeast n)) t = [t] := by
  rw [Move.apply, value_atLeast]
  exact accepted_of_content b.content_waiting t

@[simp] theorem Builder.accepted_atMost (n : Nat) (t : Text) :
    Builder.accepted (Move.apply b (.atMost n)) t = [t] := by
  rw [Move.apply, value_atMost]
  exact accepted_of_content b.content_waiting t

theorem Builder.keptGroups_dropRun : b.dropRun.keptGroups = b.keptGroups := by
  unfold dropRun
  cases h : b.pending.isOpenAnyRun with
  | false => rfl
  | true =>
    simp [keptGroups, capturesNothing, Fragment.hasContent, (Fragment.of_isOpenAnyRun h).1]

theorem Word.supplies_eq (w : Word) : Move.suppliesAll b w.moves = w.supplies b := by
  cases w <;> simp [Word.moves, Word.supplies, Move.suppliesAll, Move.supplies] <;> rfl

theorem Move.suppliesAll_ofText (content : Text → Content) (t : Text) :
    suppliesAll b (ofText content t) =
      if t.isEmpty then [] else b.accepted (content t).literal := by
  cases t with
  | nil => rfl
  | cons c t => exact List.append_nil _

theorem Move.suppliesAll_runWithout (least : Nat) (t : Text) :
    suppliesAll b (runWithout least t) = TextWord.supplies b t .anythingBut := by
  rcases t with _ | ⟨c, _ | ⟨d, t⟩⟩ <;>
    simp [TextWord.supplies, runWithout, suppliesAll, supplies] <;> rfl

theorem TextWord.supplies_eq (t : Text) (w : TextWord) :
    Move.suppliesAll b (w.moves t) = w.supplies b t := by
  have after {m : Move} (hm : m.supplies b = []) (hacc : ∀ u, (m.apply b).accepted u = [u])
      (content : Text → Content) :
      Move.suppliesAll b (m :: Move.ofText content t) =
        if t.isEmpty then [] else [(content t).literal] := by
    rw [Move.suppliesAll, hm, List.nil_append, Move.suppliesAll_ofText, hacc]
  cases w with
  | text => exact Move.suppliesAll_ofText b .ofText t
  | oneOf => exact Move.suppliesAll_ofText b .ofMembers t
  | noneOf => exact Move.suppliesAll_ofText b .ofExcluded t
  | once => exact after rfl (b.accepted_exactly 1) .ofText
  | someOf => exact after rfl (b.accepted_atLeast 1) .ofMembers
  | maybeSomeOf => exact after rfl (b.accepted_atLeast 0) .ofMembers
  | maybe => exact after rfl (b.accepted_atMost 1) .ofText
  | anythingBut => exact Move.suppliesAll_runWithout b 0 t
  | somethingBut => exact Move.suppliesAll_runWithout b 1 t

theorem CountWord.supplies_eq (n : Nat) (w : CountWord) :
    Move.suppliesAll b (w.moves n) = w.supplies b n := by
  cases w with
  | groupAgain =>
    rw [CountWord.moves, supplies]
    split <;> simp [Move.suppliesAll, Move.supplies, Content.literal]
  | _ => rfl

theorem PatternWord.supplies_eq (other : Builder) (w : PatternWord) :
    Move.suppliesAll b (w.moves other) = w.supplies b other := by
  have hexactly (n : Nat) : (Move.apply b (.exactly n)).groups = b.groups := by
    rw [Move.apply, Builder.value_exactly]
  have hatMost (n : Nat) : (Move.apply b (.atMost n)).groups = b.groups := by
    rw [Move.apply, Builder.value_atMost]
  cases w <;>
    simp [PatternWord.moves, supplies, Move.suppliesAll, Move.supplies, hexactly, hatMost]

theorem OperandWord.supplies_eq (other : Builder) (w : OperandWord) :
    Move.suppliesAll b (w.moves other) = w.supplies b other := by
  have hrun : (Move.apply b .dropRun).keptGroups = b.keptGroups := b.keptGroups_dropRun
  cases w <;>
    simp [OperandWord.moves, supplies, Move.suppliesAll, Move.supplies, hrun, Content.literal]

end

/-! ## Calls -/

theorem Call.supplies_eq (b : Builder) (c : Call) : Move.suppliesAll b c.moves = c.supplies b := by
  cases c with
  | word w => exact w.supplies_eq b
  | text w t => exact w.supplies_eq b t
  | count w n => exact w.supplies_eq b n
  | range negated first last => cases negated <;> exact List.append_nil _
  | flag f => rfl
  | pattern w calls => exact w.supplies_eq b _
  | textOperand w t => exact w.supplies_eq b _
  | patternOperand w calls => exact w.supplies_eq b _

/-- Only the first move of a call may change what is there. -/
theorem Call.keepsAll_of_mem_tail (c : Call) : ∀ m ∈ c.moves.tail, m.KeepsAll := by
  cases c with
  | word w => cases w <;> simp [Call.moves, Word.moves, Move.KeepsAll]
  | text w t =>
    rcases t with _ | ⟨x, _ | ⟨y, t⟩⟩ <;> cases w <;>
      simp [Call.moves, TextWord.moves, Move.ofText, Move.runWithout, Move.KeepsAll]
  | count w n =>
    cases w with
    | groupAgain =>
      rw [Call.moves, CountWord.moves]
      split <;> simp
    | _ => simp [Call.moves, CountWord.moves]
  | range negated first last => cases negated <;> simp [Call.moves]
  | flag f => simp [Call.moves]
  | pattern w calls => cases w <;> simp [Call.moves, PatternWord.moves, Move.KeepsAll]
  | textOperand w t => cases w <;> simp [Call.moves, OperandWord.moves, Move.KeepsAll]
  | patternOperand w calls => cases w <;> simp [Call.moves, OperandWord.moves, Move.KeepsAll]

theorem Call.keeps_eq (b : Builder) (c : Call) :
    c.moves.head?.elim b.contents (Move.keeps b) = c.keeps b := by
  cases c with
  | word w => cases w <;> rfl
  | text w t => rcases t with _ | ⟨x, _ | ⟨y, t⟩⟩ <;> cases w <;> rfl
  | count w n =>
    cases w with
    | groupAgain =>
      rw [Call.moves, CountWord.moves]
      split <;> rfl
    | _ => rfl
  | range negated first last => cases negated <;> rfl
  | flag f => rfl
  | pattern w calls => cases w <;> rfl
  | textOperand w t => cases w <;> rfl
  | patternOperand w calls => cases w <;> rfl

/-- Only `or` adds an alternative. -/
theorem Call.not_isOr_of_mem_moves {c : Call} (hc : ¬c.IsOr) : ∀ m ∈ c.moves, ¬m.IsOr := by
  cases c with
  | word w => cases w <;> simp [Call.moves, Word.moves, Move.IsOr]
  | text w t =>
    rcases t with _ | ⟨x, _ | ⟨y, t⟩⟩ <;> cases w <;>
      simp [Call.moves, TextWord.moves, Move.ofText, Move.runWithout, Move.IsOr]
  | count w n =>
    cases w with
    | groupAgain =>
      rw [Call.moves, CountWord.moves]
      split <;> simp [Move.IsOr]
    | _ => simp [Call.moves, CountWord.moves, Move.IsOr]
  | range negated first last => cases negated <;> simp [Call.moves, Move.IsOr]
  | flag f => simp [Call.moves, Move.IsOr]
  | pattern w calls => cases w <;> simp [Call.moves, PatternWord.moves, Move.IsOr]
  | textOperand w t =>
    cases w with
    | or => exact absurd trivial hc
    | _ => simp [Call.moves, OperandWord.moves, Move.IsOr]
  | patternOperand w calls =>
    cases w with
    | or => exact absurd trivial hc
    | _ => simp [Call.moves, OperandWord.moves, Move.IsOr]

/-- An `or` is one move. -/
theorem Call.exists_moves_of_isOr {c : Call} (hc : c.IsOr) : ∃ other, c.moves = [.or other] := by
  unfold IsOr at hc
  split at hc
  · exact ⟨_, rfl⟩
  · exact ⟨_, rfl⟩
  · exact absurd hc id

/-- Segments stay as they are, but `or` may add an alternative to the last one. -/
theorem Call.segments_apply {b : Builder} {c : Call}
    (hc : ∀ m ∈ c.moves, m.Allowed Builder.IsFormed) :
    b.segments <+: (c.apply b).value.segments ∨
      c.IsOr ∧ ∃ ss last t, b.segments = ss ++ [last] ∧
        (c.apply b).value.segments = ss ++ [last.push t] := by
  rw [Call.value_apply]
  by_cases hor : c.IsOr
  · obtain ⟨other, ho⟩ := Call.exists_moves_of_isOr hor
    rw [ho]
    exact (b.segments_or other).imp_right fun h => ⟨hor, h⟩
  · exact .inl (Move.segments_prefix_applyAll c.moves b hc (Call.not_isOr_of_mem_moves hor))

/-- A call on a builder that calls give keeps the contents, but a new capture renumbers
the pattern in progress and `nor` drops a run of any characters, and adds what it
supplies at the end. Its segments stay as they are, but `or` may add an alternative to
the last one. The finished pattern is written from segments with these contents, the
segments of the builder first. -/
theorem Call.contents_value_apply (calls : List Call) (c : Call) :
    let b := Call.builder calls
    let b' := (c.apply b).value
    b'.contents = c.keeps b ++ c.supplies b ∧
      (b.segments <+: b'.segments ∨
        c.IsOr ∧ ∃ ss last t, b.segments = ss ++ [last] ∧ b'.segments = ss ++ [last.push t]) ∧
      b.build.value.literal = b.flush.value.segments.flatMap Segment.text ∧
      b.flush.value.segments.flatMap Segment.contents = b.contents ∧
      b.segments <+: b.flush.value.segments := by
  intro b b'
  have hb : b.IsFormed := Call.isFormed_builder calls
  have hc : ∀ m ∈ c.moves, m.Allowed Builder.IsFormed :=
    Call.allowed_moves Builder.IsFormed.empty (fun _ _ hb hm => hb.apply hm) c
  rw [Builder.value_build, Builder.value_flush]
  refine ⟨?_, Call.segments_apply hc, rfl, b.contents_eq.symm, b.segments_prefix_written⟩
  show (c.apply b).value.contents = _
  rw [Call.value_apply, Move.contents_applyAll c.moves b hb hc c.keepsAll_of_mem_tail,
    Call.keeps_eq, Call.supplies_eq]

end FluentPattern
