import FluentPattern.Proofs.Repetition

/-!
# Units with a usual quantity

Some calls are short for a quantity and a content. An exact quantity sets both bounds. A lower or
an upper one sets that bound alone, so that both can be given one after the other, and so the
other bound is the one that a call before has left. A quantity that has got no content waits
behind whatever is written in between, and it is then the other bound of such a unit.

Main statements: `Bounds.pending_calls` (what a quantity sets), `Call.waiting_apart` (a
quantity waits behind units, anchors and assertions), `Call.quantity_shorthand`.
-/

namespace FluentPattern

/-! ## Calls with a usual quantity -/

/-- The quantity that a call without an argument is short for. -/
def Word.usual? : Word → Option Bounds
  | any | letter | notLetter | lowerLetter | upperLetter => some (.exactly 1)
  | something => some (.atLeast 1)
  | anything => some (.atLeast 0)
  | _ => none

/-- The quantity that a call with a text is short for. -/
def TextWord.usual? : TextWord → Option Bounds
  | once => some (.exactly 1)
  | maybe => some (.atMost 1)
  | someOf | somethingBut => some (.atLeast 1)
  | maybeSomeOf | anythingBut => some (.atLeast 0)
  | _ => none

/-- The quantity that a call with a pattern is short for. -/
def PatternWord.usual? : PatternWord → Option Bounds
  | append => some (.exactly 1)
  | optional => some (.atMost 1)
  | _ => none

/-- The quantity that a call is short for, if it is a unit with one. -/
def Call.usual? : Call → Option Bounds
  | .word w => w.usual?
  | .text w _ => w.usual?
  | .pattern w _ => w.usual?
  | _ => none

/-- Whether the text that a call takes is not empty. -/
def Call.HasArgument : Call → Prop
  | .text _ t => t ≠ []
  | _ => True

/-- The moves before the unit of a call: a longer text is excluded by an assertion. -/
def Call.assertion : Call → List Move
  | .text w t =>
    if (w = .anythingBut ∨ w = .somethingBut) ∧ 1 < t.length then
      [.look .notAhead (Builder.empty.once t).value]
    else []
  | _ => []

/-- What has been said of the unit of a call before the call. -/
def Call.left (b : Builder) : Call → Fragment
  | .text w t =>
    if (w = .anythingBut ∨ w = .somethingBut) ∧ 1 < t.length then b.keptFragment else b.waiting
  | _ => b.waiting

/-- Whether a move is a content or a pattern as content. -/
def Move.IsContent : Move → Prop
  | content _ | like _ => True
  | _ => False

theorem TextWord.shorthand_moves {w : TextWord} {t : Text} (ht : t ≠ []) {u : Bounds}
    (hw : w.usual? = some u) :
    ∃ m : Move, w.moves t = (Call.text w t).assertion ++ (u.calls.flatMap Call.moves ++ [m]) ∧
      m.IsContent := by
  have content {f : Text → Content} : Move.ofText f t = [.content (f t)] :=
    if_neg (by simpa using ht)
  cases w with
  | once | maybe | someOf | maybeSomeOf =>
    cases hw
    exact ⟨_, congrArg _ content, trivial⟩
  | anythingBut | somethingBut =>
    cases hw
    rcases t with _ | ⟨c, _ | ⟨d, t⟩⟩
    · exact absurd rfl ht
    · exact ⟨_, rfl, trivial⟩
    · exact ⟨_, rfl, trivial⟩
  | _ => cases hw

/-- A call with a usual quantity gives the quantity and then a content. -/
theorem Call.shorthand_moves {c : Call} (hgiven : c.HasArgument) {u : Bounds}
    (hc : c.usual? = some u) :
    ∃ m : Move, c.moves = c.assertion ++ (u.calls.flatMap Call.moves ++ [m]) ∧ m.IsContent := by
  cases c with
  | word w => cases w <;> cases hc <;> exact ⟨_, rfl, trivial⟩
  | text w t => exact TextWord.shorthand_moves hgiven hc
  | pattern w calls => cases w <;> cases hc <;> exact ⟨_, rfl, trivial⟩
  | _ => cases hc

/-! ## What a quantity sets -/

/-- A quantity sets the bounds that it gives, and the other ones stay as they wait. -/
theorem Bounds.pending_calls (bounds : Bounds) (b : Builder) :
    (Move.applyAll b (bounds.calls.flatMap Call.moves)).pending =
      { b.waiting with
        min := bounds.least?.or b.waiting.min, max := bounds.most?.or b.waiting.max } := by
  cases bounds with
  | exactly n => exact congrArg Builder.pending (b.value_exactly n)
  | atLeast n => exact congrArg Builder.pending (b.value_atLeast n)
  | atMost n => exact congrArg Builder.pending (b.value_atMost n)
  | between least most =>
    have hidle : (b.atLeast least).value.pending.content = none := by
      rw [Builder.value_atLeast]
      exact b.content_waiting
    show ((b.atLeast least).value.atMost most).value.pending = _
    rw [Builder.value_atMost, Builder.waiting_of_idle hidle, Builder.value_atLeast]
    rfl

/-- A content leaves the bounds alone. -/
theorem Move.pending_apply_content {m : Move} (hm : m.IsContent) {b : Builder}
    (hb : b.pending.content = none) :
    ∃ c, (m.apply b).pending = { b.pending with content := some c } := by
  cases m with
  | content c =>
    refine ⟨c, ?_⟩
    rw [apply, Builder.value_withContent, Fragment.setContent, hb]
    rfl
  | like other => exact ⟨_, congrArg Builder.pending (b.value_like_of_none other hb)⟩
  | _ => exact absurd hm id

theorem Call.waiting_assertion (c : Call) (b : Builder) :
    (Move.applyAll b c.assertion).waiting = c.left b := by
  cases c with
  | text w t =>
    rw [assertion, left]
    split
    · show (b.look .notAhead (Builder.empty.once t).value).value.waiting = _
      rw [Builder.value_look]
      exact Builder.waiting_of_idle b.content_keptFragment
    · rfl
  | _ => rfl

/-- The unit of a call gets a content and the bounds that the call gives, and keeps whatever
else was said of it. -/
theorem Call.pending_shorthand {c : Call} (hgiven : c.HasArgument) {u : Bounds}
    (hc : c.usual? = some u) (b : Builder) :
    ∃ content, (c.apply b).value.pending = { c.left b with
      min := u.least?.or (c.left b).min, max := u.most?.or (c.left b).max,
      content := some content } := by
  obtain ⟨m, hmoves, hm⟩ := shorthand_moves hgiven hc
  have hbounds := u.pending_calls (Move.applyAll b c.assertion)
  rw [waiting_assertion] at hbounds
  have hidle : (c.left b).content = none := by
    rw [← waiting_assertion]
    exact Builder.content_waiting _
  obtain ⟨content, hcontent⟩ := Move.pending_apply_content hm
    ((congrArg Fragment.content hbounds).trans hidle)
  refine ⟨content, ?_⟩
  rw [value_apply, hmoves, Move.applyAll, List.foldl_append, List.foldl_append]
  exact hcontent.trans (congrArg (fun f : Fragment => { f with content := some content }) hbounds)

/-- A bound that was left does not change the quantity if it says nothing more. -/
theorem Bounds.quantity?_or_iff (bounds : Bounds) {f : Fragment} {least most : Option Nat}
    (hmin : f.min = bounds.least?.or least) (hmax : f.max = bounds.most?.or most) :
    f.quantity? = some (bounds.quantity !f.reluctant) ↔
      (bounds.least? = none → least.getD 0 = 0) ∧ (bounds.most? = none → most = none) := by
  rw [Fragment.quantity?, Fragment.hasQuantity, hmin, hmax]
  cases bounds <;> simp [quantity, least?, most?]

/-! ## What is left of a quantity -/

/-- Whether a move writes something of its own, or sets a flag. -/
def Move.IsApart : Move → Prop
  | flag _ | segment _ | look _ _ => True
  | _ => False

theorem Builder.keptFragment_of_not_capture {b : Builder} (hb : b.pending.capture = false) :
    b.keptFragment = b.waiting := by
  rw [keptFragment, capturesNothing, hb, Bool.false_and, if_neg Bool.false_ne_true]

/-- A fragment that does not capture waits behind what is written apart from it. -/
theorem Move.waiting_apply_apart {m : Move} (hm : m.IsApart) {b : Builder}
    (hb : b.pending.capture = false) :
    (m.apply b).waiting = b.waiting ∧ (m.apply b).pending.capture = false := by
  have hkept := Builder.keptFragment_of_not_capture hb
  have hcapture : b.waiting.capture = false := hkept ▸ b.capture_keptFragment
  cases m with
  | flag f => exact ⟨rfl, hb⟩
  | segment s =>
    rw [apply, Builder.value_addSegment_eq]
    exact ⟨Builder.waiting_of_idle b.content_waiting, hcapture⟩
  | look opening other =>
    rw [apply, Builder.value_look, hkept]
    exact ⟨Builder.waiting_of_idle b.content_waiting, hcapture⟩
  | _ => exact absurd hm id

theorem Move.waiting_applyAll_apart : ∀ {ms : List Move}, (∀ m ∈ ms, m.IsApart) →
    ∀ {b : Builder}, b.pending.capture = false →
      (applyAll b ms).waiting = b.waiting ∧ (applyAll b ms).pending.capture = false
  | [], _, _, hb => ⟨rfl, hb⟩
  | m :: ms, hms, b, hb => by
    obtain ⟨hm, hms⟩ := List.forall_mem_cons.1 hms
    obtain ⟨hwaiting, hcapture⟩ := waiting_apply_apart hm hb
    obtain ⟨hrest, hlast⟩ := waiting_applyAll_apart hms hcapture
    exact ⟨hrest.trans hwaiting, hlast⟩

/-- Whether a call is a flag, a unit of its own, an anchor or an assertion. -/
def Call.IsApart (c : Call) : Prop :=
  ∀ m ∈ c.moves, m.IsApart

/-- What has been said of the next unit waits behind flags, units, anchors and assertions,
unless it captures. -/
theorem Call.waiting_apart {calls : List Call} (hcalls : ∀ c ∈ calls, c.IsApart) {b : Builder}
    (hb : b.pending.capture = false) :
    (applyAll b calls).value.waiting = b.waiting ∧
      (applyAll b calls).value.pending.capture = false := by
  rw [value_applyAll]
  refine Move.waiting_applyAll_apart (fun m hm => ?_) hb
  obtain ⟨c, hc, hm⟩ := List.mem_flatMap.1 hm
  exact hcalls c hc m hm

theorem Call.left_of_not_capture {b : Builder} (hb : b.pending.capture = false) (c : Call) :
    c.left b = b.waiting := by
  cases c with
  | text w t => rw [left, Builder.keptFragment_of_not_capture hb, ite_self]
  | _ => rfl

/-- A unit with a usual quantity has the same quantity behind flags, units, anchors and
assertions as right behind what was said before them. -/
theorem Call.quantity_shorthand_apart {c : Call} (hgiven : c.HasArgument) {u : Bounds}
    (hc : c.usual? = some u) {calls : List Call} (hcalls : ∀ c ∈ calls, c.IsApart) {b : Builder}
    (hb : b.pending.capture = false) :
    (c.apply (applyAll b calls).value).value.pending.quantity? =
      (c.apply b).value.pending.quantity? := by
  obtain ⟨hwaiting, hcapture⟩ := waiting_apart hcalls hb
  obtain ⟨first, hfirst⟩ := pending_shorthand hgiven hc (applyAll b calls).value
  obtain ⟨second, hsecond⟩ := pending_shorthand hgiven hc b
  rw [hfirst, hsecond, left_of_not_capture hcapture, left_of_not_capture hb, hwaiting]
  rfl

/-! ## The quantity of a unit -/

/-- A unit with a usual quantity gets the bounds that the call gives, and a bound that the call
does not give is the one that was left. So it has its usual quantity if and only if no such
bound was left, or a lower bound of zero. -/
theorem Call.quantity_shorthand {c : Call} (hgiven : c.HasArgument) {u : Bounds}
    (hc : c.usual? = some u) (b : Builder) :
    let left := c.left b
    let f := (c.apply b).value.pending
    f.hasContent = true ∧ f.min = u.least?.or left.min ∧ f.max = u.most?.or left.max ∧
      (f.quantity? = some (u.quantity !f.reluctant) ↔
        (u.least? = none → left.min.getD 0 = 0) ∧ (u.most? = none → left.max = none)) := by
  intro left f
  obtain ⟨content, hf⟩ := pending_shorthand hgiven hc b
  have hmin : f.min = u.least?.or left.min := congrArg Fragment.min hf
  have hmax : f.max = u.most?.or left.max := congrArg Fragment.max hf
  exact ⟨congrArg Fragment.hasContent hf, hmin, hmax, u.quantity?_or_iff hmin hmax⟩

/-- A text or nothing keeps a lower bound, here one that a tab and an anchor came behind. -/
theorem Call.quantity_shorthand_maybe :
    let b := builder [.count .atLeast 3, .word .tab, .word .inputEnd]
    let f := ((Call.text .maybe ['a']).apply b).value.pending
    f.min = some 3 ∧ f.max = some 1 := by
  intro b f
  have h := quantity_shorthand (c := .text .maybe ['a']) (List.cons_ne_nil _ _) rfl b
  exact ⟨h.2.1, h.2.2.1⟩

/-- At least one character, with an upper bound that waits from before. -/
theorem Call.not_quantity_shorthand_something :
    let b := builder [.count .exactly 5]
    let f := ((Call.word .something).apply b).value.pending
    f.quantity? = some ⟨1, some 5, true⟩ ∧
      ¬∀ (c : Call) (u : Bounds), c.HasArgument → c.usual? = some u →
        ∀ calls : List Call, (c.apply (builder calls)).value.pending.quantity? =
          some (u.quantity !(c.apply (builder calls)).value.pending.reluctant) := by
  intro b f
  have hf : f.quantity? = some ⟨1, some 5, true⟩ := by decide
  refine ⟨hf, fun h => ?_⟩
  have hsomething := h (.word .something) (.atLeast 1) trivial rfl [.count .exactly 5]
  exact absurd (hf.symm.trans hsomething) (by decide)

end FluentPattern
