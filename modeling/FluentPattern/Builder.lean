import FluentPattern.Built
import FluentPattern.Event
import FluentPattern.Text.Escape

/-!
# Builders

A builder collects a pattern call by call. Some calls say more about the
fragment in progress, others finish it and start the next one. A builder may be
embedded in another one; its backreferences are then renumbered after the groups
that the host has counted so far.

Main statements: `value_addSegment`.
-/

namespace FluentPattern

/-- A pattern in progress. -/
structure Builder where
  /-- The finished segments. -/
  segments : List Segment := []
  /-- The number of capturing groups introduced so far. -/
  groups : Nat := 0
  /-- The flags of the pattern. -/
  flags : Flags := {}
  /-- The fragment in progress. -/
  pending : Fragment := {}
  /-- The first alternative of an alternation, held until the second one comes. -/
  held : Option Text := none
  /-- Whether the pattern needs the extended engine. -/
  extended : Bool := false
deriving DecidableEq

/-- What joins an alternation or follows an assertion: a text, meaning exactly one of
it, or a pattern. -/
inductive Operand where
  | text (t : Text)
  | pattern (b : Builder)
deriving DecidableEq

namespace Builder

open Logged (note)

/-- The builder without calls. -/
def empty : Builder :=
  {}

/-! ## Finishing what is in progress -/

/-- Write the held first alternative alone. -/
def releaseHeld (b : Builder) : Logged Builder :=
  match b.held with
  | none => pure b
  | some t => do
    note (.eitherAlone t)
    pure { b with
      segments := b.segments ++ [.group (['(', '?', ':'] ++ t ++ [')'])]
      held := none }

/-- Finish the fragment in progress if it has content; one without content keeps its
quantity and its modifiers. -/
def finishFragment (b : Builder) : Logged Builder :=
  match b.pending.segment? with
  | none => pure b
  | some s => do
    if b.pending.reluctanceIsIdle then note .reluctanceIgnored
    note (.finished s)
    pure { b with segments := b.segments ++ [s], pending := {} }

/-- Finish all that is in progress, in the order in which it is written. -/
def flush (b : Builder) : Logged Builder := do
  let b ← b.releaseHeld
  b.finishFragment

/-- Drop a fragment without content. If it captures, its group was counted and is
taken back. -/
def dropFragment (b : Builder) : Logged Builder :=
  if b.pending.capture then do
    note .captureDropped
    pure { b with groups := b.groups - 1, pending := {} }
  else pure { b with pending := {} }

/-- Finish all that is in progress before a pattern is embedded as a unit of its own. A
capture that still waits for content was counted before the embedded groups and would
open after them, so its fragment is dropped. -/
def flushForEmbedding (b : Builder) : Logged Builder := do
  let b ← b.flush
  if b.pending.capture then b.dropFragment else pure b

/-- Add a segment after all that is in progress. -/
def addSegment (b : Builder) (s : Segment) : Logged Builder := do
  let b ← b.flush
  note (.added s)
  pure { b with segments := b.segments ++ [s] }

/-- The finished pattern. -/
def build (b : Builder) : Logged Built := do
  let b ← b.flush
  let b ← b.dropFragment
  pure ⟨b.segments.flatMap Segment.text, b.flags, b.groups, b.extended⟩

/-- The pattern as it would be written if the builder were finished now. -/
def literal (b : Builder) : Text :=
  b.build.value.literal

instance : ToString Builder where
  toString b := String.ofList b.literal

/-- The pattern of another builder as it is written inside this one, and this builder
with the groups of the other one counted. -/
def embed (b other : Builder) : Logged (Text × Builder) := do
  let built ← other.build
  pure (shiftReferences b.groups built.scopedLiteral,
    { b with groups := b.groups + built.groups, extended := b.extended || built.extended })

/-! ## The fragment in progress -/

/-- Give the fragment a content; the first one wins. -/
def withContent (b : Builder) (c : Content) : Logged Builder :=
  match b.pending.content with
  | some held => do
    note (.contentRefused held c)
    pure b
  | none => pure { b with pending := b.pending.setContent c }

/-- Start a unit repeated exactly `n` times. -/
def exactly (b : Builder) (n : Nat) : Logged Builder := do
  let b ← b.flush
  pure { b with pending := b.pending.setExact n }

/-- Start a unit repeated at least `n` times. -/
def atLeast (b : Builder) (n : Nat) : Logged Builder := do
  let b ← b.flush
  pure { b with pending := b.pending.setMin n }

/-- Start a unit repeated at most `n` times. -/
def atMost (b : Builder) (n : Nat) : Logged Builder := do
  let b ← b.flush
  pure { b with pending := b.pending.setMax n }

/-- The unit is a text; an empty text is no content. -/
def text (b : Builder) (t : Text) : Logged Builder :=
  if t.isEmpty then do
    note .textEmpty
    pure b
  else b.withContent (.text t.escapeOutside)

/-- The unit is any character. -/
def anyChar (b : Builder) : Logged Builder :=
  b.withContent .anyChar

/-- The unit is what a group has matched; groups are numbered from one. -/
def groupAgain (b : Builder) (group : Nat) : Logged Builder :=
  if group = 0 then do
    note .groupZero
    pure b
  else do
    let b' ← b.withContent (.groupAgain group)
    pure { b' with extended := b.extended || b.pending.content.isNone }

/-- The unit is one of some characters; none is no content. -/
def oneOf (b : Builder) (members : Text) : Logged Builder :=
  if members.isEmpty then do
    note (.membersEmpty false)
    pure b
  else b.withContent (.oneOf members.escapeInside)

/-- The unit is any character but some; none is no content. -/
def noneOf (b : Builder) (members : Text) : Logged Builder :=
  if members.isEmpty then do
    note (.membersEmpty true)
    pure b
  else b.withContent (.noneOf members.escapeInside)

/-- The unit is a character of a range, bounds included. -/
def oneOfRange (b : Builder) (first last : Char) : Logged Builder :=
  b.withContent (.oneOf (Text.rangeMembers first last))

/-- The unit is a character outside a range. -/
def noneOfRange (b : Builder) (first last : Char) : Logged Builder :=
  b.withContent (.noneOf (Text.rangeMembers first last))

/-- The unit is another pattern. -/
def like (b other : Builder) : Logged Builder :=
  match b.pending.content with
  | some held => do
    note (.patternRefused held)
    pure b
  | none => do
    let (literal, b) ← b.embed other
    b.withContent (.pattern literal)

/-- The unit repeats as little as possible. -/
def reluctantly (b : Builder) : Builder :=
  { b with pending := b.pending.setReluctant }

/-- The unit is a capturing group. It is counted now and opens before the groups of an
embedded pattern, so these move by one. -/
def captured (b : Builder) : Builder :=
  if b.pending.capture then b
  else { b with groups := b.groups + 1, pending := b.pending.setCapture.shiftGroups 1 }

/-! ## Flags and anchors -/

/-- One more flag. -/
def withFlag (b : Builder) (f : Flag) : Builder :=
  { b with flags := b.flags.insert f }

/-- Match here only at the start of the input, or of a line if `m` is set. -/
def inputStart (b : Builder) : Logged Builder :=
  b.addSegment (.group ['^'])

/-- Match here only at the start of a line. -/
def lineStart (b : Builder) : Logged Builder :=
  (b.withFlag .multiLine).inputStart

/-- Match here only at the end of the input, or of a line if `m` is set. -/
def inputEnd (b : Builder) : Logged Builder :=
  b.addSegment (.group ['$'])

/-- Match here only at the end of a line. -/
def lineEnd (b : Builder) : Logged Builder :=
  (b.withFlag .multiLine).inputEnd

/-! ## Alternations and assertions -/

/-- Exactly one of a text. -/
def once (b : Builder) (t : Text) : Logged Builder := do
  let b ← b.exactly 1
  b.text t

/-- The operand as a builder. -/
def ofOperand : Operand → Logged Builder
  | .text t => empty.once t
  | .pattern b => pure b

/-- Start an alternation; the operand is held until the next alternative comes. -/
def either (b : Builder) (operand : Operand) : Logged Builder := do
  let b ← b.flushForEmbedding
  let other ← ofOperand operand
  let (literal, b) ← b.embed other
  pure { b with held := some literal }

/-- Write an alternative: beside the held one in a new group, else as one more
alternative of the last segment, else alone. -/
def placeAlternative (b : Builder) (alternative : Text) : Logged Builder :=
  match b.held, b.segments.getLast? with
  | some first, _ =>
    pure { b with
      segments := b.segments ++ [⟨.group, [['(', '?', ':'] ++ first ++ [')'], alternative]⟩]
      held := none }
  | none, some last =>
    pure { b with segments := b.segments.dropLast ++ [last.push alternative] }
  | none, none => do
    note .orAlone
    pure { b with segments := [.group alternative] }

/-- One more alternative. Content after a first alternative comes after it in the
pattern, so it finishes the alternation. -/
def or (b : Builder) (operand : Operand) : Logged Builder := do
  let b ← if b.pending.hasContent then b.releaseHeld else pure b
  let b ← b.finishFragment
  if b.pending.hasQuantity then note .quantityDropped
  let b ← b.dropFragment
  let other ← ofOperand operand
  let (literal, b) ← b.embed other
  b.placeAlternative (['(', '?', ':'] ++ literal ++ [')'])

/-- Add an assertion about what follows. -/
def look (b : Builder) (opening : Opening) (other : Builder) : Logged Builder := do
  let b ← b.flushForEmbedding
  let (literal, b) ← b.embed other
  { b with extended := true }.addSegment ⟨opening, [literal]⟩

/-- Assert that a pattern matches here. -/
def ahead (b other : Builder) : Logged Builder :=
  b.look .ahead other

/-- Assert that a pattern does not match here. -/
def notAhead (b other : Builder) : Logged Builder :=
  b.look .notAhead other

/-- Assert that the operand does not match here. -/
def neither (b : Builder) (operand : Operand) : Logged Builder := do
  let other ← ofOperand operand
  b.notAhead other

/-- Assert that the operand does not match here, then match anything. Assertions in a
row share one such run. -/
def nor (b : Builder) (operand : Operand) : Logged Builder := do
  let b := if b.pending.isOpenAnyRun then { b with pending := {} } else b
  let b ← b.neither operand
  let b ← b.atLeast 0
  b.anyChar

/-- A new segment comes last. -/
theorem value_addSegment (b : Builder) (s : Segment) :
    (b.addSegment s).value = { b.flush.value with segments := b.flush.value.segments ++ [s] } :=
  rfl

end Builder

end FluentPattern
