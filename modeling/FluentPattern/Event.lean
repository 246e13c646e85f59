import FluentPattern.Expression
import FluentPattern.Fragment

/-!
# Events

What building and compiling a pattern reports besides its result: the pieces as
they are finished, and calls that have no effect. A `Logged` value carries the
events of its computation in order.

Main statements: `Logged.value_bind`, `Logged.events_bind`.
-/

namespace FluentPattern

/-- How much an event matters. -/
inductive Level where
  | trace
  | debug
  | warn
deriving DecidableEq

/-- The level as records name it. -/
def Level.name : Level → Text
  | trace => "trace".toList
  | debug => "debug".toList
  | warn => "warn".toList

/-- Something that building or compiling a pattern reports. -/
inductive Event where
  /-- A fragment is finished and becomes a segment. -/
  | finished (segment : Segment)
  /-- A segment is added by a call of its own. -/
  | added (segment : Segment)
  /-- A first alternative is written alone, since no other one follows. -/
  | eitherAlone (literal : Text)
  /-- An alternative has nothing before it to join. -/
  | orAlone
  /-- A fragment is dropped that captures and has no content. -/
  | captureDropped
  /-- A quantity is dropped that has no content. -/
  | quantityDropped
  /-- A fragment repeats as little as possible and has no quantity. -/
  | reluctanceIgnored
  /-- A fragment holds a content and refuses another one. -/
  | contentRefused (held refused : Content)
  /-- A fragment holds a content and refuses a whole pattern. -/
  | patternRefused (held : Content)
  /-- An empty text is no content. -/
  | textEmpty
  /-- A class without members is no content. -/
  | membersEmpty (negated : Bool)
  /-- Groups are numbered from one. -/
  | groupZero
  /-- A run that excludes nothing; whether it needs at least one character. -/
  | nothingExcluded (nonempty : Bool)
  /-- A pattern is compiled. -/
  | compiled (expression : Expression)
deriving DecidableEq

namespace Event

/-- How much the event matters. -/
def level : Event → Level
  | finished _ | added _ => .trace
  | eitherAlone _ | compiled _ => .debug
  | _ => .warn

/-- The event as records word it. -/
def message : Event → Text
  | finished s => "flush: ".toList ++ s.text
  | added s => "emit: ".toList ++ s.text
  | eitherAlone t => "either without or; emitting (?:".toList ++ t ++ ") alone".toList
  | orAlone => "or() with nothing before it; emitting the alternative alone".toList
  | captureDropped => "as_group() without content; the group and its quantity are dropped".toList
  | quantityDropped => "quantity before or() has no content; it is dropped".toList
  | reluctanceIgnored => "reluctant marker on an unquantified unit is ignored".toList
  | contentRefused held refused =>
    "fragment already holds ".toList ++ held.description ++ "; dropping ".toList ++
      refused.description
  | patternRefused held =>
    "fragment already holds ".toList ++ held.description ++ "; dropping like() pattern".toList
  | textEmpty => "of(\"\") leaves the content unset".toList
  | membersEmpty false => "from_class(\"\") leaves the content unset".toList
  | membersEmpty true => "not_from_class(\"\") leaves the content unset".toList
  | groupZero =>
    "of_group(0) leaves the content unset; groups are numbered from 1".toList
  | nothingExcluded false => "anything_but(\"\") excludes nothing".toList
  | nothingExcluded true => "something_but(\"\") excludes nothing".toList
  | compiled e =>
    "compiled ".toList ++ e.text.quoted ++ " on the ".toList ++ e.engine.name ++ " engine".toList

end Event

/-- A value with the events of its computation, the first one first. -/
structure Logged (α : Type) where
  /-- The result. -/
  value : α
  /-- What was reported on the way. -/
  events : List Event
deriving DecidableEq

namespace Logged

instance : Monad Logged where
  pure a := ⟨a, []⟩
  bind x f :=
    let y := f x.value
    ⟨y.value, x.events ++ y.events⟩

/-- Report one event. -/
def note (e : Event) : Logged Unit :=
  ⟨(), [e]⟩

variable {α β : Type}

@[simp] theorem value_pure (a : α) : (pure a : Logged α).value = a :=
  rfl

@[simp] theorem events_pure (a : α) : (pure a : Logged α).events = [] :=
  rfl

@[simp] theorem value_bind (x : Logged α) (f : α → Logged β) :
    (x >>= f).value = (f x.value).value :=
  rfl

@[simp] theorem events_bind (x : Logged α) (f : α → Logged β) :
    (x >>= f).events = x.events ++ (f x.value).events :=
  rfl

@[simp] theorem value_note (e : Event) : (note e).value = () :=
  rfl

@[simp] theorem events_note (e : Event) : (note e).events = [e] :=
  rfl

end Logged

end FluentPattern
