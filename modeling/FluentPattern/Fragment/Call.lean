import FluentPattern.Fragment

/-!
# Calls on a fragment

What can be said about the fragment in progress, as data. Two calls answer
whether they had an effect: the first content and the first capture do.

Main statements: `answer_setContent`.
-/

namespace FluentPattern.Fragment

/-- A call on a fragment. -/
inductive Call where
  | setExact (n : Nat)
  | setMin (n : Nat)
  | setMax (n : Nat)
  | setContent (c : Content)
  | setReluctant
  | setCapture
  | shiftGroups (offset : Nat)
deriving DecidableEq

/-- The fragment after a call. -/
def apply (f : Fragment) : Call → Fragment
  | .setExact n => f.setExact n
  | .setMin n => f.setMin n
  | .setMax n => f.setMax n
  | .setContent c => f.setContent c
  | .setReluctant => f.setReluctant
  | .setCapture => f.setCapture
  | .shiftGroups offset => f.shiftGroups offset

/-- What a call answers, if it answers. -/
def answer (f : Fragment) : Call → Option Bool
  | .setContent _ => some !f.hasContent
  | .setCapture => some !f.capture
  | _ => none

/-- The answer and the fragment after each of some calls. -/
def run (f : Fragment) : List Call → List (Option Bool × Fragment)
  | [] => []
  | c :: calls => (f.answer c, f.apply c) :: run (f.apply c) calls

/-- A content is taken exactly if the fragment holds none. -/
theorem answer_setContent (f : Fragment) (c : Content) :
    f.answer (.setContent c) = some true ↔ f.content = none := by
  simp [answer, hasContent]

end FluentPattern.Fragment
