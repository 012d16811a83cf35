/-
Why validation leaves a part of its input unseen. Such faults are logged; no diagnostic tells of
them.
-/
import EvlCheck.Log.Event

namespace EvlCheck

/-- A bound of validation that an input exceeds. -/
inductive CheckFault where
  /-- Findings beyond the limit are dropped. -/
  | limitReached (limit : Nat)
  /-- The type of an expression is not followed further; the start of what was left is kept. -/
  | inferenceTooDeep (depth : Nat) (expression : List Char)
  /-- A line is skipped. -/
  | lineTooLong (line length : Nat)
  deriving Repr, DecidableEq

namespace CheckFault

/-- Characters of an expression that a message shows. -/
def shownChars : Nat := 80

def message [Build] : CheckFault → String
  | .limitReached limit =>
    s!"Semantic diagnostic limit of {limit} reached; remaining findings dropped"
  | .inferenceTooDeep depth expression =>
    let shown := String.ofList (expression.take shownChars)
    s!"Type inference exceeded depth {depth} on '{shown}'"
  | .lineTooLong line length =>
    s!"Line {line} has {length} characters, more than the limit of {Limit.lineChars}; skipped"

def code : CheckFault → Code
  | .limitReached _ => .semanticLimitReached
  | .inferenceTooDeep .. => .inferenceDepthExceeded
  | .lineTooLong .. => .lineTooLong

def warning [Build] (f : CheckFault) : Event := .warningOf f.code f.message

end CheckFault

end EvlCheck
