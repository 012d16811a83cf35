/-
Where the findings of validation are kept. Checks yield notes, which are findings and events in
the order in which they arise; a sink takes them in and keeps the first findings up to a limit.
-/
import EvlCheck.Check.Fault
import EvlCheck.Report.Diagnostic

namespace EvlCheck

inductive Note where
  | finding (d : Diagnostic)
  | event (e : Event)
  deriving Repr

namespace Note

def error (line : Nat) (message : String) : Note := .finding (.error line message)

def warning (line : Nat) (message : String) : Note := .finding (.warning line message)

def findings (notes : List Note) : List Diagnostic :=
  notes.filterMap fun
    | .finding d => some d
    | .event _ => none

@[simp] theorem findings_nil : findings [] = [] := rfl

@[simp] theorem findings_append (a b : List Note) :
    findings (a ++ b) = findings a ++ findings b := by
  simp [findings]

end Note

/-- Findings in order, how many there may be, whether some were dropped, and the journal. -/
structure Sink where
  limit : Nat
  kept : Array Diagnostic := #[]
  truncated : Bool := false
  journal : Journal := #[]

namespace Sink

def log (s : Sink) (e : Event) : Sink := { s with journal := s.journal.push e }

/-- The event that tells of the limit, entered when the first finding is dropped. -/
def limitEvent [Build] (s : Sink) (dropped : Diagnostic) : Event :=
  let fault := CheckFault.limitReached s.limit
  (Event.error fault.code fault.message).add "line" dropped.line

/-- Keeps a finding, or drops it once the limit is reached. -/
def push [Build] (s : Sink) (d : Diagnostic) : Sink :=
  if s.kept.size ≥ s.limit then
    if s.truncated then s else { s.log (s.limitEvent d) with truncated := true }
  else { s with kept := s.kept.push d }

def add [Build] (s : Sink) : Note → Sink
  | .finding d => s.push d
  | .event e => s.log e

def addAll [Build] (s : Sink) (notes : List Note) : Sink := notes.foldl add s

/-! ## What is kept -/

@[simp] theorem limit_push [Build] (s : Sink) (d : Diagnostic) : (s.push d).limit = s.limit := by
  unfold push
  split
  · split <;> rfl
  · rfl

theorem kept_push [Build] (s : Sink) (d : Diagnostic) :
    (s.push d).kept.toList =
      if s.kept.size ≥ s.limit then s.kept.toList else s.kept.toList ++ [d] := by
  unfold push
  split
  · split <;> rfl
  · simp

end Sink

end EvlCheck
