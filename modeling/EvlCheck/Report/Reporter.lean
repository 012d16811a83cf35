/-
The place where lexer and parser report: it keeps the first diagnostics up to a limit, counts the
others, and holds the journal of the run.
-/
import EvlCheck.Log.Event
import EvlCheck.Report.Diagnostic

namespace EvlCheck

variable [Build]

/-- Diagnostics kept in the order of reporting, the number of those dropped, and the journal. -/
structure Reporter where
  kept : Array SyntaxDiagnostic := #[]
  dropped : Nat := 0
  journal : Journal := #[]
  /-- Every report that was made, kept or not, the last one first. Nothing is shown of it. -/
  reported : List SyntaxDiagnostic := []
  /-- The first reports are kept, as many as permitted. -/
  kept_eq : kept.toList = reported.reverse.take Limit.syntaxDiagnostics := by
    exact List.take_nil.symm
  /-- Each report is kept or counted as dropped. -/
  counted : kept.size + dropped = reported.length := by exact rfl

/-- Where a report of an ambiguity finds its place: nothing to look it up in, or the answers for its
first token. -/
inductive AmbiguityPlace where
  | unknown
  | answers (line column : Option Nat)
  deriving Repr

namespace Reporter

/-- What nothing was reported to yet. -/
def fresh : Reporter := {}

/-- Enters an event into the journal. -/
def log (r : Reporter) (e : Event) : Reporter :=
  { r with journal := r.journal.push e }

/-- The event that tells of the limit, entered when the first diagnostic is dropped. -/
def limitEvent : Event :=
  (Event.warningOf .syntaxLimitReached
    "Syntax diagnostic limit reached, further reports dropped").add "limit" Limit.syntaxDiagnostics

/-- A report behind as many as are kept at most is not among the first. -/
theorem kept_eq_of_full {r : Reporter} (h : r.kept.size ≥ Limit.syntaxDiagnostics)
    (d : SyntaxDiagnostic) :
    r.kept.toList = (d :: r.reported).reverse.take Limit.syntaxDiagnostics := by
  have hcount := r.counted
  rw [List.reverse_cons, List.take_append_of_le_length (by rw [List.length_reverse]; omega)]
  exact r.kept_eq

/-- Before that every report is among the first. -/
theorem push_kept_eq {r : Reporter} (h : r.kept.size < Limit.syntaxDiagnostics)
    (d : SyntaxDiagnostic) :
    (r.kept.push d).toList = (d :: r.reported).reverse.take Limit.syntaxDiagnostics := by
  have hlength := congrArg List.length r.kept_eq
  rw [Array.length_toList, List.length_take, List.length_reverse] at hlength
  have hall : r.kept.toList = r.reported.reverse := by
    rw [r.kept_eq, List.take_of_length_le (by rw [List.length_reverse]; omega)]
  rw [Array.toList_push, hall, List.reverse_cons, List.take_of_length_le]
  rw [List.length_append, List.length_reverse, List.length_singleton]
  omega

/-- Keeps a diagnostic, or drops it once the limit is reached. -/
def push (r : Reporter) (d : SyntaxDiagnostic) : Reporter :=
  if h : r.kept.size ≥ Limit.syntaxDiagnostics then
    { kept := r.kept
      dropped := r.dropped + 1
      journal := if r.dropped = 0 then r.journal.push limitEvent else r.journal
      reported := d :: r.reported
      kept_eq := kept_eq_of_full h d
      counted := by rw [List.length_cons, ← r.counted]; omega }
  else
    { kept := r.kept.push d
      dropped := r.dropped
      journal := r.journal
      reported := d :: r.reported
      kept_eq := push_kept_eq (Nat.lt_of_not_le h) d
      counted := by rw [Array.size_push, List.length_cons, ← r.counted]; omega }

/-- What stands for the token of a report without one. -/
def unknownToken : String := "unknown"

/-- The report of an error; one of the lexer has no token to name. -/
def errorReport (offending : Option String) (line column : Nat) (message : String) :
    SyntaxDiagnostic :=
  ⟨line, column, s!"{message} (token: \"{offending.getD unknownToken}\")", .error⟩

/-- Reports an error. -/
def syntaxError (r : Reporter) (offending : Option String) (line column : Nat) (message : String) :
    Reporter :=
  r.push (errorReport offending line column message)

/-- Columns have 32 bits. -/
def columnOfIndex (index : Nat) : Nat := index % 4294967296

/-- The line and column of an ambiguity that starts at a token. -/
def AmbiguityPlace.resolve (start : Nat) : AmbiguityPlace → Nat × Nat
  | .unknown => (0, columnOfIndex start)
  | .answers line column => (line.getD 0, column.getD (columnOfIndex start))

/-- Warns that the tokens from `start` to `stop` can be read in two ways. -/
def ambiguity (r : Reporter) (place : AmbiguityPlace) (start stop : Nat) : Reporter :=
  let at' := AmbiguityPlace.resolve start place
  let r := r.log <| ((Event.warningOf .ambiguousAlternative "Ambiguous alternative").add
    "start" start).add "stop" stop
  r.push ⟨at'.1, at'.2, s!"Ambiguity detected from index {start} to {stop}", .warning⟩

/-- Records a failure that has no better report. -/
def failure (r : Reporter) (line column : Option Nat) (message : String) : Reporter :=
  r.push ⟨line.getD 0, column.getD 0, message, .error⟩

/-! ## What was reported -/

/-- The errors among the reports, the last one first. -/
def errors (r : Reporter) : List SyntaxDiagnostic := r.reported.filter (·.isError)

@[simp] theorem reported_fresh : fresh.reported = [] := rfl

@[simp] theorem reported_log (r : Reporter) (e : Event) : (r.log e).reported = r.reported := rfl

@[simp] theorem reported_push (r : Reporter) (d : SyntaxDiagnostic) :
    (r.push d).reported = d :: r.reported := by
  unfold push
  split <;> rfl

@[simp] theorem errors_syntaxError (r : Reporter) (offending : Option String) (line column : Nat)
    (message : String) : (r.syntaxError offending line column message).errors =
      errorReport offending line column message :: r.errors := by
  unfold errors syntaxError
  rw [reported_push]
  exact List.filter_cons_of_pos rfl

/-- A warning is no error. -/
@[simp] theorem errors_ambiguity (r : Reporter) (place : AmbiguityPlace) (start stop : Nat) :
    (r.ambiguity place start stop).errors = r.errors := by
  unfold errors ambiguity
  dsimp only
  rw [reported_push]
  exact List.filter_cons_of_neg (by simp [SyntaxDiagnostic.isError])

end Reporter

end EvlCheck
