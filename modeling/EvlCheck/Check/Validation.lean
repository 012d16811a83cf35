/-
Validation of a source text line by line. A first pass collects the declarations of all lines, so
that a name may be used above its declaration; a second pass checks each line by its form. The
validator does not parse: it has findings for programs that no parser accepts.
-/
import EvlCheck.Check.Declare
import EvlCheck.Check.TryTracker
import EvlCheck.Settings.Preferences

namespace EvlCheck

open Text Check

variable [Build]

/-! ## Lines -/

/-- A source text ready for validation: its lines in normal form, with an empty one for each line
that was too long. -/
structure Script where
  lines : List (List Char)
  deriving Repr

namespace Script

/-- The fault of a line that is too long. -/
def lineFault? (number : Nat) (line : List Char) : Option CheckFault :=
  if line.length > Limit.lineChars then some (.lineTooLong number line.length) else none

def ofSource (source : List Char) : Script :=
  ⟨(Text.lines source).map fun line =>
    if line.length > Limit.lineChars then [] else normalizeLine line⟩

/-- Warnings about the lines that are too long. -/
def lineWarnings (source : List Char) : Journal :=
  go (Text.lines source) 1 #[]
where
  go : List (List Char) → Nat → Journal → Journal
    | [], _, out => out
    | line :: rest, number, out =>
      go rest (number + 1) (match lineFault? number line with
        | none => out
        | some fault => out.push fault.warning)

def symbols (s : Script) : Symbols :=
  s.lines.foldl (fun symbols line =>
    match declaration? line with
    | none => symbols
    | some d => symbols.declare d.name d.type) {}

end Script

/-! ## The pass over the lines -/

/-- Where the second pass stands: the braces and the names declared above, the latest first. -/
structure Walk where
  tracker : TryTracker := {}
  declared : List String := []
  deriving Repr

namespace Walk

def statementNotes (symbols : Symbols) (w : Walk) (number : Nat) (line : List Char) : List Note :=
  let guarded := w.tracker.protects
  match lineForm line with
  | .declaration d => declarationNotes symbols number (w.declared.contains d.name) guarded d
  | .nameless =>
    [.error number "Variable declaration is missing a name (e.g. `int x = ...`)"]
  | .valueless name => [.warning number s!"Variable '{name}' declared but never assigned"]
  | .call => checkCalls ⟨number, none, symbols⟩ line
  | .assignment none => []
  | .assignment (some value) =>
    (if dividesByZero value && !guarded then [divisionNote number] else []) ++
      checkCalls ⟨number, none, symbols⟩ value
  | .other =>
    if dividesByZero line && !guarded then [divisionNote number]
    else [.warning number s!"Unrecognized statement: '{String.ofList line}'"]

/-- Passes a line: the place after it, and the notes on it. Empty lines and lines of structure have
none. -/
def step (symbols : Symbols) (w : Walk) (number : Nat) (line : List Char) : Walk × List Note :=
  let declared := match declaration? line with
    | none => w.declared
    | some d => d.name :: w.declared
  if line.isEmpty then ({ w with declared }, [])
  else
    -- The braces of a line count before its statement is checked.
    let (tracker, structural) := w.tracker.observe line
    (⟨tracker, declared⟩,
      if structural then [] else statementNotes symbols { w with tracker } number line)

/-- Passes lines until the sink has dropped a finding. -/
def run (symbols : Symbols) : List (List Char) → Nat → Walk → Sink → Sink
  | [], _, _, sink => sink
  | line :: rest, number, w, sink =>
    if sink.truncated then sink
    else
      let (w, notes) := w.step symbols number line
      run symbols rest (number + 1) w (sink.addAll notes)

end Walk

namespace Script

/-- The remark that the first pass is over. -/
def collectedEvent (symbols : Symbols) : Event :=
  (Event.debug "Collected declarations").add "variables" symbols.size

/-- Checks every line; findings go to the sink. -/
def validate (s : Script) (sink : Sink) : Sink :=
  Walk.run s.symbols s.lines 1 {} (sink.log (collectedEvent s.symbols))

end Script

/-! ## The analysis -/

namespace Check

/-- The event that opens an analysis. -/
def startEvent (lines : Nat) : Event :=
  (((Event.info "Starting semantic validation").add "lines" lines).add "max_diagnostics"
    Limit.semanticDiagnostics).add "max_line_length" Limit.lineChars

/-- The remark that an analysis ended early. -/
def stoppedEvent : Event :=
  (Event.debug "Semantic validation stopped early at diagnostic limit").add "limit"
    Limit.semanticDiagnostics

/-- The event that sums an analysis up. -/
def summaryEvent (sink : Sink) (symbols : Symbols) : Event :=
  let errors := sink.kept.countP Diagnostic.isError
  (((((Event.success .validationComplete "Semantic validation completed").add "errors" errors).add
    "warnings" (sink.kept.size - errors)).add "variables" symbols.size).add "truncated"
    sink.truncated).lacking .milliseconds

/-- The findings on a source text in the order of its lines, and the events of the run. -/
def analyze (prefs : AnalysisPreferences) (source : String) : List Diagnostic × Journal :=
  let cs := source.toList
  let script := Script.ofSource cs
  let sink := script.validate
    { limit := Limit.semanticDiagnostics
      journal := (Script.lineWarnings cs).push (startEvent script.lines.length) }
  let sink := if sink.truncated then sink.log stoppedEvent else sink
  let sink := if prefs.logSummary then sink.log (summaryEvent sink script.symbols) else sink
  (sink.kept.toList, sink.journal)

end Check

end EvlCheck
