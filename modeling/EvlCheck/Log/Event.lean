/-
Events of the log. An event has a level, a code, a message that is cut beyond a length, perhaps a
span, and named values kept in the order of their names. Events of work on a document carry its
address and version. Every part of the analyzer returns its events in a `Journal`, remarks for
debugging among them; who keeps a log decides which of them it admits.
-/
import EvlCheck.Json
import EvlCheck.Limits.Build
import EvlCheck.Log.Code
import EvlCheck.Log.Level
import EvlCheck.Text.Position

namespace EvlCheck

/-- The document that a piece of work is about. -/
structure DocumentScope where
  uri : String
  version : Nat
  deriving Repr, DecidableEq

/-- A value that only a clock can supply; the events of a run name what they lack. -/
inductive Measure where
  /-- Time in whole milliseconds. -/
  | milliseconds
  /-- Time in milliseconds with two places. -/
  | fineMilliseconds
  /-- How many of so many bytes were worked through in a second. -/
  | bytesPerSecond (bytes : Nat)
  deriving Repr, DecidableEq

namespace Measure

/-- The name under which an event shows the value. -/
def name : Measure → String
  | .milliseconds | .fineMilliseconds => "duration_ms"
  | .bytesPerSecond _ => "processing_rate_bytes_per_sec"

/-- Hundredths of a millisecond with a point before the last two digits. -/
def hundredthsText (n : Nat) : String :=
  let digits := toString (n % 100)
  toString (n / 100) ++ "." ++ (if n % 100 < 10 then "0" ++ digits else digits)

/-- The value for a run that took so many microseconds. -/
def text (micros : Nat) : Measure → String
  | .milliseconds => toString (micros / 1000)
  | .fineMilliseconds => hundredthsText ((micros + 5) / 10)
  | .bytesPerSecond bytes => toString (bytes * 1000000 / Nat.max micros 1)

end Measure

structure Event where
  level : LogLevel
  code : Code
  message : String
  span : Option Span := none
  context : List (String × String) := []
  scope : Option DocumentScope := none
  measures : List Measure := []
  deriving Repr

/-- Events in the order in which they arose. -/
abbrev Journal := Array Event

namespace Event

/-! ## Building events -/

/-- A message of at most the permitted length, with dots where its end was cut off. -/
def cutMessage [Build] (message : String) : String :=
  if message.length ≤ Limit.logMessageChars then message
  else String.ofList (message.toList.take Limit.logMessageChars) ++ "..."

/-- An event without span or values. -/
def plain [Build] (level : LogLevel) (code : Code) (message : String) : Event :=
  { level := level, code := code, message := cutMessage message }

def error [Build] (code : Code) (message : String) : Event := plain .error code message

def warning [Build] (message : String) : Event := plain .warning .plainWarning message

def warningOf [Build] (code : Code) (message : String) : Event := plain .warning code message

def info [Build] (message : String) : Event := plain .info .plainInfo message

def success [Build] (code : Code) (message : String) : Event := plain .info code message

def debug [Build] (message : String) : Event := plain .debug .plainDebug message

/-- Enters a value under its name; a value entered before under that name is replaced. -/
def insertContext (key value : String) : List (String × String) → List (String × String)
  | [] => [(key, value)]
  | (k, v) :: rest =>
    if key < k then (key, value) :: (k, v) :: rest
    else if key = k then (key, value) :: rest
    else (k, v) :: insertContext key value rest

/-- The event with one more named value. -/
def add {α : Type} [ToString α] (e : Event) (key : String) (value : α) : Event :=
  { e with context := insertContext key (toString value) e.context }

/-- The event with one more value for a clock to supply. -/
def lacking (e : Event) (m : Measure) : Event := { e with measures := e.measures ++ [m] }

/-- The event with the values it lacked. -/
def measured (read : Measure → String) (e : Event) : Event :=
  e.measures.foldl (fun e m => e.add m.name (read m)) { e with measures := [] }

def spanning (e : Event) (s : Span) : Event := { e with span := some s }

/-- The event as work on a document; the innermost document around it stays. -/
def within (d : DocumentScope) (e : Event) : Event :=
  if e.scope.isSome then e
  else { (e.add "document" d.uri).add "version" d.version with scope := some d }

/-! ## Questions -/

def isError (e : Event) : Bool := e.level == .error

def isWarning (e : Event) : Bool := e.level == .warning

def isInfo (e : Event) : Bool := e.level == .info

/-! ## Written forms -/

/-- The named values in brackets, or nothing where there are none. -/
def contextText (e : Event) : String :=
  if e.context.isEmpty then ""
  else " (" ++ ", ".intercalate (e.context.map fun (k, v) => k ++ "=" ++ v) ++ ")"

def format (e : Event) : String :=
  let place := match e.span with
    | none => ""
    | some s => s!" at {s.start.text}"
  s!"[{e.level.text}] {e.code.text} - {e.message}{place}{e.contextText}"

/-- What a reader needs to know about an error. -/
def errorMetadata (e : Event) : Json :=
  .obj
    [ ("description", .str e.code.description),
      ("recommended_action", .str e.code.action),
      ("recoverable", .bool e.code.recoverable) ]

/-- Both ends of the event's span. -/
def spanJson (s : Span) : Json :=
  .obj
    [ ("end_column", .num s.stop.column),
      ("end_line", .num s.stop.line),
      ("start_column", .num s.start.column),
      ("start_line", .num s.start.line) ]

/-- The event as an object with its fields in the order of their names. -/
def toJson (e : Event) (timestamp : String) : Json :=
  .obj <|
    [("category", .str e.code.category), ("code", .str e.code.text)] ++
    (if e.context.isEmpty then []
      else [("context", .obj (e.context.map fun (k, v) => (k, .str v)))]) ++
    (if e.isError then [("error_metadata", e.errorMetadata)] else []) ++
    [ ("level", .str e.level.text),
      ("message", .str e.message),
      ("severity", .str e.code.gravity.text) ] ++
    Json.optionalField "span" spanJson e.span ++
    [("timestamp", .str timestamp)]

end Event

namespace Journal

/-- The events that reach a log kept at level `least`. -/
def admitted (least : LogLevel) (j : Journal) : Journal :=
  j.filter fun e => least.admits e.level

def within (d : DocumentScope) (j : Journal) : Journal :=
  j.map (Event.within d)

end Journal

end EvlCheck
