/-
Where events end up. A service admits events up to a level and passes them on: nowhere, to the
console as lines of text or of JSON, or into memory, which keeps the last ones.
-/
import EvlCheck.Log.Event
import EvlCheck.Settings.Preferences

namespace EvlCheck

/-! ## Lines on the console -/

/-- A line for the console. An event is written out once its time is known. -/
inductive LogLine where
  | plain (text : String)
  | event (structured : Bool) (e : Event)
  deriving Repr

/-- The text of a line with its line break, given the measured values and the time of writing. -/
def LogLine.text (read : Measure → String) (timestamp : String) : LogLine → String
  | .plain text => text ++ "\n"
  | .event structured e =>
    let e := e.measured read
    (if structured then (e.toJson timestamp).compact else e.format) ++ "\n"

/-! ## Events in memory -/

/-- How many events of each kind there are. -/
structure EventSummary where
  total : Nat
  errors : Nat
  warnings : Nat
  infos : Nat
  deriving Repr, DecidableEq

def EventSummary.hasErrors (s : EventSummary) : Bool := s.errors > 0

namespace Journal

/-- The last events, as many as memory keeps. -/
def kept [Build] (j : Journal) : Journal := j.extract (j.size - Limit.logBuffer) j.size

def errors (j : Journal) : Journal := j.filter Event.isError

/-- Whether an event has a code. -/
def hasCode (j : Journal) (code : Code) : Bool := j.any fun e => e.code == code

def summary (j : Journal) : EventSummary :=
  ⟨j.size, j.countP Event.isError, j.countP Event.isWarning, j.countP Event.isInfo⟩

end Journal

/-! ## Services -/

/-- Where a service passes its events on to. -/
inductive LogTarget where
  | nowhere
  | console (structured : Bool)
  | memory
  deriving Repr, DecidableEq

/-- A place for events; `events` is what memory keeps. -/
structure LogService where
  least : LogLevel
  target : LogTarget
  events : Journal := #[]

namespace LogService

/-- The service with memory. -/
def inMemory (least : LogLevel) : LogService := ⟨least, .memory, #[]⟩

/-- The service that a user chose; without console nothing is shown. -/
def configured [Build] (p : LogPreferences) : LogService where
  least := p.effectiveLevel Limit.logLevelFloor
  target := if p.console then .console p.structured else .nowhere

/-- Whether events of a level are admitted. -/
def admits (s : LogService) (level : LogLevel) : Bool := s.least.admits level

/-- Takes in events: the service after them, and the lines for the console. -/
def take [Build] (s : LogService) (j : Journal) : LogService × List LogLine :=
  let admitted := j.admitted s.least
  match s.target with
  | .nowhere => (s, [])
  | .console structured => (s, admitted.toList.map (.event structured))
  | .memory => ({ s with events := (s.events ++ admitted).kept }, [])

/-- Forgets all events in memory. -/
def clear (s : LogService) : LogService := { s with events := #[] }

end LogService

end EvlCheck
