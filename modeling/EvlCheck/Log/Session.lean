/-
The log of a running program. It is set up once: until then events are dropped. A user's choices can
be put in once, else those of the environment hold; they may not keep warnings off the console.
Events of work on a document carry it.
-/
import EvlCheck.Log.Service

namespace EvlCheck

variable [Build]

/-- Why the log cannot be set up as asked. -/
inductive LogFault where
  /-- The chosen level keeps warnings off the console. -/
  | hidesWarnings (level : LogLevel)
  | alreadyChosen
  | alreadyStarted
  /-- More events, or fewer, are kept in memory than a log may be built with. -/
  | bufferTooLarge (events : Nat)
  | bufferTooSmall (events : Nat)
  deriving Repr, DecidableEq

def LogFault.message : LogFault → String
  | .hidesWarnings level =>
    s!"Minimum log level {level.name} hides warnings; level {Limit.logLevelFloor} or more verbose required"
  | .alreadyChosen => "Runtime preferences already initialized"
  | .alreadyStarted => "Global logger already initialized"
  | .bufferTooLarge events => s!"Log buffer size too large: {events}"
  | .bufferTooSmall events => s!"Log buffer size too small: {events}"

/-- The fault of choices, if they have one. -/
def LogPreferences.fault? (p : LogPreferences) : Option LogFault :=
  if p.level.rank < Limit.logLevelFloor ∧ p.console then some (.hidesWarnings p.level) else none

/-- The log of a program: the choices of its environment, those put in, the service, the document
being worked on, and the lines written so far. -/
structure LogSession where
  environment : LogPreferences := {}
  chosen : Option LogPreferences := none
  service : Option LogService := none
  scope : Option DocumentScope := none
  written : Array LogLine := #[]

namespace LogSession

/-! ## Settings -/

/-- The choices in force. -/
def preferences (s : LogSession) : LogPreferences := s.chosen.getD s.environment

def level (s : LogSession) : LogLevel := s.preferences.effectiveLevel Limit.logLevelFloor

def isStarted (s : LogSession) : Bool := s.service.isSome

/-- The fault of the settings, if they have one: of the room that the build has for events, else of
the choices that were put in. -/
def fault? (s : LogSession) : Option LogFault :=
  if Limit.logBuffer > 100000 then some (.bufferTooLarge Limit.logBuffer)
  else if Limit.logBuffer < 100 then some (.bufferTooSmall Limit.logBuffer)
  else s.chosen.bind LogPreferences.fault?

/-- Puts in the user's choices. -/
def choose (s : LogSession) (p : LogPreferences) : Except LogFault LogSession :=
  match p.fault? with
  | some fault => .error fault
  | none => if s.chosen.isSome then .error .alreadyChosen else .ok { s with chosen := some p }

/-- The settings, one to a line. -/
def summary (s : LogSession) : String :=
  "\n".intercalate
    [ "Logging Configuration:",
      s!"- Log buffer size: {Limit.logBuffer}",
      s!"- Max message length: {Limit.logMessageChars}",
      s!"- Minimum level floor: {Limit.logLevelFloor}",
      s!"- Effective min level: {s.level.text}",
      s!"- Structured logging: {s.preferences.structured}",
      s!"- Console logging: {s.preferences.console}",
      s!"- Performance events: {s.preferences.performance}" ]

/-- The state of the log, and the settings. -/
def status (s : LogSession) : String :=
  let service := match s.service with
    | none => ""
    | some service => s!"Service level: {service.least.text}\n"
  s!"=== Logging System Diagnostics ===\nInitialized: {s.isStarted}\n{service}\n{s.summary}"

/-! ## Events -/

/-- Passes events to the service. -/
def deliver (s : LogSession) (j : Journal) : LogSession :=
  match s.service with
  | none => s
  | some service =>
    let (service, lines) := service.take j
    { s with service := some service, written := s.written ++ lines }

/-- Logs events of the program: debugging remarks only where the level in force asks for them, and
all with the document being worked on. -/
def log (s : LogSession) (j : Journal) : LogSession :=
  let wanted : Journal := j.filter fun e => e.level ≠ .debug ∨ s.level = .debug
  s.deliver <| match s.scope with
    | none => wanted
    | some scope => Journal.within scope wanted

/-- Logs an error as it is; before the log is set up it is written to the console. -/
def logAnyway (s : LogSession) (code : Code) (message : String) : LogSession :=
  if s.isStarted then s.deliver #[Event.error code message]
  else { s with written := s.written.push (.plain s!"[ERROR] FALLBACK: [{code.text}] {message}") }

def workingOn (s : LogSession) (scope : Option DocumentScope) : LogSession :=
  { s with scope := scope }

/-! ## Setting up -/

/-- The event that tells of the set-up. -/
def startEvent : Event :=
  .success .systemInitializationCompleted "Global logging system initialized"

/-- Sets up the service that the choices ask for, unless there is one. -/
def start (s : LogSession) : LogSession :=
  if s.isStarted then s
  else { s with service := some (.configured s.preferences) }.deliver #[startEvent]

/-- Sets up a service with memory. -/
def startInMemory (s : LogSession) (least : LogLevel) : Except LogFault LogSession :=
  if s.isStarted then .error .alreadyStarted
  else .ok { s with service := some (.inMemory least) }

/-- The events in memory, where there is one. -/
def remembered? (s : LogSession) : Option Journal :=
  s.service.bind fun service => if service.target = .memory then some service.events else none

end LogSession

end EvlCheck
