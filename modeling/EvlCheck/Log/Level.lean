/-
Levels of the log, from the gravest to the most talkative.
-/
namespace EvlCheck

/-- How grave an event is. -/
inductive LogLevel where
  | error
  | warning
  | info
  | debug
  deriving Repr, DecidableEq, Inhabited

namespace LogLevel

/-- Errors first: the larger the rank, the more is said. -/
def rank : LogLevel → Nat
  | .error => 0
  | .warning => 1
  | .info => 2
  | .debug => 3

/-- The name in written events. -/
def text : LogLevel → String
  | .error => "ERROR"
  | .warning => "WARN"
  | .info => "INFO"
  | .debug => "DEBUG"

/-- The name in messages and settings. -/
def name : LogLevel → String
  | .error => "Error"
  | .warning => "Warning"
  | .info => "Info"
  | .debug => "Debug"

/-- Whether a log kept at level `least` takes events of level `l`. -/
def admits (least l : LogLevel) : Bool := l.rank ≤ least.rank

/-- The more talkative of two levels. -/
def max (a b : LogLevel) : LogLevel := if a.rank ≤ b.rank then b else a

/-- Reads a level by name or number, in either case. -/
def ofText? (s : String) : Option LogLevel :=
  match s.map Char.toLower with
  | "error" | "0" => some .error
  | "warning" | "warn" | "1" => some .warning
  | "info" | "2" => some .info
  | "debug" | "3" => some .debug
  | _ => none

/-- The level of the floor that a build sets by number. -/
def ofFloor : Nat → LogLevel
  | 0 => .error
  | 1 => .warning
  | _ => .info

end LogLevel

end EvlCheck
