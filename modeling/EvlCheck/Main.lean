/-
The program: reads the environment and the file, runs the command line, and writes what comes out.
-/
import EvlCheck.Cli.Run

namespace EvlCheck.Cli

def programName : String := "evlcheck"

/-- The variables of the environment that choices are read from. -/
def readEnvironment : IO Environment := do
  let mut pairs := []
  for name in Environment.names do
    if let some value ← IO.getEnv name then
      pairs := (name, value) :: pairs
  return ⟨pairs⟩

/-- The reason that the system gives for a failure, with its number. -/
def reasonOf : IO.Error → String
  | .noFileOrDirectory _ number details | .permissionDenied _ number details
  | .inappropriateType _ number details | .invalidArgument _ number details
  | .resourceExhausted _ number details => s!"{details} (os error {number})"
  | .otherError number details => s!"{details} (os error {number})"
  | e => toString e

/-- The text of a file, or why it cannot be read. -/
def readSource (path : String) : IO (Except String String) := do
  try
    return decode (← IO.FS.readBinFile path)
  catch e => return .error (reasonOf e)

/-- The time of writing: the seconds since the start of the program's clock. -/
def timestamp : IO String := do
  return toString ((← IO.monoNanosNow) / 1000000000)

end EvlCheck.Cli

open EvlCheck EvlCheck.Cli in
/-- Runs the program on the arguments. -/
def main (args : List String) : IO UInt32 := do
  let started ← IO.monoNanosNow
  let source ← match Command.ofArgs args with
    | .check path _ _ => if Source.isSupported path then readSource path else pure (.error "")
    | _ => pure (.error "")
  let outcome := run (← readEnvironment) programName args fun _ => source
  let micros := ((← IO.monoNanosNow) - started) / 1000
  let now ← timestamp
  for line in outcome.log do
    IO.eprint (line.text (Measure.text micros) now)
  IO.print (outcome.output (Measure.fineMilliseconds.text micros))
  return outcome.exit.toUInt32
