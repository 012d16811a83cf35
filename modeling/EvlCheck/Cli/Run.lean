/-
A run of the command line as a function of its arguments, its environment and the files it can read.
-/
import EvlCheck.Cli.Output
import EvlCheck.Fix.Generate
import EvlCheck.Log.Session

namespace EvlCheck.Cli

/-- What a run leaves behind. Standard output depends on the time that the run took, which is given
in milliseconds. -/
structure Outcome where
  exit : Nat
  output : String → String
  log : List LogLine

/-- What reading a file yields: its text, or why it cannot be read. -/
abbrev Files := String → Except String String

/-- The text that bytes spell, or why they spell none. -/
def decode (bytes : ByteArray) : Except String String :=
  match String.fromUTF8? bytes with
  | some text => .ok text
  | none => .error "stream did not contain valid UTF-8"

/-- Reading in a folder that holds nothing but files. A path may begin with dots that stand for the
folder itself; nothing can be inside a file. -/
def Files.ofFolder (folder : List (String × ByteArray)) : Files := fun path =>
  let found := match (path.splitOn "/").dropWhile (· == ".") with
    | [name] => (folder.lookup name).map decode
    | name :: _ => (folder.lookup name).map fun _ => .error "Not a directory (os error 20)"
    | [] => none
  found.getD (.error "No such file or directory (os error 2)")

def loadSource (files : Files) (path : String) : Except SourceError String := do
  Source.checkPath path
  match files path with
  | .ok text => .ok text
  | .error reason => .error (.unreadable path reason)

/-- The warning about an argument that is no option. -/
def unknownOption (arg : String) : LogLine := .plain s!"Warning: Unknown option '{arg}'"

/-- Analyses a source and reports. -/
def report [Build] (env : Environment) (log : LogSession) (path : String) (options : Options)
    (source : String) : Outcome :=
  let a := Analysis.ofSource env.lexicalPreferences env.preferences source
  let (actions, made) :=
    if options.actions then
      CodeAction.generate env.analysisPreferences a.semantic source.toList none 1
    else ([], #[])
  { exit := if a.hasErrors then 1 else 0
    output := fun millis =>
      if options.json then (reportJson path options a actions).pretty ++ "\n"
      else reportText path options a actions millis
    log := ((log.log a.journal).log made).written.toList }

def run [Build] (env : Environment) (program : String) (args : List String) (files : Files) :
    Outcome :=
  let log : LogSession := ({ environment := env.logPreferences } : LogSession).start
  let plain (exit : Nat) (output : String) (lines : List LogLine) : Outcome :=
    ⟨exit, fun _ => output, log.written.toList ++ lines⟩
  match Command.ofArgs args with
  | .usage => plain 1 "" ((usageLines program).map .plain)
  | .help => plain 0 (helpText program) []
  | .check path options unknown =>
    let warnings := unknown.map unknownOption
    match loadSource files path with
    | .error e => plain 1 "" (warnings ++ [.plain s!"error[{e.code.text}]: {e.message}"])
    | .ok source => report env { log with written := log.written ++ warnings } path options source

end EvlCheck.Cli
