/-
Findings. A syntax diagnostic is what the lexer and the parser report at one place; a diagnostic is
what validation finds on one line. Both become markers, which an editor shows over a range.
-/
import EvlCheck.Json
import EvlCheck.Report.Severity

namespace EvlCheck

/-! ## Syntax diagnostics -/

/-- A report of the lexer or the parser. The column counts from 0; line 0 means no known place. -/
structure SyntaxDiagnostic where
  line : Nat
  column : Nat
  message : String
  severity : Severity
  deriving Repr, DecidableEq

namespace SyntaxDiagnostic

def isError (d : SyntaxDiagnostic) : Bool := d.severity == .error

def toJson (d : SyntaxDiagnostic) : Json :=
  .obj
    [ ("line", .num d.line),
      ("column", .num d.column),
      ("message", .str d.message),
      ("severity", .str d.severity.text) ]

end SyntaxDiagnostic

/-! ## Diagnostics of validation -/

/-- A finding on one line, or on some of its columns. -/
structure Diagnostic where
  severity : Severity
  line : Nat
  column : Option Nat := none
  endColumn : Option Nat := none
  message : String
  deriving Repr, DecidableEq

namespace Diagnostic

/-- The name under which findings of validation are shown. -/
def source : String := "EVAL Analyzer"

def error (line : Nat) (message : String) : Diagnostic where
  severity := .error
  line := line
  message := message

def warning (line : Nat) (message : String) : Diagnostic where
  severity := .warning
  line := line
  message := message

def isError (d : Diagnostic) : Bool := d.severity == .error

def isWarning (d : Diagnostic) : Bool := d.severity == .warning

/-- The place, the severity and the message with colons between. -/
def text (d : Diagnostic) : String :=
  match d.column with
  | some column => s!"{d.line}:{column}: {d.severity.text}: {d.message}"
  | none => s!"{d.line}: {d.severity.text}: {d.message}"

/-- The diagnostic as an object; columns appear where they are known. -/
def toJson (d : Diagnostic) : Json :=
  .obj <|
    [("severity", .str d.severity.text), ("line", .num d.line)] ++
    Json.optionalField "column" .num d.column ++
    Json.optionalField "end_column" .num d.endColumn ++
    [("message", .str d.message), ("source", .str source)]

end Diagnostic

/-! ## Markers -/

/-- A finding as an editor shows it. -/
structure Marker where
  severity : Severity
  startLine : Nat
  startColumn : Nat
  endLine : Nat
  endColumn : Nat
  message : String
  source : String
  deriving Repr, DecidableEq

namespace Marker

/-- The name under which reports of lexer and parser are shown. -/
def parserSource : String := "EVAL Parser"

/-- The end of a marker over a whole line. -/
def wholeLineEnd : Nat := 1000

/-- One character is marked. -/
def ofSyntax (d : SyntaxDiagnostic) : Marker :=
  ⟨d.severity, d.line, d.column + 1, d.line, d.column + 2, d.message, parserSource⟩

/-- The known columns are marked, and the whole line where there are none. -/
def ofDiagnostic (d : Diagnostic) : Marker :=
  ⟨d.severity, d.line, d.column.getD 1, d.line, d.endColumn.getD wholeLineEnd, d.message,
    Diagnostic.source⟩

/-- The markers of all findings, those of syntax first. -/
def ofFindings (syntactic : List SyntaxDiagnostic) (semantic : List Diagnostic) : List Marker :=
  syntactic.map ofSyntax ++ semantic.map ofDiagnostic

def toJson (m : Marker) : Json :=
  .obj
    [ ("severity", .str m.severity.text),
      ("start_line", .num m.startLine),
      ("start_column", .num m.startColumn),
      ("end_line", .num m.endLine),
      ("end_column", .num m.endColumn),
      ("message", .str m.message),
      ("source", .str m.source) ]

end Marker

end EvlCheck
