/-
What the command line writes to standard output: the findings, the fixes and the parse tree, as text
or as JSON.
-/
import EvlCheck.Analysis.About
import EvlCheck.Analysis.Basic
import EvlCheck.Cli.Command
import EvlCheck.Fix.Action
import EvlCheck.Tree.Json

namespace EvlCheck.Cli

/-- A text of lines, each with its line break. -/
def unlines (lines : List String) : String :=
  lines.foldl (fun out line => out ++ line ++ "\n") ""

/-- The usage of the program, line by line. -/
def usageLines (program : String) : List String :=
  [ s!"Usage: {program} <input.evl> [--json] [--actions] [--tree]",
    s!"       {program} --help" ]

def helpText [Build] (program : String) : String :=
  unlines <|
    [ s!"EVAL Analyzer v{About.version}",
      "Static analysis for EVAL programs: syntax, semantics and quick fixes",
      "",
      "USAGE:",
      s!"    {program} <input.evl> [options]",
      "",
      "OPTIONS:",
      "    --help       Show this help message",
      "    --json       Print markers (and requested extras) as JSON",
      "    --actions    List quick fixes for each finding",
      "    --tree       Print the parse tree",
      "",
      "EXIT STATUS:",
      "    0 when no error-severity diagnostics were found, 1 otherwise",
      "",
      "PIPELINE:" ] ++
    About.lines.map ("    " ++ ·)

/-- A finding on three lines. -/
def markerText (file : String) (m : Marker) : String :=
  s!"{m.severity.text}: {m.message}\n  --> {file}:{m.startLine}:{m.startColumn}\n  = source: {m.source}"

/-- An action on one line, with a star if it is preferred, and the place of its first edit. -/
def actionText (a : CodeAction) : String :=
  let mark := if a.preferred then "*" else "-"
  let place := match a.edits.head? with
    | some e => s!" at {e.range.text}"
    | none => ""
  s!"  {mark} {a.title} [{a.kind.text}]{place}"

/-- The figures of an analysis that took so many milliseconds. -/
def statusText (a : Analysis) (millis : String) : String :=
  let status := if a.hasErrors then "FAILED" else "OK"
  s!"{status}: {a.errorCount} error(s), {a.warningCount} warning(s); {a.tokenCount} tokens, {a.nodeCount} nodes in {millis}ms"

def reportText (file : String) (options : Options) (a : Analysis) (actions : List CodeAction)
    (millis : String) : String :=
  unlines <|
    a.markers.flatMap (fun m => [markerText file m, ""]) ++
    (if actions.isEmpty then []
      else ["Available fixes:"] ++ actions.map actionText ++ [""]) ++
    (if options.tree then [a.tree.toNode.outline] else []) ++
    [statusText a millis]

/-- The report as a JSON value, with the extras that are asked for. -/
def reportJson (file : String) (options : Options) (a : Analysis) (actions : List CodeAction) :
    Json :=
  .obj <|
    [("file", .str file), ("markers", .arr (a.markers.map Marker.toJson))] ++
    (if options.actions then [("actions", .arr (actions.map CodeAction.toJson))] else []) ++
    (if options.tree then [("tree", a.tree.toJson)] else []) ++
    [("token_count", .num a.tokenCount), ("node_count", .num a.nodeCount)]

end EvlCheck.Cli
