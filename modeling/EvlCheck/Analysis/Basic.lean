/-
The whole analysis of one source text: it is lexed and parsed, then validated line by line. The two
parts do not wait for each other: a text that does not parse is validated all the same.
-/
import EvlCheck.Check.Validation
import EvlCheck.Parsing.Parse

namespace EvlCheck

structure Analysis where
  tree : Program
  syntactic : List SyntaxDiagnostic
  semantic : List Diagnostic
  tokenCount : Nat
  nodeCount : Nat
  treeDepth : Nat
  sourceBytes : Nat
  journal : Journal

namespace Analysis

/-! ## Counting -/

def findingCount (a : Analysis) : Nat := a.syntactic.length + a.semantic.length

def errorCount (a : Analysis) : Nat :=
  a.syntactic.countP SyntaxDiagnostic.isError + a.semantic.countP Diagnostic.isError

def warningCount (a : Analysis) : Nat := a.findingCount - a.errorCount

def hasErrors (a : Analysis) : Bool := a.errorCount > 0

def isClean (a : Analysis) : Bool := a.findingCount == 0

/-- The findings as an editor shows them. -/
def markers (a : Analysis) : List Marker := Marker.ofFindings a.syntactic a.semantic

/-! ## The analysis of a text -/

def startEvent [Build] (source : String) : Event :=
  (Event.info "Starting EVAL analysis pipeline").add "bytes" source.utf8ByteSize

def doneEvent [Build] (a : Analysis) : Event :=
  ((((((Event.success .analysisPipelineComplete "EVAL analysis pipeline completed").add "tokens"
    a.tokenCount).add "nodes" a.nodeCount).add "syntax_diagnostics" a.syntactic.length).add
    "semantic_diagnostics" a.semantic.length).lacking .fineMilliseconds).lacking
    (.bytesPerSecond a.sourceBytes)

/-- The analysis of a text. It is lexed as the environment prefers, whatever preferences are given. -/
def ofSource [Build] (lexical : LexicalPreferences) (prefs : Preferences) (source : String) :
    Analysis :=
  let parsed := parse lexical prefs.parser source
  let (semantic, validated) := Check.analyze prefs.analysis source
  let root := parsed.tree.toNode
  let a : Analysis :=
    { tree := parsed.tree
      syntactic := parsed.diagnostics
      semantic := semantic
      tokenCount := parsed.tokenCount
      nodeCount := root.count
      treeDepth := root.depth
      sourceBytes := source.utf8ByteSize
      journal := #[startEvent source] ++ parsed.journal ++ validated }
  if prefs.log.performance then { a with journal := a.journal.push a.doneEvent } else a

end Analysis

end EvlCheck
