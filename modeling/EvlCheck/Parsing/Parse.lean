/-
From a source text to its parse tree and its syntax diagnostics. Parsing never fails: what cannot be
read is reported and left out of the tree.
-/
import EvlCheck.Lexing.Tokenize
import EvlCheck.Parsing.Statement
import EvlCheck.Tree.Node

namespace EvlCheck

variable [Build]

namespace Parser

/-- A parse at the start of a source, which is lexed and whose lexical faults are reported. -/
def ofSource (lexical : LexicalPreferences) (preferences : ParserPreferences) (source : String)
    (reporter : Reporter) : Parser :=
  let lexed := Lexing.tokenize lexical source
  let stream := TokenStream.ofTokens lexed.tokens
  let reporter := (lexed.report lexical source reporter).log stream.builtEvent
  .start stream preferences reporter

/-- Parses the whole stream. -/
def parseProgram (p : Parser) : Program × Parser :=
  let p := p.openProgram
  let p := p.log <|
    ((Event.info "Starting EVAL program parsing").add "tokens" p.stream.size).add "context"
      p.rules.current
  let (tree, p) := Parsing.program p
  let p := p.log <|
    (((Event.success .parseComplete "EVAL program parsing completed").add
      "statements" tree.statements.length).add "errors" p.history.errors.length).add
      "final_position" p.position
  (tree, p.closeProgram)

end Parser

structure ParseOutcome where
  tree : Program
  diagnostics : List SyntaxDiagnostic
  /-- The number of tokens that the parser saw, the end included. -/
  tokenCount : Nat
  journal : Journal

/-- Some diagnostic is an error. -/
def ParseOutcome.hasErrors (o : ParseOutcome) : Bool :=
  o.diagnostics.any SyntaxDiagnostic.isError

/-- The tree of a source, and the state in which its parse ends. -/
def parseState (lexical : LexicalPreferences) (preferences : ParserPreferences) (source : String) :
    Program × Parser :=
  let reporter : Reporter :=
    Reporter.fresh.log <|
      (Event.debug "Starting syntax analysis").add "bytes" source.utf8ByteSize
  (Parser.ofSource lexical preferences source reporter).parseProgram

def parse (lexical : LexicalPreferences) (preferences : ParserPreferences) (source : String) :
    ParseOutcome :=
  let (tree, p) := parseState lexical preferences source
  ⟨tree, p.reporter.kept.toList, p.stream.size, p.reporter.journal⟩

end EvlCheck
