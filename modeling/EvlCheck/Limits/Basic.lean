/-
The limits an analyzer is built with, one record per stage, and their values in the two profiles.
-/
namespace EvlCheck

/-- Bounds on one source text and on its lexemes. -/
structure LexicalLimits where
  sourceBytes : Nat
  stringBytes : Nat
  identifierChars : Nat
  commentChars : Nat
  tokens : Nat
  deriving Repr, DecidableEq

/-- Bounds on one parse. -/
structure SyntacticLimits where
  parseDepth : Nat
  errorHistory : Nat
  ruleStack : Nat
  recoveryScan : Nat
  lookahead : Nat
  diagnostics : Nat
  deriving Repr, DecidableEq

/-- Bounds on one validation run. -/
structure SemanticLimits where
  diagnostics : Nat
  lineChars : Nat
  callExtraction : Nat
  inferenceDepth : Nat
  deriving Repr, DecidableEq

/-- Bounds on one list of code actions. -/
structure ActionLimits where
  actions : Nat
  deriving Repr, DecidableEq

/-- Bounds on a workspace and on the analyses under way for it. -/
structure SessionLimits where
  openDocuments : Nat
  pendingTickets : Nat
  deriving Repr, DecidableEq

/-- Bounds on the log, and the level that a user cannot go below. -/
structure LogLimits where
  buffer : Nat
  messageChars : Nat
  levelFloor : Nat
  deriving Repr, DecidableEq

structure Limits where
  lexical : LexicalLimits
  syntactic : SyntacticLimits
  semantic : SemanticLimits
  actions : ActionLimits
  session : SessionLimits
  log : LogLimits
  deriving Repr, DecidableEq

def Limits.development : Limits where
  lexical := ⟨10485760, 1048576, 255, 10000, 1000000⟩
  syntactic := ⟨100, 50, 20, 1000, 10, 500⟩
  semantic := ⟨1000, 10000, 256, 64⟩
  actions := ⟨200⟩
  session := ⟨64, 1024⟩
  log := ⟨10000, 10000, 1⟩

/-- Production takes in smaller sources and nests less deeply. -/
def Limits.production : Limits :=
  { Limits.development with
    lexical := { Limits.development.lexical with sourceBytes := 1048576 }
    syntactic := { Limits.development.syntactic with parseDepth := 64 } }

end EvlCheck
