/-
The build that an analyzer is made by. What reads a limit reads it from the build at hand, so the
theory holds of every build that meets the conditions, the two profiles among them.
-/
import EvlCheck.Limits.Profile
import EvlCheck.Token.Keyword

namespace EvlCheck

/-- Room that no condition asks for and without which there would be little to bound: reserved words
are words, a block is a rule inside the rule of a statement, the lines of a handler that a code action
writes are validated, and where nothing may be kept, told or looked at, not even the first of it is. -/
structure Limits.Roomy (l : Limits) : Prop where
  keyword : ∀ k : Keyword, k.text.toList.length ≤ l.lexical.identifierChars
  block : 2 ≤ l.syntactic.parseDepth
  errorHistory : 0 < l.syntactic.errorHistory
  syntaxDiagnostics : 0 < l.syntactic.diagnostics
  lineChars : 40 ≤ l.semantic.lineChars
  callExtraction : 0 < l.semantic.callExtraction
  pendingTickets : 0 < l.session.pendingTickets

theorem Limits.roomy_development : Limits.development.Roomy where
  keyword := fun k => by cases k <;> decide
  block := by decide
  errorHistory := by decide
  syntaxDiagnostics := by decide
  lineChars := by decide
  callExtraction := by decide
  pendingTickets := by decide

/-- The profiles differ in two limits only, and production has room there too. -/
theorem Limits.roomy_production : Limits.production.Roomy :=
  { Limits.roomy_development with block := by decide }

/-- A build: its profile, the folder of its configuration, and limits that meet the conditions. -/
class Build where
  profile : String
  configFolder : String
  limits : Limits
  accepted : limits.fault? profile = none
  roomy : limits.Roomy

namespace Build

/-- The build that runs where no other is asked for. -/
instance development : Build where
  profile := "development"
  configFolder := "config"
  limits := .development
  accepted := by decide
  roomy := Limits.roomy_development

@[reducible] def production : Build where
  profile := "production"
  configFolder := "config"
  limits := .production
  accepted := by decide
  roomy := Limits.roomy_production

end Build

/-! ## The limits in force -/

namespace Limit

variable [Build]

/-- Bytes of the longest source that is tokenized. -/
def sourceBytes : Nat := Build.limits.lexical.sourceBytes
/-- Bytes of the longest string literal, quotes included. -/
def stringBytes : Nat := Build.limits.lexical.stringBytes
/-- Characters of the longest word. -/
def identifierChars : Nat := Build.limits.lexical.identifierChars
/-- Characters of the longest comment, delimiters included. -/
def commentChars : Nat := Build.limits.lexical.commentChars
/-- Counted tokens after which tokenization stops. -/
def tokens : Nat := Build.limits.lexical.tokens
/-- Grammar rules that may be open at once. -/
def parseDepth : Nat := Build.limits.syntactic.parseDepth
/-- Syntax errors that the parser remembers. -/
def errorHistory : Nat := Build.limits.syntactic.errorHistory
/-- Open rules whose names are kept. -/
def ruleStack : Nat := Build.limits.syntactic.ruleStack
/-- Tokens skipped in search of a place to resume. -/
def recoveryScan : Nat := Build.limits.syntactic.recoveryScan
/-- Tokens the parser may look ahead. -/
def lookahead : Nat := Build.limits.syntactic.lookahead
/-- Syntax diagnostics kept for one source. -/
def syntaxDiagnostics : Nat := Build.limits.syntactic.diagnostics
/-- Semantic diagnostics kept for one source. -/
def semanticDiagnostics : Nat := Build.limits.semantic.diagnostics
/-- Characters of the longest line that is validated. -/
def lineChars : Nat := Build.limits.semantic.lineChars
/-- Calls extracted from one expression. -/
def callExtraction : Nat := Build.limits.semantic.callExtraction
/-- Nesting that type inference follows. -/
def inferenceDepth : Nat := Build.limits.semantic.inferenceDepth
/-- Code actions in one answer. -/
def actions : Nat := Build.limits.actions.actions
def openDocuments : Nat := Build.limits.session.openDocuments
/-- Analyses awaited at once. -/
def pendingTickets : Nat := Build.limits.session.pendingTickets
/-- Events that a memory log keeps. -/
def logBuffer : Nat := Build.limits.log.buffer
/-- Characters of a log message before it is cut. -/
def logMessageChars : Nat := Build.limits.log.messageChars
/-- The number of the least verbose level that a user may choose. -/
def logLevelFloor : Nat := Build.limits.log.levelFloor

theorem length_keyword_le (k : Keyword) : k.text.toList.length ≤ identifierChars :=
  Build.roomy.keyword k

theorem two_le_parseDepth : 2 ≤ parseDepth := Build.roomy.block

theorem lookahead_pos : 0 < lookahead := Limits.lookahead_pos Build.accepted

theorem errorHistory_pos : 0 < errorHistory := Build.roomy.errorHistory

theorem syntaxDiagnostics_pos : 0 < syntaxDiagnostics := Build.roomy.syntaxDiagnostics

theorem forty_le_lineChars : 40 ≤ lineChars := Build.roomy.lineChars

theorem callExtraction_pos : 0 < callExtraction := Build.roomy.callExtraction

theorem pendingTickets_pos : 0 < pendingTickets := Build.roomy.pendingTickets

end Limit

/-- The limits in force are those of the build. -/
example : Limit.parseDepth = 100 ∧ @Limit.parseDepth .production = 64 := ⟨rfl, rfl⟩

end EvlCheck
