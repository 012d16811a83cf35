/-
An analyzer lexes one source after another. It keeps the figures and the faults of the source that it
lexed last, and nothing of those before.
-/
import EvlCheck.Lexing.Tokenize

namespace EvlCheck

variable [Build]

structure Analyzer where
  preferences : LexicalPreferences
  metrics : LexMetrics := {}
  /-- The faults that were met, the first one first. -/
  faults : Array LexReport := #[]

namespace Analyzer

/-- What lexing a source leaves: its tokens, the analyzer, and the reporter that was told. -/
structure Run where
  tokens : Array SpannedToken
  analyzer : Analyzer
  reporter : Reporter

/-- Lexes a source. The figures and faults that the analyzer holds are replaced. -/
def tokenize (a : Analyzer) (source : String) (out : Reporter) : Run :=
  let lexed := Lexing.tokenize a.preferences source
  ⟨lexed.tokens,
    { a with metrics := lexed.metrics a.preferences, faults := lexed.reports },
    lexed.report a.preferences source out⟩

end Analyzer

end EvlCheck
