/-
What a user may choose. Each choice has a built-in value and an environment variable that
overrides it; a variable that does not read as a value of its kind is passed over.
-/
import EvlCheck.Json
import EvlCheck.Log.Level

namespace EvlCheck

/-! ## The environment -/

/-- The variables of an environment, each with its value. -/
structure Environment where
  pairs : List (String × String)
  deriving Repr

namespace Environment

def empty : Environment := ⟨[]⟩

def get? (env : Environment) (name : String) : Option String := env.pairs.lookup name

/-- The truth value that a variable spells exactly, or else the one given. -/
def flag (env : Environment) (name : String) (fallback : Bool) : Bool :=
  match env.get? name with
  | some "true" => true
  | some "false" => false
  | _ => fallback

end Environment

/-! ## The groups of preferences -/

structure LexicalPreferences where
  /-- Tokens are counted by terminal. -/
  detailedMetrics : Bool := true
  /-- Characters that start no token are reported. -/
  reportInvalid : Bool := true
  /-- Comments count as tokens. -/
  countComments : Bool := false
  deriving Repr, DecidableEq

structure ParserPreferences where
  /-- Parsing goes on after an error. -/
  recovery : Bool := true
  /-- Ambiguities are reported. -/
  reportAmbiguities : Bool := true
  /-- Resuming after an error is logged for users. -/
  logRecovery : Bool := false
  deriving Repr, DecidableEq

structure AnalysisPreferences where
  /-- Refactors of the cursor's line stand beside the quick fixes. -/
  includeRefactors : Bool := true
  /-- Each validation ends with a summary in the log. -/
  logSummary : Bool := true
  deriving Repr, DecidableEq

structure LogPreferences where
  /-- Events are written as JSON. -/
  structured : Bool := false
  /-- Events are written to the console. -/
  console : Bool := false
  /-- The most talkative level that is logged. -/
  level : LogLevel := .info
  /-- Whole runs are logged with their figures. -/
  performance : Bool := true
  deriving Repr, DecidableEq

structure Preferences where
  lexical : LexicalPreferences := {}
  parser : ParserPreferences := {}
  analysis : AnalysisPreferences := {}
  log : LogPreferences := {}
  deriving Repr, DecidableEq

/-! ## Reading the environment -/

namespace Environment

def lexicalPreferences (env : Environment) : LexicalPreferences where
  detailedMetrics := env.flag "EVAL_LEXICAL_DETAILED_METRICS" true
  reportInvalid := env.flag "EVAL_LEXICAL_REPORT_INVALID" true
  countComments := env.flag "EVAL_LEXICAL_COUNT_COMMENTS" false

def parserPreferences (env : Environment) : ParserPreferences where
  recovery := env.flag "EVAL_PARSER_ENABLE_RECOVERY" true
  reportAmbiguities := env.flag "EVAL_PARSER_REPORT_AMBIGUITIES" true
  logRecovery := env.flag "EVAL_PARSER_LOG_RECOVERY" false

def analysisPreferences (env : Environment) : AnalysisPreferences where
  includeRefactors := env.flag "EVAL_ANALYSIS_INCLUDE_REFACTORS" true
  logSummary := env.flag "EVAL_ANALYSIS_LOG_SUMMARY" true

def logPreferences (env : Environment) : LogPreferences where
  structured := env.flag "EVAL_LOGGING_USE_STRUCTURED" false
  console := env.flag "EVAL_LOGGING_ENABLE_CONSOLE" false
  level := ((env.get? "EVAL_LOGGING_MIN_LEVEL").bind LogLevel.ofText?).getD .info
  performance := env.flag "EVAL_LOGGING_LOG_PERFORMANCE" true

/-- The variables that choices are read from. -/
def names : List String :=
  [ "EVAL_LEXICAL_DETAILED_METRICS", "EVAL_LEXICAL_REPORT_INVALID", "EVAL_LEXICAL_COUNT_COMMENTS",
    "EVAL_PARSER_ENABLE_RECOVERY", "EVAL_PARSER_REPORT_AMBIGUITIES", "EVAL_PARSER_LOG_RECOVERY",
    "EVAL_ANALYSIS_INCLUDE_REFACTORS", "EVAL_ANALYSIS_LOG_SUMMARY",
    "EVAL_LOGGING_USE_STRUCTURED", "EVAL_LOGGING_ENABLE_CONSOLE", "EVAL_LOGGING_MIN_LEVEL",
    "EVAL_LOGGING_LOG_PERFORMANCE" ]

/-- The choices that an environment makes. -/
def preferences (env : Environment) : Preferences where
  lexical := env.lexicalPreferences
  parser := env.parserPreferences
  analysis := env.analysisPreferences
  log := env.logPreferences

end Environment

/-! ## The level in force -/

namespace LogPreferences

/-- The level in force: the chosen one, or the build's floor where that says more. -/
def effectiveLevel (floor : Nat) (p : LogPreferences) : LogLevel :=
  p.level.max (.ofFloor floor)

end LogPreferences

/-! ## Revising -/

/-- The choices that are made anew by group and key, and the others as they were. -/
def Preferences.revise (p : Preferences) (choice : String → String → Option Bool) :
    Preferences where
  lexical :=
    { detailedMetrics :=
        (choice "lexical" "collect_detailed_metrics").getD p.lexical.detailedMetrics
      reportInvalid := (choice "lexical" "report_invalid_characters").getD p.lexical.reportInvalid
      countComments := (choice "lexical" "count_comments").getD p.lexical.countComments }
  parser :=
    { recovery := (choice "parser" "enable_recovery").getD p.parser.recovery
      reportAmbiguities := (choice "parser" "report_ambiguities").getD p.parser.reportAmbiguities
      logRecovery := (choice "parser" "log_recovery_events").getD p.parser.logRecovery }
  analysis :=
    { includeRefactors := (choice "analysis" "include_refactors").getD p.analysis.includeRefactors
      logSummary := (choice "analysis" "log_analysis_summary").getD p.analysis.logSummary }
  log :=
    { structured := (choice "logging" "use_structured_logging").getD p.log.structured
      console := (choice "logging" "enable_console_logging").getD p.log.console
      level := p.log.level
      performance := (choice "logging" "log_performance_events").getD p.log.performance }

/-! ## Written form -/

/-- All choices as an object with one field to each group. -/
def Preferences.toJson (p : Preferences) : Json :=
  .obj
    [ ("lexical", .obj
        [ ("collect_detailed_metrics", .bool p.lexical.detailedMetrics),
          ("report_invalid_characters", .bool p.lexical.reportInvalid),
          ("count_comments", .bool p.lexical.countComments) ]),
      ("parser", .obj
        [ ("enable_recovery", .bool p.parser.recovery),
          ("report_ambiguities", .bool p.parser.reportAmbiguities),
          ("log_recovery_events", .bool p.parser.logRecovery) ]),
      ("analysis", .obj
        [ ("include_refactors", .bool p.analysis.includeRefactors),
          ("log_analysis_summary", .bool p.analysis.logSummary) ]),
      ("logging", .obj
        [ ("use_structured_logging", .bool p.log.structured),
          ("enable_console_logging", .bool p.log.console),
          ("min_log_level", .str p.log.level.name),
          ("log_performance_events", .bool p.log.performance) ]) ]

end EvlCheck
