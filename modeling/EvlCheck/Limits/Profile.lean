/-
Build profiles: the conditions a set of limits has to meet before a build goes on, which fault is
reported when several are broken, and the text of the constants that the build writes out.
-/
import EvlCheck.Limits.Basic

namespace EvlCheck

/-! ## Conditions -/

/-- The first condition that a set of limits breaks, in the order of checking. -/
inductive LimitsFault where
  | sourceTooLarge
  | stringAboveSource
  | parseDepthOutOfRange
  | noLookahead
  | noInferenceDepth
  | noOpenDocuments
  | logFloorTooHigh
  | sourceTooLargeForProduction
  deriving Repr, DecidableEq

namespace Limits

/-- Bytes that no profile may let a source exceed. -/
def sourceCeiling : Nat := 100000000
/-- Depth that no profile may let the parser exceed. -/
def parseDepthCeiling : Nat := 10000
/-- Bytes that the production profile may not let a source exceed. -/
def productionSourceCeiling : Nat := 10000000

/-- The first broken condition, if any. -/
def fault? (profile : String) (l : Limits) : Option LimitsFault :=
  if l.lexical.sourceBytes > sourceCeiling then some .sourceTooLarge
  else if l.lexical.stringBytes > l.lexical.sourceBytes then some .stringAboveSource
  else if l.syntactic.parseDepth = 0 ∨ l.syntactic.parseDepth > parseDepthCeiling then
    some .parseDepthOutOfRange
  else if l.syntactic.lookahead = 0 then some .noLookahead
  else if l.semantic.inferenceDepth = 0 then some .noInferenceDepth
  else if l.session.openDocuments = 0 then some .noOpenDocuments
  else if l.log.levelFloor > 2 then some .logFloorTooHigh
  else if profile = "production" ∧ l.lexical.sourceBytes > productionSourceCeiling then
    some .sourceTooLargeForProduction
  else none

/-- A parser of an accepted profile looks ahead. -/
theorem lookahead_pos {profile : String} {l : Limits} (h : l.fault? profile = none) :
    0 < l.syntactic.lookahead := by
  refine Nat.pos_of_ne_zero fun hzero => ?_
  unfold fault? at h
  rw [if_pos hzero] at h
  repeat' split at h
  all_goals cases h

end Limits

/-- The text with which a build stops. -/
def LimitsFault.message : LimitsFault → String
  | .sourceTooLarge => "LIMITS: max_source_size exceeds absolute maximum"
  | .stringAboveSource => "LIMITS: max_string_size cannot exceed max_source_size"
  | .parseDepthOutOfRange =>
    s!"LIMITS: max_parse_depth must be between 1 and {Limits.parseDepthCeiling}"
  | .noLookahead => "LIMITS: max_lookahead_tokens must be at least 1"
  | .noInferenceDepth => "LIMITS: max_inference_depth must be at least 1"
  | .noOpenDocuments => "LIMITS: max_open_documents must be at least 1"
  | .logFloorTooHigh => "LIMITS: security_min_log_level too high (max: 2)"
  | .sourceTooLargeForProduction => "PRODUCTION: max_source_size too high for production"

/-! ## Reading a configuration -/

/-- The limits of a configuration, which gives a number by section and key; none where one of them
is missing. -/
def Limits.ofConfiguration? (value : String → String → Option Nat) : Option Limits := do
  let lexical := value "lexical"
  let parsing := value "syntax"
  let semantic := value "semantic"
  let session := value "session"
  let logging := value "logging"
  return {
    lexical := ⟨← lexical "max_source_size", ← lexical "max_string_size",
      ← lexical "max_identifier_length", ← lexical "max_comment_length",
      ← lexical "max_token_count"⟩
    syntactic := ⟨← parsing "max_parse_depth", ← parsing "max_error_history",
      ← parsing "max_context_stack_depth", ← parsing "max_recovery_scan_tokens",
      ← parsing "max_lookahead_tokens", ← parsing "max_syntax_diagnostics"⟩
    semantic := ⟨← semantic "max_semantic_diagnostics", ← semantic "max_line_length",
      ← semantic "max_call_extraction", ← semantic "max_inference_depth"⟩
    actions := ⟨← value "code_actions" "max_actions_per_request"⟩
    session := ⟨← session "max_open_documents", ← session "max_pending_tickets"⟩
    log := ⟨← logging "log_buffer_size", ← logging "max_log_message_length",
      ← logging "security_min_log_level"⟩ }

/-! ## The generated constants -/

/-- One generated constant: its name, its machine type and its value. -/
structure GeneratedConstant where
  name : String
  type : String
  value : Nat

namespace Limits

/-- The constants of each section, in the order in which they are written. -/
def sections (l : Limits) : List (String × List GeneratedConstant) :=
  [ ("lexical",
      [ ⟨"MAX_SOURCE_SIZE", "usize", l.lexical.sourceBytes⟩,
        ⟨"MAX_STRING_SIZE", "usize", l.lexical.stringBytes⟩,
        ⟨"MAX_IDENTIFIER_LENGTH", "usize", l.lexical.identifierChars⟩,
        ⟨"MAX_COMMENT_LENGTH", "usize", l.lexical.commentChars⟩,
        ⟨"MAX_TOKEN_COUNT", "usize", l.lexical.tokens⟩ ]),
    ("syntax",
      [ ⟨"MAX_PARSE_DEPTH", "usize", l.syntactic.parseDepth⟩,
        ⟨"MAX_ERROR_HISTORY", "usize", l.syntactic.errorHistory⟩,
        ⟨"MAX_CONTEXT_STACK_DEPTH", "usize", l.syntactic.ruleStack⟩,
        ⟨"MAX_RECOVERY_SCAN_TOKENS", "usize", l.syntactic.recoveryScan⟩,
        ⟨"MAX_LOOKAHEAD_TOKENS", "usize", l.syntactic.lookahead⟩,
        ⟨"MAX_SYNTAX_DIAGNOSTICS", "usize", l.syntactic.diagnostics⟩ ]),
    ("semantic",
      [ ⟨"MAX_SEMANTIC_DIAGNOSTICS", "usize", l.semantic.diagnostics⟩,
        ⟨"MAX_LINE_LENGTH", "usize", l.semantic.lineChars⟩,
        ⟨"MAX_CALL_EXTRACTION", "usize", l.semantic.callExtraction⟩,
        ⟨"MAX_INFERENCE_DEPTH", "usize", l.semantic.inferenceDepth⟩ ]),
    ("code_actions",
      [ ⟨"MAX_ACTIONS_PER_REQUEST", "usize", l.actions.actions⟩ ]),
    ("session",
      [ ⟨"MAX_OPEN_DOCUMENTS", "usize", l.session.openDocuments⟩,
        ⟨"MAX_PENDING_TICKETS", "usize", l.session.pendingTickets⟩ ]),
    ("logging",
      [ ⟨"LOG_BUFFER_SIZE", "usize", l.log.buffer⟩,
        ⟨"MAX_LOG_MESSAGE_LENGTH", "usize", l.log.messageChars⟩,
        ⟨"SECURITY_MIN_LOG_LEVEL", "u8", l.log.levelFloor⟩ ]) ]

def constantLine (c : GeneratedConstant) : String :=
  s!"        pub const {c.name}: {c.type} = {c.value};\n"

def sectionText (name : String) (constants : List GeneratedConstant) : String :=
  s!"    pub mod {name} \x7b\n" ++ String.join (constants.map constantLine) ++ "    \x7d\n"

/-- The constants file of a profile: a heading, then the sections with an empty line between two. -/
def constantsText (profile : String) (l : Limits) : String :=
  "\n// Generated compile-time constants from TOML configuration\n" ++
  s!"// Profile: {profile}\n" ++
  "// DO NOT EDIT - Generated by build.rs\n\n" ++
  "pub mod compile_time \x7b\n" ++
  "\n".intercalate (l.sections.map fun s => sectionText s.1 s.2) ++
  "\x7d\n"

/-- Builds the constants file, or stops at the first broken condition. -/
def generate (profile : String) (l : Limits) : Except LimitsFault String :=
  match l.fault? profile with
  | some fault => .error fault
  | none => .ok (l.constantsText profile)

end Limits

end EvlCheck
