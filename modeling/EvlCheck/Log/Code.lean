/-
Codes of log events, and the registry that says for each code what it means: the part of the
analyzer it belongs to, how grave it is, whether work goes on after it, and what to do about it.
-/
namespace EvlCheck

/-- The short text that identifies a kind of event. -/
structure Code where
  text : String
  deriving Repr, DecidableEq, Inhabited

/-- How grave the condition behind a code is. -/
inductive Gravity where
  | critical
  | high
  | medium
  | low
  deriving Repr, DecidableEq

/-- The name of a degree. -/
def Gravity.text : Gravity → String
  | .critical => "Critical"
  | .high => "High"
  | .medium => "Medium"
  | .low => "Low"

/-- What the registry knows about a code. -/
structure CodeInfo where
  code : Code
  category : String
  gravity : Gravity
  recoverable : Bool
  description : String
  action : String
  deriving Repr

namespace Code

/-! ## The codes -/

def internalError : Code := ⟨"ERR001"⟩
def initializationFailure : Code := ⟨"ERR002"⟩
def invalidCharacter : Code := ⟨"E020"⟩
def unterminatedString : Code := ⟨"E021"⟩
def unterminatedComment : Code := ⟨"E022"⟩
def identifierTooLong : Code := ⟨"E023"⟩
def stringTooLarge : Code := ⟨"E024"⟩
def commentTooLong : Code := ⟨"E025"⟩
def tokenLimitExceeded : Code := ⟨"E026"⟩
def sourceTooLarge : Code := ⟨"E027"⟩
def unexpectedToken : Code := ⟨"E100"⟩
def noViableAlternative : Code := ⟨"E101"⟩
def unexpectedEndOfInput : Code := ⟨"E102"⟩
def maxRecursionDepth : Code := ⟨"E103"⟩
def ambiguousAlternative : Code := ⟨"E104"⟩
def internalParserError : Code := ⟨"E105"⟩
def recoveryFailed : Code := ⟨"E106"⟩
def syntaxLimitReached : Code := ⟨"E107"⟩
def semanticLimitReached : Code := ⟨"E200"⟩
def inferenceDepthExceeded : Code := ⟨"E201"⟩
def lineTooLong : Code := ⟨"E202"⟩
def staleEdit : Code := ⟨"E300"⟩
def unknownDocument : Code := ⟨"E301"⟩
def documentLimitExceeded : Code := ⟨"E302"⟩
def invalidEditRange : Code := ⟨"E303"⟩
def staleResultDiscarded : Code := ⟨"E304"⟩
def fileReadFailed : Code := ⟨"E310"⟩
def unsupportedSource : Code := ⟨"E311"⟩
def systemInitializationCompleted : Code := ⟨"I001"⟩
def tokenizationComplete : Code := ⟨"I010"⟩
def parseComplete : Code := ⟨"I011"⟩
def validationComplete : Code := ⟨"I012"⟩
def codeActionsGenerated : Code := ⟨"I013"⟩
def documentOpened : Code := ⟨"I020"⟩
def editApplied : Code := ⟨"I021"⟩
def analysisPipelineComplete : Code := ⟨"I030"⟩
/-- The code of warnings that have none of their own. -/
def plainWarning : Code := ⟨"W000"⟩
/-- The code of remarks that have none of their own. -/
def plainInfo : Code := ⟨"I000"⟩
/-- The code of every debugging remark. -/
def plainDebug : Code := ⟨"D000"⟩

/-! ## The registry -/

/-- What is known about each registered code. -/
def registry : List CodeInfo :=
  [ ⟨⟨"ERR001"⟩, "System", .critical, false,
      "Internal analyzer failure",
      "File a bug report with the source text that triggered it"⟩,
    ⟨⟨"ERR002"⟩, "System", .critical, false,
      "Logging or configuration initialization failure",
      "Check EVAL_* environment variables and the build profile"⟩,
    ⟨⟨"E020"⟩, "Lexical", .medium, true,
      "Character not recognized by the EVAL lexer",
      "Remove the character or place it inside a string literal"⟩,
    ⟨⟨"E021"⟩, "Lexical", .medium, true,
      "String literal is missing its closing quote",
      "Add the closing double quote"⟩,
    ⟨⟨"E022"⟩, "Lexical", .medium, true,
      "Block comment is missing its closing */",
      "Close the comment with */"⟩,
    ⟨⟨"E023"⟩, "Lexical", .medium, true,
      "Identifier exceeds the configured maximum length",
      "Use a shorter identifier"⟩,
    ⟨⟨"E024"⟩, "Lexical", .medium, true,
      "String literal exceeds the configured maximum size",
      "Split the string into smaller literals"⟩,
    ⟨⟨"E025"⟩, "Lexical", .low, true,
      "Comment exceeds the configured maximum length",
      "Shorten the comment"⟩,
    ⟨⟨"E026"⟩, "Lexical", .high, true,
      "Source produces more tokens than the configured limit",
      "Split the program into smaller sources"⟩,
    ⟨⟨"E027"⟩, "Lexical", .high, true,
      "Source text exceeds the configured maximum size",
      "Analyze a smaller source"⟩,
    ⟨⟨"E100"⟩, "Syntax", .medium, true,
      "Token does not fit the expected grammar production",
      "Check the statement against the EVAL grammar"⟩,
    ⟨⟨"E101"⟩, "Syntax", .medium, true,
      "No grammar alternative matches the input",
      "Check for a missing operand, keyword or delimiter"⟩,
    ⟨⟨"E102"⟩, "Syntax", .medium, true,
      "Input ended before the construct was complete",
      "Close the open block, call or statement"⟩,
    ⟨⟨"E103"⟩, "Syntax", .high, true,
      "Nesting exceeds the configured parse depth",
      "Reduce nesting of blocks or parenthesized expressions"⟩,
    ⟨⟨"E104"⟩, "Syntax", .low, true,
      "Input admits more than one parse",
      "Add parentheses to make the intended grouping explicit"⟩,
    ⟨⟨"E105"⟩, "Syntax", .critical, true,
      "Parser failed internally; one best-effort diagnostic was produced",
      "File a bug report with the source text that triggered it"⟩,
    ⟨⟨"E106"⟩, "Syntax", .high, true,
      "Error recovery could not find a synchronization point",
      "Fix the first reported syntax error and re-run"⟩,
    ⟨⟨"E107"⟩, "Syntax", .low, true,
      "Syntax diagnostics were truncated at the configured limit",
      "Fix the reported errors and re-run"⟩,
    ⟨⟨"E200"⟩, "Semantic", .low, true,
      "Semantic diagnostics were truncated at the configured limit",
      "Fix the reported problems and re-run"⟩,
    ⟨⟨"E201"⟩, "Semantic", .low, true,
      "Type inference gave up on a deeply nested expression",
      "Simplify the expression"⟩,
    ⟨⟨"E202"⟩, "Semantic", .low, true,
      "Line exceeds the configured maximum analysis length",
      "Split the statement across several lines"⟩,
    ⟨⟨"E300"⟩, "Session", .medium, true,
      "Edit was computed against an older document version",
      "Request fresh code actions for the current version"⟩,
    ⟨⟨"E301"⟩, "Session", .medium, true,
      "Document handle is not open in the workspace",
      "Open the document before analyzing it"⟩,
    ⟨⟨"E302"⟩, "Session", .medium, true,
      "Workspace already holds the maximum number of documents",
      "Close an open document first"⟩,
    ⟨⟨"E303"⟩, "Session", .medium, true,
      "Edit range lies outside the document",
      "Recompute the edit against the current text"⟩,
    ⟨⟨"E304"⟩, "Session", .low, true,
      "Analysis result superseded by a newer submission",
      "No action needed"⟩,
    ⟨⟨"E310"⟩, "Pipeline", .high, false,
      "Source file could not be read",
      "Check that the path exists and is readable UTF-8 text"⟩,
    ⟨⟨"E311"⟩, "Pipeline", .medium, false,
      "Source file is not an EVAL program",
      "Pass a file with the .evl extension"⟩,
    ⟨⟨"I001"⟩, "System", .low, true,
      "Logging system initialized",
      "None"⟩,
    ⟨⟨"I010"⟩, "Lexical", .low, true,
      "Tokenization completed",
      "Continue to parsing"⟩,
    ⟨⟨"I011"⟩, "Syntax", .low, true,
      "Parse completed",
      "Continue to semantic validation"⟩,
    ⟨⟨"I012"⟩, "Semantic", .low, true,
      "Semantic validation completed",
      "Present diagnostics"⟩,
    ⟨⟨"I013"⟩, "CodeActions", .low, true,
      "Code actions generated",
      "Offer actions to the editor"⟩,
    ⟨⟨"I020"⟩, "Session", .low, true,
      "Document opened",
      "None"⟩,
    ⟨⟨"I021"⟩, "Session", .low, true,
      "Edit applied to document",
      "Re-run analysis on the new version"⟩,
    ⟨⟨"I030"⟩, "Pipeline", .low, true,
      "Full analysis pipeline completed",
      "None"⟩ ]

/-- The registered facts about a code. -/
def info? (c : Code) : Option CodeInfo :=
  registry.find? fun i => i.code == c

/-- How grave the condition is; a code that is not registered counts as medium. -/
def gravity (c : Code) : Gravity := (c.info?.map (·.gravity)).getD .medium

/-- Whether work goes on; assumed of a code that is not registered. -/
def recoverable (c : Code) : Bool := (c.info?.map (·.recoverable)).getD true

def description (c : Code) : String := (c.info?.map (·.description)).getD "Unknown error"

/-- What to do about it. -/
def action (c : Code) : String := (c.info?.map (·.action)).getD "No specific action available"

/-- The part of the analyzer that the code belongs to. -/
def category (c : Code) : String := (c.info?.map (·.category)).getD "Unknown"

/-- No code is registered twice. -/
theorem registry_nodup : (registry.map (·.code.text)).Nodup := by decide +kernel

end Code

end EvlCheck
