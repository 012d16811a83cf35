/-
What can be wrong with a text as a sequence of tokens. Three faults concern one lexeme, and lexing
goes on behind it; the others breach a limit and end the lexing.
-/
import EvlCheck.Limits.Build
import EvlCheck.Log.Code
import EvlCheck.Text.Position

namespace EvlCheck

inductive LexFault where
  | invalidCharacter (c : Char)
  | unterminatedString
  | unterminatedComment
  | identifierTooLong (length : Nat)
  | stringTooLarge (size : Nat)
  | commentTooLong (length : Nat)
  | tooManyTokens (count : Nat)
  | sourceTooLarge (size : Nat)
  deriving Repr, DecidableEq

namespace LexFault

def isBreach : LexFault → Bool
  | .invalidCharacter _ | .unterminatedString | .unterminatedComment => false
  | _ => true

def code : LexFault → Code
  | .invalidCharacter _ => .invalidCharacter
  | .unterminatedString => .unterminatedString
  | .unterminatedComment => .unterminatedComment
  | .identifierTooLong _ => .identifierTooLong
  | .stringTooLarge _ => .stringTooLarge
  | .commentTooLong _ => .commentTooLong
  | .tooManyTokens _ => .tokenLimitExceeded
  | .sourceTooLarge _ => .sourceTooLarge

def name : LexFault → String
  | .invalidCharacter _ => "InvalidCharacter"
  | .unterminatedString => "UnterminatedString"
  | .unterminatedComment => "UnterminatedComment"
  | .identifierTooLong _ => "IdentifierTooLong"
  | .stringTooLarge _ => "StringTooLarge"
  | .commentTooLong _ => "CommentTooLong"
  | .tooManyTokens _ => "TooManyTokens"
  | .sourceTooLarge _ => "SourceTooLarge"

def message [Build] (line column : Nat) : LexFault → String
  | .invalidCharacter c => s!"Invalid character: '{c}' at line {line}, column {column}"
  | .unterminatedString => s!"Unterminated string literal at line {line}, column {column}"
  | .unterminatedComment => s!"Unterminated block comment at line {line}, column {column}"
  | .identifierTooLong n =>
    s!"Identifier too long: {n} characters (max {Limit.identifierChars})"
  | .stringTooLarge n => s!"String too large: {n} bytes (max {Limit.stringBytes})"
  | .commentTooLong n => s!"Comment too long: {n} characters (max {Limit.commentChars})"
  | .tooManyTokens n => s!"Too many tokens: {n} (max {Limit.tokens})"
  | .sourceTooLarge n => s!"Source too large: {n} bytes (max {Limit.sourceBytes})"

end LexFault

/-- A fault and where it was met; `lexeme` is the text it concerns, if it concerns one lexeme. -/
structure LexReport where
  fault : LexFault
  place : Position
  lexeme : Option String
  deriving Repr, DecidableEq

namespace LexReport

def message [Build] (r : LexReport) : String := r.fault.message r.place.line r.place.column

/-- Makes line breaks and tabs visible. -/
def visibleChar (c : Char) : String :=
  if c = '\n' then "\\n" else if c = '\r' then "\\r" else if c = '\t' then "\\t" else c.toString

/-- A text with its line breaks and tabs visible. -/
def visible (s : String) : String :=
  s.toList.foldl (fun out c => out ++ visibleChar c) ""

/-- What the diagnostic says: the text that was not recognized, or the limit that was breached. -/
def notice [Build] (r : LexReport) : String :=
  match r.lexeme with
  | some text => s!"token recognition error at: '{visible text}'"
  | none => r.message

end LexReport

end EvlCheck
