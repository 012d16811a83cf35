/-
Why the parser stops in the middle of a rule, and how it says so.
-/
import EvlCheck.Token.Stream

namespace EvlCheck

inductive SyntaxError where
  | unexpectedToken (expected found : String) (span : Span)
  | unexpectedEnd (expected : String) (span : Span)
  | noViableAlternative (input : String) (span : Span)
  | nestingTooDeep (most : Nat) (span : Span)
  | internalFailure (detail : String)
  deriving Repr, DecidableEq

namespace SyntaxError

/-- The error of a stream that does not go on. -/
def ofStream : StreamError → SyntaxError
  | .unexpectedToken expected found span => .unexpectedToken expected found span
  | .endOfStream expected span => .unexpectedEnd expected span

/-- The error of finding a token where something else is expected. -/
def unexpected (expected : String) (found : Token) (span : Span) : SyntaxError :=
  if found.isEof then .unexpectedEnd expected span else .unexpectedToken expected found.text span

def name : SyntaxError → String
  | .unexpectedToken .. => "UnexpectedToken"
  | .unexpectedEnd .. => "UnexpectedEndOfInput"
  | .noViableAlternative .. => "NoViableAlternative"
  | .nestingTooDeep .. => "MaxRecursionDepth"
  | .internalFailure _ => "InternalParserError"

def message : SyntaxError → String
  | .unexpectedToken expected found _ => s!"mismatched input '{found}' expecting {expected}"
  | .unexpectedEnd expected _ => s!"missing {expected} at '<EOF>'"
  | .noViableAlternative input _ => s!"no viable alternative at input '{input}'"
  | .nestingTooDeep most _ => s!"maximum nesting depth of {most} exceeded"
  | .internalFailure detail => s!"Internal parser error: {detail}"

def code : SyntaxError → Code
  | .unexpectedToken .. => .unexpectedToken
  | .unexpectedEnd .. => .unexpectedEndOfInput
  | .noViableAlternative .. => .noViableAlternative
  | .nestingTooDeep .. => .maxRecursionDepth
  | .internalFailure _ => .internalParserError

/-- The place of the error, where it has one. -/
def span? : SyntaxError → Option Span
  | .unexpectedToken _ _ s | .unexpectedEnd _ s | .noViableAlternative _ s | .nestingTooDeep _ s =>
    some s
  | .internalFailure _ => none

/-- The text of the token at which the error arose. -/
def offending? : SyntaxError → Option String
  | .unexpectedToken _ found _ => some found
  | .unexpectedEnd .. => some Token.eof.text
  | .noViableAlternative input _ => some input
  | .nestingTooDeep .. | .internalFailure _ => none

/-- Parsing can go on after the error. -/
def recoverable : SyntaxError → Bool
  | .internalFailure _ => false
  | _ => true

end SyntaxError

end EvlCheck
