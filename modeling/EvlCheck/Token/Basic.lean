/-
Tokens: the terminals of the EVAL grammar, and beside them what the parser does not see, namely
blanks, comments and text that starts no terminal. A token keeps the source text that its terminal
does not fix.
-/
import EvlCheck.Token.Keyword
import EvlCheck.Token.Symbol
import EvlCheck.Text.Position

namespace EvlCheck

inductive Token where
  | keyword (k : Keyword)
  | symbol (s : OpSymbol)
  | real (text : String)
  | integer (text : String)
  /-- The text holds both quotes. -/
  | string (text : String)
  | identifier (name : String)
  | whitespace (text : String)
  | lineComment (text : String)
  | blockComment (text : String)
  /-- Text that starts no terminal. -/
  | error (text : String)
  | eof
  deriving Repr, DecidableEq, Inhabited

inductive TokenClass where
  | keyword | operator | delimiter | literal | identifier | trivia | error | eof
  deriving Repr, DecidableEq

def TokenClass.text : TokenClass → String
  | .keyword => "Keyword"
  | .operator => "Operator"
  | .delimiter => "Delimiter"
  | .literal => "Literal"
  | .identifier => "Identifier"
  | .trivia => "Trivia"
  | .error => "Error"
  | .eof => "Eof"

namespace Token

/-! ## Kinds -/

def tokenClass : Token → TokenClass
  | .keyword _ => .keyword
  | .symbol s => if s.isDelimiter then .delimiter else .operator
  | .real _ | .integer _ | .string _ => .literal
  | .identifier _ => .identifier
  | .whitespace _ | .lineComment _ | .blockComment _ => .trivia
  | .error _ => .error
  | .eof => .eof

/-- Blanks and comments. -/
def isTrivia : Token → Bool
  | .whitespace _ | .lineComment _ | .blockComment _ => true
  | _ => false

/-- The token stands for text that starts no terminal. -/
def isError : Token → Bool
  | .error _ => true
  | _ => false

/-- The parser sees the token. -/
def isSignificant (t : Token) : Bool := !t.isTrivia && !t.isError

def isAssignOp : Token → Bool
  | .symbol s => s.isAssignment
  | _ => false

def isEof : Token → Bool
  | .eof => true
  | _ => false

def keyword? : Token → Option Keyword
  | .keyword k => some k
  | _ => none

def identifier? : Token → Option String
  | .identifier name => some name
  | _ => none

/-- Both are the same terminal, whatever the source text of each. -/
def sameKind : Token → Token → Bool
  | .keyword a, .keyword b => a == b
  | .symbol a, .symbol b => a == b
  | .real _, .real _ => true
  | .integer _, .integer _ => true
  | .string _, .string _ => true
  | .identifier _, .identifier _ => true
  | .whitespace _, .whitespace _ => true
  | .lineComment _, .lineComment _ => true
  | .blockComment _, .blockComment _ => true
  | .error _, .error _ => true
  | .eof, .eof => true
  | _, _ => false

/-! ## Texts -/

def terminal : Token → String
  | .keyword k => k.terminal
  | .symbol s => s.terminal
  | .real _ => "REAL"
  | .integer _ => "INTEGER"
  | .string _ => "STRING"
  | .identifier _ => "IDENTIFIER"
  | .whitespace _ => "WS"
  | .lineComment _ => "LINE_COMMENT"
  | .blockComment _ => "BLOCK_COMMENT"
  | .error _ => "ERROR"
  | .eof => "EOF"

/-- The spelling that the terminal fixes, for reserved words and symbols. -/
def fixedText? : Token → Option String
  | .keyword k => some k.text
  | .symbol s => some s.text
  | _ => none

/-- The source text; the end of the source has a text that no source has. -/
def text : Token → String
  | .keyword k => k.text
  | .symbol s => s.text
  | .real t | .integer t | .string t | .identifier t => t
  | .whitespace t | .lineComment t | .blockComment t | .error t => t
  | .eof => "<EOF>"

/-- How a message says that the token is expected. -/
def expectation (t : Token) : String :=
  match t.fixedText? with
  | some fixed => "'" ++ fixed ++ "'"
  | none => t.terminal

/-- The token of a word: reserved, or a name. -/
def ofWord (word : String) : Token :=
  match Keyword.ofText? word with
  | some k => .keyword k
  | none => .identifier word

/-- The token of an operator or delimiter. -/
def ofSymbol? (text : String) : Option Token :=
  (OpSymbol.ofChars? text.toList).map .symbol

/-- The token of a terminal whose text is not fixed, by the terminal's name; under any other name,
the token that the text itself spells. -/
def ofTerminal (terminal text : String) : Token :=
  match terminal with
  | "IDENTIFIER" => .identifier text
  | "INTEGER" => .integer text
  | "REAL" => .real text
  | "STRING" => .string text
  | "WS" => .whitespace text
  | "LINE_COMMENT" => .lineComment text
  | "BLOCK_COMMENT" => .blockComment text
  | "ERROR" => .error text
  | "EOF" => .eof
  | _ => (ofSymbol? text).getD (ofWord text)

theorem ofWord_text (k : Keyword) : ofWord k.text = .keyword k := by
  simp [ofWord, Keyword.ofText?_text]

theorem sameKind_refl (t : Token) : t.sameKind t = true := by cases t <;> simp [sameKind]

theorem isSignificant_eof : isSignificant .eof = true := rfl

end Token

abbrev SpannedToken := Spanned Token

end EvlCheck
