/-
The operators and delimiters of EVAL, and the lookup from one or two characters to the symbol they
spell.
-/
namespace EvlCheck

inductive OpSymbol where
  | plus | minus | multiply | divide | modulus
  | plusAssign | minusAssign | multiplyAssign | divideAssign
  | equals | notEquals | less | greater | lessEqual | greaterEqual
  | assign
  | leftBrace | rightBrace | leftParen | rightParen | comma
  deriving Repr, DecidableEq, Inhabited

namespace OpSymbol

def all : List OpSymbol :=
  [ .plus, .minus, .multiply, .divide, .modulus,
    .plusAssign, .minusAssign, .multiplyAssign, .divideAssign,
    .equals, .notEquals, .less, .greater, .lessEqual, .greaterEqual,
    .assign,
    .leftBrace, .rightBrace, .leftParen, .rightParen, .comma ]

def chars : OpSymbol → List Char
  | .plus => ['+']
  | .minus => ['-']
  | .multiply => ['*']
  | .divide => ['/']
  | .modulus => ['%']
  | .plusAssign => ['+', '=']
  | .minusAssign => ['-', '=']
  | .multiplyAssign => ['*', '=']
  | .divideAssign => ['/', '=']
  | .equals => ['=', '=']
  | .notEquals => ['!', '=']
  | .less => ['<']
  | .greater => ['>']
  | .lessEqual => ['<', '=']
  | .greaterEqual => ['>', '=']
  | .assign => ['=']
  | .leftBrace => ['{']
  | .rightBrace => ['}']
  | .leftParen => ['(']
  | .rightParen => [')']
  | .comma => [',']

def text (s : OpSymbol) : String := String.ofList s.chars

def terminal : OpSymbol → String
  | .plus => "PLUS"
  | .minus => "MINUS"
  | .multiply => "MULTI"
  | .divide => "DIVIDE"
  | .modulus => "MODULUS"
  | .plusAssign => "PLUS_ASSIGN"
  | .minusAssign => "MINUS_ASSIGN"
  | .multiplyAssign => "MULTI_ASSIGN"
  | .divideAssign => "DIV_ASSIGN"
  | .equals => "EQ"
  | .notEquals => "NEQ"
  | .less => "LT"
  | .greater => "GT"
  | .lessEqual => "LTE"
  | .greaterEqual => "GTE"
  | .assign => "ASSIGN"
  | .leftBrace => "LBRACE"
  | .rightBrace => "RBRACE"
  | .leftParen => "LPAREN"
  | .rightParen => "RPAREN"
  | .comma => "COMMA"

/-- The symbol encloses or separates rather than computes. -/
def isDelimiter : OpSymbol → Bool
  | .leftBrace | .rightBrace | .leftParen | .rightParen | .comma => true
  | _ => false

/-- The symbol assigns, alone or together with an operation. -/
def isAssignment : OpSymbol → Bool
  | .assign | .plusAssign | .minusAssign | .multiplyAssign | .divideAssign => true
  | _ => false

def ofChars? (cs : List Char) : Option OpSymbol :=
  all.find? fun s => s.chars == cs

theorem ofChars?_chars (s : OpSymbol) : ofChars? s.chars = some s := by cases s <;> rfl

theorem chars_of_ofChars? {cs : List Char} {s : OpSymbol} (h : ofChars? cs = some s) :
    s.chars = cs := by
  simpa using List.find?_some h

theorem chars_injective {a b : OpSymbol} (h : a.chars = b.chars) : a = b := by
  have := ofChars?_chars a
  rw [h, ofChars?_chars b] at this
  exact (Option.some.inj this).symm

end OpSymbol

end EvlCheck
