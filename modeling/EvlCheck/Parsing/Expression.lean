/-
Expressions. The binary operators have four levels, the operators of each level group to the left,
a minus sign before an operand binds tighter than all of them, and parentheses start anew. The first
argument of each rule is the number of rules that may still be opened.
-/
import EvlCheck.Parsing.State
import EvlCheck.Tree.Basic

namespace EvlCheck.Parsing

open ParseM

variable [Build]

/-! ## Names of terminals -/

/-- How a message says that a type is expected. -/
def typeExpectation : String := "\x7b'int', 'float', 'string', 'bool'\x7d"

/-- The function of one number that a word names. -/
def unaryFunction? : Keyword → Option UnaryFunction
  | .sqrt => some .sqrt
  | .round => some .round
  | .abs => some .abs
  | _ => none

/-- The function of two numbers that a word names. -/
def binaryFunction? : Keyword → Option BinaryFunction
  | .pow => some .pow
  | .min => some .min
  | .max => some .max
  | _ => none

/-! ## Pieces of an expression -/

def valueType : ParseM ValueType := do
  let token ← current
  match token.value.keyword?.bind ValueType.ofKeyword? with
  | some t =>
    let _ ← advance
    return t
  | none => unexpected typeExpectation

def parenthesized (inner : ParseM Expr) : ParseM Expr := do
  let start ← place
  let _ ← advance
  let e ← inner
  let _ ← expect (.symbol .rightParen)
  return .paren e (← spanFrom start)

/-- A conversion to a type. -/
def castCall (inner : ParseM Expr) : ParseM Expr := do
  let start ← place
  let _ ← expect (.keyword .cast)
  let _ ← expect (.symbol .leftParen)
  let e ← inner
  let _ ← expect (.symbol .comma)
  let target ← valueType
  let _ ← expect (.symbol .rightParen)
  return .cast e target (← spanFrom start)

def unaryCall (inner : ParseM Expr) (f : UnaryFunction) : ParseM Expr := do
  let start ← place
  let _ ← expect (.keyword f.keyword)
  let _ ← expect (.symbol .leftParen)
  let e ← inner
  let _ ← expect (.symbol .rightParen)
  return .unaryCall f e (← spanFrom start)

/-- A call with two arguments. -/
def binaryCall (inner : ParseM Expr) (f : BinaryFunction) : ParseM Expr := do
  let start ← place
  let _ ← expect (.keyword f.keyword)
  let _ ← expect (.symbol .leftParen)
  let a ← inner
  let _ ← expect (.symbol .comma)
  let b ← inner
  let _ ← expect (.symbol .rightParen)
  return .binaryCall f a b (← spanFrom start)

/-- A token that is an expression by itself. -/
def leaf (make : Span → Expr) : ParseM Expr := do
  let token ← advance
  return make token.span

/-- An expression that begins with a reserved word. -/
def keywordExpression (inner : ParseM Expr) (k : Keyword) : ParseM Expr :=
  if k == .cast then castCall inner
  else if k == .true then leaf (.truth true)
  else if k == .false then leaf (.truth false)
  else
    match binaryFunction? k, unaryFunction? k, BuiltinConstant.ofKeyword? k with
    | some f, _, _ => binaryCall inner f
    | _, some f, _ => unaryCall inner f
    | _, _, some c => leaf (.constant c)
    | _, _, _ => noViableAlternative

/-- An expression without operators at its outermost, given the rule for those inside it. -/
def primary (inner : ParseM Expr) : ParseM Expr := do
  let token ← current
  match token.value with
  | .symbol .leftParen => parenthesized inner
  | .keyword k => keywordExpression inner k
  | .identifier n => leaf (.name n)
  | .integer t => leaf (.integer t)
  | .real t => leaf (.real t)
  | .string t => leaf (.string t)
  | _ => noViableAlternative

/-! ## Operators -/

/-- A minus sign and its operand. -/
def negation (operand : ParseM Expr) : ParseM Expr := do
  let start ← place
  let _ ← advance
  let e ← operand
  return .unaryMinus e (← spanFrom start)

/-- Goes on with operators of at least the precedence `least` behind a left operand that begins at
`start`, at most as many as there are tokens; `right` reads a right operand, given the precedence
that its own operators need. -/
def climb (right : Nat → ParseM Expr) (least start : Nat) : Nat → Expr → ParseM Expr
  | 0, left => return left
  | tokens + 1, left => do
    let token ← current
    match BinaryOp.ofToken? token.value with
    | none => return left
    | some op =>
      if op.level.precedence < least then return left
      else
        let _ ← advance
        let operand ← right (op.level.precedence + 1)
        let span ← spanFrom start
        climb right least start tokens (.binary op token.span left operand span)

/-- Operands and operators of at least the precedence `least`, as a rule of its own. -/
def operation (operand : ParseM Expr) (right : Nat → ParseM Expr) (least : Nat) : ParseM Expr :=
  withRule .expression do
    let start ← place
    let left ← operand
    let tokens := (← get).stream.size
    climb right least start tokens left

/-- An operand: what follows a minus sign, or else what stands without one. -/
def signed (behindMinus plain : ParseM Expr) : ParseM Expr := do
  if ← check (.symbol .minus) then behindMinus else plain

mutual

/-- An expression with operators of at least the precedence `least`. -/
def expressionFrom : Nat → Nat → ParseM Expr
  | 0, _ => fun p => tooDeep .expression p
  | n + 1, least => fun p => operation (operand n) (expressionFrom n) least p

/-- An operand, with the minus signs before it. -/
def operand : Nat → ParseM Expr
  | 0 => fun p => signed (tooDeep .unary) (primary (tooDeep .expression)) p
  | n + 1 => fun p =>
    signed (withRule .unary (negation (operand n)))
      (primary (operation (operand n) (expressionFrom n) 0)) p

end

def expression (n : Nat) : ParseM Expr := expressionFrom n 0

end EvlCheck.Parsing
