/-
The parse tree. Every node has the span of the text that it was built from. Expressions have a
written form in which each binary operation stands in square brackets.
-/
import EvlCheck.Tree.Operator

namespace EvlCheck

/-! ## Expressions -/

inductive Expr where
  | unaryMinus (operand : Expr) (span : Span)
  | paren (inner : Expr) (span : Span)
  | cast (value : Expr) (target : ValueType) (span : Span)
  | unaryCall (f : UnaryFunction) (arg : Expr) (span : Span)
  | binaryCall (f : BinaryFunction) (first second : Expr) (span : Span)
  | constant (c : BuiltinConstant) (span : Span)
  | name (name : String) (span : Span)
  | integer (text : String) (span : Span)
  | real (text : String) (span : Span)
  /-- The text holds both quotes. -/
  | string (text : String) (span : Span)
  | truth (value : Bool) (span : Span)
  /-- The operator keeps its own span. -/
  | binary (op : BinaryOp) (opSpan : Span) (left right : Expr) (span : Span)
  deriving Repr, DecidableEq, Inhabited

namespace Expr

/-- The text that the expression was built from. -/
def span : Expr → Span
  | .unaryMinus _ s | .paren _ s | .cast _ _ s | .unaryCall _ _ s | .binaryCall _ _ _ s => s
  | .constant _ s | .name _ s | .integer _ s | .real _ s | .string _ s | .truth _ s => s
  | .binary _ _ _ _ s => s

def kind : Expr → String
  | .unaryMinus .. => "UnaryMinus"
  | .paren .. => "Paren"
  | .cast .. => "Cast"
  | .unaryCall f .. => f.name
  | .binaryCall f .. => f.name
  | .constant .. => "Macro"
  | .name .. => "Ident"
  | .integer .. => "IntLiteral"
  | .real .. => "RealLiteral"
  | .string .. => "StringLiteral"
  | .truth true _ => "TrueLiteral"
  | .truth false _ => "FalseLiteral"
  | .binary op .. => op.level.name

/-- The written form, with brackets around each binary operation. -/
def text : Expr → String
  | .unaryMinus e _ => "-" ++ e.text
  | .paren e _ => "(" ++ e.text ++ ")"
  | .cast e t _ => "cast(" ++ e.text ++ ", " ++ t.text ++ ")"
  | .unaryCall f e _ => f.text ++ "(" ++ e.text ++ ")"
  | .binaryCall f a b _ => f.text ++ "(" ++ a.text ++ ", " ++ b.text ++ ")"
  | .constant c _ => c.text
  | .name n _ => n
  | .integer t _ | .real t _ | .string t _ => t
  | .truth true _ => "true"
  | .truth false _ => "false"
  | .binary op _ a b _ => "[" ++ a.text ++ " " ++ op.text ++ " " ++ b.text ++ "]"

end Expr

/-! ## Statements -/

/-- A declaration of a variable with its first value. -/
structure VarDecl where
  type : ValueType
  name : String
  value : Expr
  span : Span
  deriving Repr, DecidableEq

/-- An argument of a print statement. -/
inductive PrintArg where
  /-- A string that stands alone; the text holds both quotes. -/
  | string (text : String) (span : Span)
  | expr (e : Expr)
  deriving Repr, DecidableEq

/-- The text that the argument was built from. -/
def PrintArg.span : PrintArg → Span
  | .string _ s => s
  | .expr e => e.span

mutual

inductive Stmt where
  | varDecl (d : VarDecl)
  | constDecl (d : VarDecl) (span : Span)
  | assignment (target : String) (op : AssignOp) (value : Expr) (span : Span)
  | print (args : List PrintArg) (span : Span)
  | ifElse (condition : Expr) (body : Block) (others : ElseChain) (span : Span)
  | whileLoop (condition : Expr) (body : Block) (span : Span)
  | tryCatch (body : Block) (binding : Option String) (handler : Block) (span : Span)
  | block (b : Block)

/-- Statements in braces. -/
inductive Block where
  | mk (statements : List Stmt) (span : Span)

/-- What follows the first branch of a conditional: further branches with conditions, and at the
end perhaps one without. -/
inductive ElseChain where
  | done
  | otherwise (body : Block)
  | elseIf (condition : Expr) (body : Block) (span : Span) (rest : ElseChain)

end

namespace Block

def statements : Block → List Stmt
  | mk statements _ => statements

def span : Block → Span
  | mk _ span => span

end Block

/-- The text that the statement was built from. -/
def Stmt.span : Stmt → Span
  | .varDecl d => d.span
  | .constDecl _ s | .assignment _ _ _ s | .print _ s => s
  | .ifElse _ _ _ s | .whileLoop _ _ s | .tryCatch _ _ _ s => s
  | .block b => b.span

structure Program where
  statements : List Stmt
  span : Span

end EvlCheck
