/-
The grammar as a property of trees. A tree has a sequence of terminals, obeys the productions or
not, and needs a number of rules to be open at once; none of the three looks at its spans.

    program    := statement* EOF
    statement  := type IDENT '=' expression | 'const' type IDENT '=' expression
                | IDENT assignOp expression | 'print' '(' printArg (',' printArg)* ')'
                | 'if' '(' expression ')' block ('else' 'if' '(' expression ')' block)* ('else' block)?
                | 'while' '(' expression ')' block | 'try' block 'catch' ('(' IDENT ')')? block | block
    block      := '{' statement* '}'
    printArg   := STRING | expression
    expression := operators of four levels, each grouping to the left, over operands
    operand    := '-' operand | '(' expression ')' | call | constant | IDENT | literal

The trees have the shape of the statement productions by their types. What is left to say is how the
operators of an expression nest, that a print statement has an argument, and which of the two
alternatives a lone string takes there.
-/
import EvlCheck.Tree.Basic

namespace EvlCheck

/-! ## Expressions -/

namespace Expr

/-- The terminals that the expression is written with. -/
def terminals : Expr → List Token
  | .unaryMinus e _ => .symbol .minus :: e.terminals
  | .paren e _ => .symbol .leftParen :: (e.terminals ++ [.symbol .rightParen])
  | .cast e t _ =>
    .keyword .cast :: .symbol .leftParen ::
      (e.terminals ++ [.symbol .comma, .keyword t.keyword, .symbol .rightParen])
  | .unaryCall f e _ =>
    .keyword f.keyword :: .symbol .leftParen :: (e.terminals ++ [.symbol .rightParen])
  | .binaryCall f a b _ =>
    .keyword f.keyword :: .symbol .leftParen ::
      (a.terminals ++ .symbol .comma :: (b.terminals ++ [.symbol .rightParen]))
  | .constant c _ => [.keyword c.keyword]
  | .name n _ => [.identifier n]
  | .integer t _ => [.integer t]
  | .real t _ => [.real t]
  | .string t _ => [.string t]
  | .truth true _ => [.keyword .true]
  | .truth false _ => [.keyword .false]
  | .binary op _ a b _ => a.terminals ++ .symbol op.symbol :: b.terminals

/-- The precedence of what is no binary operation: tighter than every operator. -/
def tightest : Nat := 5

/-- The precedence of the outermost operator. -/
def rank : Expr → Nat
  | .binary op .. => op.level.precedence
  | _ => tightest

/-- The expression is one of the grammar and holds, outside of parentheses and calls, only operators
of at least a precedence. A left operand may repeat the level of its operator, a right operand may
not; what follows a minus sign holds no operator. -/
def FitsAt (least : Nat) : Expr → Prop
  | .unaryMinus e _ => e.FitsAt tightest
  | .paren e _ | .cast e _ _ | .unaryCall _ e _ => e.FitsAt 0
  | .binaryCall _ a b _ => a.FitsAt 0 ∧ b.FitsAt 0
  | .binary op _ a b _ =>
    least ≤ op.level.precedence ∧ a.FitsAt op.level.precedence ∧ b.FitsAt (op.level.precedence + 1)
  | .constant .. | .name .. | .integer .. | .real .. | .string .. | .truth .. => True

/-- The rules open at once inside the expression: one for each minus sign, each expression in
parentheses or in a call, and each right operand. -/
def nesting : Expr → Nat
  | .unaryMinus e _ | .paren e _ | .cast e _ _ | .unaryCall _ e _ => e.nesting + 1
  | .binaryCall _ a b _ => max a.nesting b.nesting + 1
  -- A left operand is read by the rule that reads the operator.
  | .binary _ _ a b _ => max a.nesting (b.nesting + 1)
  | .constant .. | .name .. | .integer .. | .real .. | .string .. | .truth .. => 0

/-- The expression without its places. -/
def bare : Expr → Expr
  | .unaryMinus e _ => .unaryMinus e.bare .dummy
  | .paren e _ => .paren e.bare .dummy
  | .cast e t _ => .cast e.bare t .dummy
  | .unaryCall f e _ => .unaryCall f e.bare .dummy
  | .binaryCall f a b _ => .binaryCall f a.bare b.bare .dummy
  | .constant c _ => .constant c .dummy
  | .name n _ => .name n .dummy
  | .integer t _ => .integer t .dummy
  | .real t _ => .real t .dummy
  | .string t _ => .string t .dummy
  | .truth b _ => .truth b .dummy
  | .binary op _ a b _ => .binary op .dummy a.bare b.bare .dummy

end Expr

/-! ## Statements -/

def VarDecl.terminals (d : VarDecl) : List Token :=
  .keyword d.type.keyword :: .identifier d.name :: .symbol .assign :: d.value.terminals

def VarDecl.bare (d : VarDecl) : VarDecl := ⟨d.type, d.name, d.value.bare, .dummy⟩

namespace PrintArg

def terminals : PrintArg → List Token
  | .string t _ => [.string t]
  | .expr e => e.terminals

/-- A lone string is an argument of its own kind, not an expression. -/
def Grammatical : PrintArg → Prop
  | .string .. => True
  | .expr e => e.FitsAt 0 ∧ ∀ t s, e ≠ .string t s

def nesting : PrintArg → Nat
  | .string .. => 0
  | .expr e => e.nesting + 1

def bare : PrintArg → PrintArg
  | .string t _ => .string t .dummy
  | .expr e => .expr e.bare

/-- The terminals of arguments behind the first, each behind a comma. -/
def moreTerminals (args : List PrintArg) : List Token :=
  args.flatMap fun a => .symbol .comma :: a.terminals

/-- The terminals of arguments with commas between them. -/
def listTerminals : List PrintArg → List Token
  | [] => []
  | a :: more => a.terminals ++ moreTerminals more

def listNesting (args : List PrintArg) : Nat := args.foldr (fun a n => max a.nesting n) 0

end PrintArg

mutual

def Stmt.terminals : Stmt → List Token
  | .varDecl d => d.terminals
  | .constDecl d _ => .keyword .const :: d.terminals
  | .assignment target op e _ => .identifier target :: .symbol op.symbol :: e.terminals
  | .print args _ =>
    .keyword .print :: .symbol .leftParen :: (PrintArg.listTerminals args ++ [.symbol .rightParen])
  | .ifElse c body others _ =>
    .keyword .if :: .symbol .leftParen ::
      (c.terminals ++ .symbol .rightParen :: (body.terminals ++ others.terminals))
  | .whileLoop c body _ =>
    .keyword .while :: .symbol .leftParen :: (c.terminals ++ .symbol .rightParen :: body.terminals)
  | .tryCatch body none handler _ =>
    .keyword .try :: (body.terminals ++ .keyword .catch :: handler.terminals)
  | .tryCatch body (some binding) handler _ =>
    .keyword .try :: (body.terminals ++ .keyword .catch :: .symbol .leftParen :: .identifier binding ::
      .symbol .rightParen :: handler.terminals)
  | .block b => b.terminals

def Block.terminals : Block → List Token
  | .mk statements _ =>
    .symbol .leftBrace :: (Stmt.listTerminals statements ++ [.symbol .rightBrace])

def ElseChain.terminals : ElseChain → List Token
  | .done => []
  | .otherwise body => .keyword .else :: body.terminals
  | .elseIf c body _ rest =>
    .keyword .else :: .keyword .if :: .symbol .leftParen ::
      (c.terminals ++ .symbol .rightParen :: (body.terminals ++ rest.terminals))

/-- The terminals of some statements; nothing stands between two of them. -/
def Stmt.listTerminals : List Stmt → List Token
  | [] => []
  | s :: rest => s.terminals ++ Stmt.listTerminals rest

end

mutual

def Stmt.Grammatical : Stmt → Prop
  | .varDecl d | .constDecl d _ => d.value.FitsAt 0
  | .assignment _ _ e _ => e.FitsAt 0
  | .print args _ => args ≠ [] ∧ ∀ a ∈ args, a.Grammatical
  | .ifElse c body others _ => c.FitsAt 0 ∧ body.Grammatical ∧ others.Grammatical
  | .whileLoop c body _ => c.FitsAt 0 ∧ body.Grammatical
  | .tryCatch body _ handler _ => body.Grammatical ∧ handler.Grammatical
  | .block b => b.Grammatical

def Block.Grammatical : Block → Prop
  | .mk statements _ => Stmt.ListGrammatical statements

def ElseChain.Grammatical : ElseChain → Prop
  | .done => True
  | .otherwise body => body.Grammatical
  | .elseIf c body _ rest => c.FitsAt 0 ∧ body.Grammatical ∧ rest.Grammatical

def Stmt.ListGrammatical : List Stmt → Prop
  | [] => True
  | s :: rest => s.Grammatical ∧ Stmt.ListGrammatical rest

end

mutual

/-- The rules open at once for a statement, its own included. -/
def Stmt.nesting : Stmt → Nat
  | .varDecl d | .constDecl d _ => d.value.nesting + 2
  | .assignment _ _ e _ => e.nesting + 2
  | .print args _ => PrintArg.listNesting args + 1
  | .ifElse c body others _ => max (c.nesting + 1) (max body.nesting others.nesting) + 1
  | .whileLoop c body _ => max (c.nesting + 1) body.nesting + 1
  | .tryCatch body _ handler _ => max body.nesting handler.nesting + 1
  | .block b => b.nesting + 1

def Block.nesting : Block → Nat
  | .mk statements _ => Stmt.listNesting statements + 1

def ElseChain.nesting : ElseChain → Nat
  | .done => 0
  | .otherwise body => body.nesting
  | .elseIf c body _ rest => max (c.nesting + 1) (max body.nesting rest.nesting)

def Stmt.listNesting : List Stmt → Nat
  | [] => 0
  | s :: rest => max s.nesting (Stmt.listNesting rest)

end

mutual

def Stmt.bare : Stmt → Stmt
  | .varDecl d => .varDecl d.bare
  | .constDecl d _ => .constDecl d.bare .dummy
  | .assignment target op e _ => .assignment target op e.bare .dummy
  | .print args _ => .print (args.map PrintArg.bare) .dummy
  | .ifElse c body others _ => .ifElse c.bare body.bare others.bare .dummy
  | .whileLoop c body _ => .whileLoop c.bare body.bare .dummy
  | .tryCatch body binding handler _ => .tryCatch body.bare binding handler.bare .dummy
  | .block b => .block b.bare

def Block.bare : Block → Block
  | .mk statements _ => .mk (Stmt.listBare statements) .dummy

def ElseChain.bare : ElseChain → ElseChain
  | .done => .done
  | .otherwise body => .otherwise body.bare
  | .elseIf c body _ rest => .elseIf c.bare body.bare .dummy rest.bare

def Stmt.listBare : List Stmt → List Stmt
  | [] => []
  | s :: rest => s.bare :: Stmt.listBare rest

end

/-- The statement has no block. -/
def Stmt.isSimple : Stmt → Bool
  | .varDecl _ | .constDecl _ _ | .assignment .. | .print .. => true
  | _ => false

theorem Stmt.listBare_append (ss ss' : List Stmt) :
    listBare (ss ++ ss') = listBare ss ++ listBare ss' := by
  induction ss with
  | nil => rfl
  | cons s ss ih => rw [List.cons_append, listBare, ih]; rfl

/-! ## Programs -/

namespace Program

/-- The terminals of a program, without the end of the source. -/
def terminals (p : Program) : List Token := Stmt.listTerminals p.statements

def Grammatical (p : Program) : Prop := Stmt.ListGrammatical p.statements

def nesting (p : Program) : Nat := Stmt.listNesting p.statements

def bare (p : Program) : Program := ⟨Stmt.listBare p.statements, .dummy⟩

end Program

end EvlCheck
