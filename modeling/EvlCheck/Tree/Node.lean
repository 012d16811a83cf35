/-
The parse tree as nodes with children, whatever their kinds: for counting nodes, for measuring the
depth, and for listings. A statement is a node of its own above the node of its kind.
-/
import EvlCheck.Tree.Basic

namespace EvlCheck

inductive NodeKind where
  | program
  | statement
  | block
  | varDecl (type : ValueType) (name : String)
  | constDecl
  | assignment (target : String) (op : AssignOp)
  | print
  | stringArg (text : String)
  | exprArg
  | ifElse
  | elseIf
  | whileLoop
  | tryCatch (binding : Option String)
  | expression (e : Expr)
  deriving Repr

namespace NodeKind

def name : NodeKind → String
  | .program => "Program"
  | .statement => "Statement"
  | .block => "Block"
  | .varDecl .. => "VariableDeclaration"
  | .constDecl => "ConstDeclaration"
  | .assignment .. => "Assignment"
  | .print => "PrintStatement"
  | .stringArg _ | .exprArg => "PrintArg"
  | .ifElse => "IfStatement"
  | .elseIf => "ElseIf"
  | .whileLoop => "WhileStatement"
  | .tryCatch _ => "TryStatement"
  | .expression e => e.kind

/-- What an outline says of an expression beside its kind. -/
def expressionDetail : Expr → String
  | .cast _ t _ => " -> " ++ t.text
  | .constant c _ => " " ++ c.text
  | .name n _ => " " ++ n
  | .integer t _ | .real t _ | .string t _ => " " ++ t
  | .binary op .. => " " ++ op.text
  | _ => ""

/-- What an outline says of a node. -/
def label (k : NodeKind) : String :=
  match k with
  | .varDecl t n => k.name ++ " " ++ t.text ++ " " ++ n
  | .assignment target op => k.name ++ " " ++ target ++ " " ++ op.text
  | .stringArg t => k.name ++ " " ++ t
  | .tryCatch (some binding) => k.name ++ " catch(" ++ binding ++ ")"
  | .expression e => k.name ++ expressionDetail e
  | _ => k.name

end NodeKind

inductive Node where
  | mk (kind : NodeKind) (span : Span) (children : List Node)

namespace Node

def kind : Node → NodeKind
  | mk kind _ _ => kind

def span : Node → Span
  | mk _ span _ => span

def children : Node → List Node
  | mk _ _ children => children

end Node

/-! ## The nodes of a tree -/

def Expr.toNode (e : Expr) : Node :=
  .mk (.expression e) e.span <|
    match e with
    | .unaryMinus a _ | .paren a _ | .cast a _ _ | .unaryCall _ a _ => [a.toNode]
    | .binaryCall _ a b _ | .binary _ _ a b _ => [a.toNode, b.toNode]
    | .constant .. | .name .. | .integer .. | .real .. | .string .. | .truth .. => []

def VarDecl.toNode (d : VarDecl) : Node :=
  .mk (.varDecl d.type d.name) d.span [d.value.toNode]

def PrintArg.toNode : PrintArg → Node
  | .string t s => .mk (.stringArg t) s []
  | .expr e => .mk .exprArg e.span [e.toNode]

mutual

def Stmt.toNode : Stmt → Node
  | .varDecl d => .mk .statement d.span [d.toNode]
  | .constDecl d s => .mk .statement s [.mk .constDecl s [d.toNode]]
  | .assignment target op value s =>
    .mk .statement s [.mk (.assignment target op) s [value.toNode]]
  | .print args s => .mk .statement s [.mk .print s (args.map PrintArg.toNode)]
  | .ifElse c body others s =>
    .mk .statement s [.mk .ifElse s (others.toNodes [body.toNode, c.toNode])]
  | .whileLoop c body s => .mk .statement s [.mk .whileLoop s [c.toNode, body.toNode]]
  | .tryCatch body binding handler s =>
    .mk .statement s [.mk (.tryCatch binding) s [body.toNode, handler.toNode]]
  | .block b => .mk .statement b.span [b.toNode]

def Block.toNode : Block → Node
  | .mk statements s => .mk .block s (Stmt.toNodes [] statements)

/-- The nodes of the branches after the first, behind earlier nodes that are given last first. -/
def ElseChain.toNodes (earlier : List Node) : ElseChain → List Node
  | .done => earlier.reverse
  | .otherwise body => (body.toNode :: earlier).reverse
  | .elseIf c body s rest => rest.toNodes (.mk .elseIf s [c.toNode, body.toNode] :: earlier)

/-- The nodes of some statements, behind earlier nodes that are given last first. -/
def Stmt.toNodes (earlier : List Node) : List Stmt → List Node
  | [] => earlier.reverse
  | s :: rest => Stmt.toNodes (s.toNode :: earlier) rest

end

def Program.toNode (p : Program) : Node :=
  .mk .program p.span (Stmt.toNodes [] p.statements)

/-! ## Measures and listings -/

namespace Node

mutual

/-- The number of nodes, added to a number. -/
def countOnto (n : Nat) : Node → Nat
  | .mk _ _ children => countAllOnto (n + 1) children

/-- The number of nodes below some nodes, those included, added to a number. -/
def countAllOnto (n : Nat) : List Node → Nat
  | [] => n
  | x :: rest => countAllOnto (countOnto n x) rest

end

def count (n : Node) : Nat := countOnto 0 n

mutual

/-- The number of nodes on the longest way down. -/
def depth : Node → Nat
  | .mk _ _ children => 1 + depthAll 0 children

/-- The greatest depth of some nodes, or a number that is greater. -/
def depthAll (least : Nat) : List Node → Nat
  | [] => least
  | x :: rest => depthAll (max least x.depth) rest

end

mutual

/-- Puts the nodes from the root on, each with its distance from the root, before earlier ones, the
last node first. -/
def preorderOnto (level : Nat) (earlier : List (Nat × Node)) : Node → List (Nat × Node)
  | .mk kind span children =>
    preorderAllOnto (level + 1) ((level, .mk kind span children) :: earlier) children

/-- Puts the nodes below some nodes, those included, before earlier ones, the last node first. -/
def preorderAllOnto (level : Nat) (earlier : List (Nat × Node)) : List Node → List (Nat × Node)
  | [] => earlier
  | x :: rest => preorderAllOnto level (preorderOnto level earlier x) rest

end

/-- The nodes from the root on, each with its distance from the root. -/
def preorder (n : Node) : List (Nat × Node) := (preorderOnto 0 [] n).reverse

mutual

/-- Appends an outline of a node: a line for each node, indented by its level. A statement has no
line, since its only child says the same. -/
def outlineOnto (level : Nat) (out : String) : Node → String
  | .mk .statement _ children => outlineAllOnto level out children
  | .mk kind span children =>
    let line := (List.replicate level "  ").foldl (· ++ ·) out ++ kind.label ++ " @" ++
      span.text ++ "\n"
    outlineAllOnto (level + 1) line children

/-- Appends the outlines of some nodes. -/
def outlineAllOnto (level : Nat) (out : String) : List Node → String
  | [] => out
  | n :: rest => outlineAllOnto level (outlineOnto level out n) rest

end

def outline (n : Node) : String := outlineOnto 0 "" n

end Node

end EvlCheck
