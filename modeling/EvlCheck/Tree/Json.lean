/-
The parse tree as a JSON value. An alternative is an object with its name as the only field.
-/
import EvlCheck.Json
import EvlCheck.Tree.Basic

namespace EvlCheck

/-! ## Places -/

def Position.toJson (p : Position) : Json :=
  .obj [("offset", .num p.offset), ("line", .num p.line), ("column", .num p.column)]

def Span.toJson (s : Span) : Json :=
  .obj [("start", s.start.toJson), ("end", s.stop.toJson)]

namespace Json

def variant (name : String) (fields : List (String × Json)) : Json := .obj [(name, .obj fields)]

end Json

/-! ## Expressions -/

/-- The expression as an object named for its alternative. -/
def Expr.toJson (e : Expr) : Json :=
  .variant e.kind <|
    match e with
    | .unaryMinus a s => [("operand", a.toJson), ("span", s.toJson)]
    | .paren a s => [("inner", a.toJson), ("span", s.toJson)]
    | .cast a t s => [("value", a.toJson), ("target", .str t.text), ("span", s.toJson)]
    | .unaryCall _ a s => [("value", a.toJson), ("span", s.toJson)]
    | .binaryCall .pow a b s =>
      [("base", a.toJson), ("exponent", b.toJson), ("span", s.toJson)]
    | .binaryCall _ a b s => [("left", a.toJson), ("right", b.toJson), ("span", s.toJson)]
    | .constant c s => [("kind", .str c.name), ("span", s.toJson)]
    | .name n s => [("name", .str n), ("span", s.toJson)]
    | .integer t s | .real t s | .string t s => [("text", .str t), ("span", s.toJson)]
    | .truth _ s => [("span", s.toJson)]
    | .binary op opSpan a b s =>
      [ ("left", a.toJson),
        ("operator", .obj [("value", .str op.name), ("span", opSpan.toJson)]),
        ("right", b.toJson), ("span", s.toJson) ]

/-! ## Statements -/

def VarDecl.fields (d : VarDecl) : List (String × Json) :=
  [ ("var_type", .str d.type.text), ("name", .str d.name), ("value", d.value.toJson),
    ("span", d.span.toJson) ]

/-- The argument as an object named for its alternative. -/
def PrintArg.toJson : PrintArg → Json
  | .string t s => .variant "String" [("text", .str t), ("span", s.toJson)]
  | .expr e => .obj [("Expression", e.toJson)]

mutual

/-- The statement as an object named for its kind. -/
def Stmt.toJson : Stmt → Json
  | .varDecl d => .variant "VariableDeclaration" d.fields
  | .constDecl d s =>
    .variant "ConstDeclaration" [("declaration", .obj d.fields), ("span", s.toJson)]
  | .assignment target op value s =>
    .variant "Assignment"
      [ ("target", .str target), ("op", .str op.name), ("value", value.toJson),
        ("span", s.toJson) ]
  | .print args s =>
    .variant "Print" [("args", .arr (args.map PrintArg.toJson)), ("span", s.toJson)]
  | .ifElse c body others s =>
    .variant "If" <|
      [("condition", c.toJson), ("then_block", body.toJson)] ++ others.fields [] ++
      [("span", s.toJson)]
  | .whileLoop c body s =>
    .variant "While" [("condition", c.toJson), ("body", body.toJson), ("span", s.toJson)]
  | .tryCatch body binding handler s =>
    .variant "Try"
      [ ("body", body.toJson), ("catch_binding", .ofOption .str binding),
        ("handler", handler.toJson), ("span", s.toJson) ]
  | .block b => .obj [("Block", b.toJson)]

def Block.toJson : Block → Json
  | .mk statements s =>
    .obj [("statements", .arr (Stmt.allToJson [] statements)), ("span", s.toJson)]

/-- The fields of the branches after the first, behind earlier branches that are given last first:
the list of those with a condition, and the one without. -/
def ElseChain.fields (earlier : List Json) : ElseChain → List (String × Json)
  | .done => [("else_ifs", .arr earlier.reverse), ("else_block", .null)]
  | .otherwise body => [("else_ifs", .arr earlier.reverse), ("else_block", body.toJson)]
  | .elseIf c body s rest =>
    rest.fields
      (.obj [("condition", c.toJson), ("body", body.toJson), ("span", s.toJson)] :: earlier)

/-- The values of some statements, behind earlier ones that are given last first. -/
def Stmt.allToJson (earlier : List Json) : List Stmt → List Json
  | [] => earlier.reverse
  | s :: rest => Stmt.allToJson (s.toJson :: earlier) rest

end

def Program.toJson (p : Program) : Json :=
  .obj [("statements", .arr (Stmt.allToJson [] p.statements)), ("span", p.span.toJson)]

end EvlCheck
