/-
Parse trees whose places are changed and nothing else. A place is changed by a function on spans, the
same for all nodes; the one that forgets byte offsets leaves lines and columns (`Span.onGrid`).

Syntax errors and the tokens of a stream have places too. What the reporter says of an error is found
without its place.
-/
import EvlCheck.Parsing.Error
import EvlCheck.Tree.Basic

namespace EvlCheck

/-! ## Lines and columns -/

/-- The place without its byte offset. -/
def Position.onGrid (p : Position) : Position := ⟨0, p.line, p.column⟩

/-- The span without its byte offsets. -/
def Span.onGrid (s : Span) : Span := ⟨s.start.onGrid, s.stop.onGrid⟩

/-! ## Trees -/

variable (f : Span → Span)

@[simp] def Expr.mapSpan : Expr → Expr
  | .unaryMinus e s => .unaryMinus e.mapSpan (f s)
  | .paren e s => .paren e.mapSpan (f s)
  | .cast e t s => .cast e.mapSpan t (f s)
  | .unaryCall u e s => .unaryCall u e.mapSpan (f s)
  | .binaryCall b x y s => .binaryCall b x.mapSpan y.mapSpan (f s)
  | .constant c s => .constant c (f s)
  | .name n s => .name n (f s)
  | .integer t s => .integer t (f s)
  | .real t s => .real t (f s)
  | .string t s => .string t (f s)
  | .truth b s => .truth b (f s)
  | .binary op o x y s => .binary op (f o) x.mapSpan y.mapSpan (f s)

@[simp] def VarDecl.mapSpan (d : VarDecl) : VarDecl := ⟨d.type, d.name, d.value.mapSpan f, f d.span⟩

@[simp] def PrintArg.mapSpan : PrintArg → PrintArg
  | .string t s => .string t (f s)
  | .expr e => .expr (e.mapSpan f)

mutual

@[simp] def Stmt.mapSpan : Stmt → Stmt
  | .varDecl d => .varDecl (d.mapSpan f)
  | .constDecl d s => .constDecl (d.mapSpan f) (f s)
  | .assignment target op e s => .assignment target op (e.mapSpan f) (f s)
  | .print args s => .print (args.map (PrintArg.mapSpan f)) (f s)
  | .ifElse c body others s => .ifElse (c.mapSpan f) body.mapSpan others.mapSpan (f s)
  | .whileLoop c body s => .whileLoop (c.mapSpan f) body.mapSpan (f s)
  | .tryCatch body binding handler s => .tryCatch body.mapSpan binding handler.mapSpan (f s)
  | .block b => .block b.mapSpan

@[simp] def Block.mapSpan : Block → Block
  | .mk statements s => .mk (Stmt.mapSpans statements) (f s)

@[simp] def ElseChain.mapSpan : ElseChain → ElseChain
  | .done => .done
  | .otherwise body => .otherwise body.mapSpan
  | .elseIf c body s rest => .elseIf (c.mapSpan f) body.mapSpan (f s) rest.mapSpan

def Stmt.mapSpans : List Stmt → List Stmt
  | [] => []
  | s :: rest => s.mapSpan :: Stmt.mapSpans rest

end

def Program.mapSpan (p : Program) : Program := ⟨Stmt.mapSpans f p.statements, f p.span⟩

theorem Stmt.mapSpans_eq (ss : List Stmt) : Stmt.mapSpans f ss = ss.map (Stmt.mapSpan f) := by
  induction ss with
  | nil => rfl
  | cons s ss ih => rw [Stmt.mapSpans, ih, List.map_cons]

/-! ## Places that are kept -/

@[simp] theorem Expr.mapSpan_id (e : Expr) : e.mapSpan id = e := by
  induction e <;> simp_all [Expr.mapSpan]

@[simp] theorem VarDecl.mapSpan_id (d : VarDecl) : d.mapSpan id = d := by
  simp [VarDecl.mapSpan]

@[simp] theorem PrintArg.mapSpan_id (a : PrintArg) : a.mapSpan id = a := by
  cases a <;> simp [PrintArg.mapSpan]

theorem PrintArg.map_mapSpan_id (args : List PrintArg) : args.map (PrintArg.mapSpan id) = args :=
  List.map_id'' PrintArg.mapSpan_id args

mutual

@[simp] theorem Stmt.mapSpan_id (s : Stmt) : s.mapSpan id = s := by
  cases s with
  | varDecl d => simp [Stmt.mapSpan]
  | constDecl d s => simp [Stmt.mapSpan]
  | assignment target op e s => simp [Stmt.mapSpan]
  | print args s => simp [Stmt.mapSpan, PrintArg.map_mapSpan_id]
  | ifElse c body others s => simp [Stmt.mapSpan, body.mapSpan_id, others.mapSpan_id]
  | whileLoop c body s => simp [Stmt.mapSpan, body.mapSpan_id]
  | tryCatch body binding handler s => simp [Stmt.mapSpan, body.mapSpan_id, handler.mapSpan_id]
  | block b => simp [Stmt.mapSpan, b.mapSpan_id]

@[simp] theorem Block.mapSpan_id (b : Block) : b.mapSpan id = b := by
  cases b with
  | mk statements s => simp [Block.mapSpan, Stmt.mapSpans_id statements]

@[simp] theorem ElseChain.mapSpan_id (c : ElseChain) : c.mapSpan id = c := by
  cases c with
  | done => rfl
  | otherwise body => simp [ElseChain.mapSpan, body.mapSpan_id]
  | elseIf c body s rest => simp [ElseChain.mapSpan, body.mapSpan_id, rest.mapSpan_id]

@[simp] theorem Stmt.mapSpans_id (ss : List Stmt) : Stmt.mapSpans id ss = ss := by
  cases ss with
  | nil => rfl
  | cons s rest => simp [Stmt.mapSpans, s.mapSpan_id, Stmt.mapSpans_id rest]

end

@[simp] theorem Program.mapSpan_id (p : Program) : p.mapSpan id = p := by
  simp [Program.mapSpan]

/-! ## Errors and tokens -/

namespace SyntaxError

def mapSpan : SyntaxError → SyntaxError
  | .unexpectedToken expected found s => .unexpectedToken expected found (f s)
  | .unexpectedEnd expected s => .unexpectedEnd expected (f s)
  | .noViableAlternative input s => .noViableAlternative input (f s)
  | .nestingTooDeep most s => .nestingTooDeep most (f s)
  | .internalFailure detail => .internalFailure detail

@[simp] theorem message_mapSpan (e : SyntaxError) : (e.mapSpan f).message = e.message := by
  cases e <;> rfl

@[simp] theorem offending?_mapSpan (e : SyntaxError) : (e.mapSpan f).offending? = e.offending? := by
  cases e <;> rfl

@[simp] theorem span?_mapSpan (e : SyntaxError) : (e.mapSpan f).span? = e.span?.map f := by
  cases e <;> rfl

@[simp] theorem mapSpan_id (e : SyntaxError) : e.mapSpan id = e := by
  cases e <;> rfl

theorem mapSpan_unexpected (expected : String) (found : Token) (s : Span) :
    (unexpected expected found s).mapSpan f = unexpected expected found (f s) := by
  unfold unexpected
  split <;> rfl

end SyntaxError

def StreamToken.mapSpan (t : StreamToken) : StreamToken := ⟨t.index, t.value, f t.span⟩

end EvlCheck
