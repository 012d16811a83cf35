/-
Statements and blocks. A statement that is not well-formed is reported and left out, and parsing
goes on at the next place where a statement can begin. The first argument of each rule is the number
of rules that may still be opened.
-/
import EvlCheck.Parsing.Expression

namespace EvlCheck.Parsing

open ParseM

variable [Build]

/-- How a message says that an assignment operator is expected. -/
def assignmentExpectation : String := "\x7b'=', '+=', '-=', '*=', '/='\x7d"

/-! ## Statements without blocks -/

/-- A declaration: a type, a name and a value. -/
def varDecl (value : ParseM Expr) : ParseM VarDecl := do
  let start ← place
  let type ← valueType
  let name ← expectName
  let _ ← expect (.symbol .assign)
  let e ← value
  return ⟨type, name, e, ← spanFrom start⟩

/-- A declaration of a constant. -/
def constDecl (value : ParseM Expr) : ParseM Stmt := do
  let start ← place
  let _ ← expect (.keyword .const)
  let d ← varDecl value
  return .constDecl d (← spanFrom start)

def assignment (value : ParseM Expr) : ParseM Stmt := do
  let start ← place
  let target ← expectName
  match AssignOp.ofToken? (← current).value with
  | none => unexpected assignmentExpectation
  | some op =>
    let _ ← advance
    let e ← value
    return .assignment target op e (← spanFrom start)

def stringText? : Token → Option String
  | .string t => some t
  | _ => none

/-- An argument of a print statement: a string with a comma or a parenthesis right behind it stands
for itself. -/
def printArg (value : ParseM Expr) : ParseM PrintArg := do
  let s := (← get).stream
  let next := Parser.tokenAhead s 1
  match stringText? s.current.value with
  | some text =>
    if next == .symbol .comma || next == .symbol .rightParen then
      modify Parser.reportLoneString
      let token ← advance
      return .string text token.span
    else return .expr (← value)
  | none => return .expr (← value)

/-- Arguments behind others, which are given last first, at most as many as there are tokens. -/
def printArgs (value : ParseM Expr) : Nat → List PrintArg → ParseM (List PrintArg)
  | 0, args => return args.reverse
  | tokens + 1, args => do
    if ← check (.symbol .comma) then
      let _ ← advance
      let arg ← printArg value
      printArgs value tokens (arg :: args)
    else return args.reverse

/-- A print statement; it has an argument. -/
def printStmt (value : ParseM Expr) : ParseM Stmt := do
  let start ← place
  let _ ← expect (.keyword .print)
  let _ ← expect (.symbol .leftParen)
  let first ← printArg value
  let args ← printArgs value (← get).stream.size [first]
  let _ ← expect (.symbol .rightParen)
  return .print args (← spanFrom start)

/-! ## Statements with blocks -/

/-- An expression in parentheses, without a node of its own. -/
def condition (value : ParseM Expr) : ParseM Expr := do
  let _ ← expect (.symbol .leftParen)
  let e ← value
  let _ ← expect (.symbol .rightParen)
  return e

/-- A branch with a condition: the condition, the block and the span. -/
abbrev Branch := Expr × Block × Span

/-- The branches of a conditional, given last first, and the chain that ends them. -/
def chainOf (branches : List Branch) (last : ElseChain) : ElseChain :=
  branches.foldl (fun rest (c, body, span) => .elseIf c body span rest) last

/-- Branches behind others, which are given last first, at most as many as there are tokens. -/
def elseChain (value : ParseM Expr) (block : ParseM Block) :
    Nat → List Branch → ParseM ElseChain
  | 0, branches => return chainOf branches .done
  | tokens + 1, branches => do
    if ← check (.keyword .else) then
      let start ← place
      let _ ← advance
      if ← check (.keyword .if) then
        let _ ← advance
        let c ← condition value
        let body ← block
        let span ← spanFrom start
        elseChain value block tokens ((c, body, span) :: branches)
      else
        let body ← block
        return chainOf branches (.otherwise body)
    else return chainOf branches .done

/-- A conditional. -/
def ifStmt (value : ParseM Expr) (block : ParseM Block) : ParseM Stmt := do
  let start ← place
  let _ ← expect (.keyword .if)
  let c ← condition value
  let body ← block
  let others ← elseChain value block (← get).stream.size []
  return .ifElse c body others (← spanFrom start)

/-- A loop. -/
def whileStmt (value : ParseM Expr) (block : ParseM Block) : ParseM Stmt := do
  let start ← place
  let _ ← expect (.keyword .while)
  let c ← condition value
  let body ← block
  return .whileLoop c body (← spanFrom start)

/-- The name that a handler gives to what it catches, if it gives one. -/
def catchBinding : ParseM (Option String) := do
  if ← check (.symbol .leftParen) then
    let _ ← advance
    let name ← expectName
    let _ ← expect (.symbol .rightParen)
    return some name
  else return none

/-- A block and the handler of what goes wrong in it. -/
def tryStmt (block : ParseM Block) : ParseM Stmt := do
  let start ← place
  let _ ← expect (.keyword .try)
  let body ← block
  let _ ← expect (.keyword .catch)
  let binding ← catchBinding
  let handler ← block
  return .tryCatch body binding handler (← spanFrom start)

/-! ## Lists of statements -/

/-- No further statement belongs to the list. -/
def listEnds (inBlock : Bool) (s : TokenStream) : Bool :=
  s.atEnd || (inBlock && s.check (.symbol .rightBrace))

/-- The state behind a statement that began at a place and failed: the error is reported and the
cursor is moved, by one token if recovery moves it by none. -/
def afterFailure (inBlock : Bool) (start : Nat) (e : SyntaxError) (p : Parser) : Parser :=
  let p := (p.reportError e).recover inBlock
  if p.position = start then p.advance else p

/-- Statements behind others, at most as many as there are tokens. -/
def statementsFrom (statement : ParseM Stmt) (inBlock : Bool) :
    Nat → Array Stmt → Parser → List Stmt × Parser
  | 0, done, p => (done.toList, p)
  | tokens + 1, done, p =>
    if listEnds inBlock p.stream then (done.toList, p)
    else
      match statement p with
      | (.ok s, p') => statementsFrom statement inBlock tokens (done.push s) p'
      | (.error e, p') =>
        statementsFrom statement inBlock tokens done (afterFailure inBlock p.position e p')

/-- Statements up to the end, or up to a closing brace inside a block. -/
def statements (statement : ParseM Stmt) (inBlock : Bool) (p : Parser) : List Stmt × Parser :=
  statementsFrom statement inBlock p.stream.size #[] p

/-- Statements in braces, given the rule for each. A missing closing brace is reported, and the
block is kept. -/
def blockBody (statement : ParseM Stmt) : ParseM Block := do
  let start ← place
  let _ ← expect (.symbol .leftBrace)
  let inside ← modifyGet (statements statement true)
  let p ← get
  match p.stream.expect (.symbol .rightBrace) with
  | .ok (_, stream) => set { p with stream := stream }
  | .error e => set (p.reportError (.ofStream e))
  return .mk inside (← spanFrom start)

/-! ## The rules -/

/-- The statement that begins at the cursor, given the rules for what is inside it. -/
def statementBody (value : ParseM Expr) (block : ParseM Block) : ParseM Stmt := do
  match (← current).value with
  | .keyword k =>
    if k.isType then return .varDecl (← varDecl value)
    else
      match k with
      | .const => constDecl value
      | .print => printStmt value
      | .if => ifStmt value block
      | .while => whileStmt value block
      | .try => tryStmt block
      | _ => noViableAlternative
  | .identifier _ => assignment value
  | .symbol .leftBrace => return .block (← block)
  | _ => noViableAlternative

mutual

def statement : Nat → ParseM Stmt
  | 0 => fun p => tooDeep .statement p
  | n + 1 => fun p => withRule .statement (statementBody (expression n) (block n)) p

def block : Nat → ParseM Block
  | 0 => fun p => tooDeep .block p
  | n + 1 => fun p => withRule .block (blockBody (statement n)) p

end

/-- A program: statements up to the end. -/
def program (p : Parser) : Program × Parser :=
  let start := p.position
  let (inside, p) := statements (statement Limit.parseDepth) false p
  (⟨inside, p.stream.spanFrom start⟩, p)

end EvlCheck.Parsing
