/-
The state of a parse: the token stream, the rules that are open, the errors met, and the reporter. A
rule of the grammar is a step that takes the state on, and yields a node or an error. Each rule receives
the number of rules that may still be opened; together with those that are open it is always the
greatest number permitted.
-/
import EvlCheck.Parsing.Error
import EvlCheck.Report.Reporter
import EvlCheck.Settings.Preferences

namespace EvlCheck

variable [Build]

/-! ## Open rules -/

/-- The rules whose nesting is tracked. -/
inductive Rule where
  | program | statement | block | expression | unary
  deriving Repr, DecidableEq

def Rule.text : Rule → String
  | .program => "program"
  | .statement => "statement"
  | .block => "block"
  | .expression => "expression"
  | .unary => "unary"

/-- The open rules: the names of the outermost, the last opened first, the number of those opened when
no more names were kept, and how many are open besides the program. All that are open, the last opened
first, are kept for the theory; no rule reads them. -/
structure RuleStack where
  names : List Rule := []
  overflow : Nat := 0
  depth : Nat := 0
  entered : List Rule := []
  deriving Repr, DecidableEq

namespace RuleStack

def push (s : RuleStack) (r : Rule) : RuleStack :=
  let s := { s with entered := r :: s.entered }
  if s.names.length ≥ Limit.ruleStack then { s with overflow := s.overflow + 1 }
  else { s with names := r :: s.names }

/-- Closes the rule opened last. -/
def pop (s : RuleStack) : RuleStack :=
  let s := { s with entered := s.entered.tail }
  if s.overflow > 0 then { s with overflow := s.overflow - 1 }
  else { s with names := s.names.tail }

/-- Opens a rule that counts. -/
def enter (s : RuleStack) (r : Rule) : RuleStack :=
  { s.push r with depth := s.depth + 1 }

/-- Closes the rule opened last, where it counts. -/
def exit (s : RuleStack) : RuleStack :=
  { s.pop with depth := s.depth - 1 }

/-- The innermost rule whose name is kept. -/
def current (s : RuleStack) : String :=
  match s.names with
  | [] => "root"
  | r :: _ => r.text

/-- The kept names from the outermost on. -/
def path (s : RuleStack) : String :=
  " -> ".intercalate (s.names.reverse.map Rule.text)

end RuleStack

/-! ## The state -/

/-- The errors met last, at most as many as are remembered, the oldest first. -/
structure ErrorHistory where
  errors : List SyntaxError := []

/-- Remembers an error, and forgets the oldest where there are too many. -/
def ErrorHistory.record (h : ErrorHistory) (e : SyntaxError) : ErrorHistory :=
  if h.errors.length ≥ Limit.errorHistory then ⟨h.errors.tail ++ [e]⟩ else ⟨h.errors ++ [e]⟩

structure Parser where
  stream : TokenStream
  preferences : ParserPreferences
  reporter : Reporter
  rules : RuleStack := {}
  history : ErrorHistory := {}
  /-- An error was met where parsing is to stop at the first. -/
  halted : Bool := false
  /-- The open rules as they were each time one had been opened or closed, the last first. For the
  theory; no rule reads them. -/
  moments : List RuleStack := []

namespace Parser

def start (stream : TokenStream) (preferences : ParserPreferences) (reporter : Reporter) : Parser :=
  { stream, preferences
    reporter := reporter.log <| (Event.debug "Creating EVAL parser").add "tokens" stream.size }

def position (p : Parser) : Nat := p.stream.position

def log (p : Parser) (e : Event) : Parser := { p with reporter := p.reporter.log e }

/-- Other rules are open from now on. -/
def record (p : Parser) (s : RuleStack) : Parser := { p with rules := s, moments := s :: p.moments }

def enter (p : Parser) (r : Rule) : Parser := p.record (p.rules.enter r)

def leave (p : Parser) : Parser := p.record p.rules.exit

/-- Opens the program, which does not count. -/
def openProgram (p : Parser) : Parser := p.record (p.rules.push .program)

def closeProgram (p : Parser) : Parser := p.record p.rules.pop

def advance (p : Parser) : Parser := { p with stream := p.stream.advance }

/-! ## Where statements begin -/

/-- The token some tokens ahead of the cursor, or the last one that may be looked at. -/
def tokenAhead (s : TokenStream) (n : Nat) : Token := (s.peek (min n Limit.lookahead)).value

/-- The token behind the cursor may be looked at. -/
theorem tokenAhead_one (s : TokenStream) : tokenAhead s 1 = (s.peek 1).value := by
  rw [tokenAhead, Nat.min_eq_left Limit.lookahead_pos]

/-- A statement can begin at the cursor: at a word that opens one, at a name with an assignment
behind it, or at a brace. -/
def atStatementStart (s : TokenStream) : Bool :=
  match s.current.value with
  | .keyword k => k.isType || k == .const || k == .print || k == .if || k == .while || k == .try
  | .identifier _ => (tokenAhead s 1).isAssignOp
  | .symbol .leftBrace => true
  | _ => false

/-! ## Errors and what follows them -/

/-- Logs, reports and remembers an error, unless the parse has stopped. -/
def reportError (p : Parser) (e : SyntaxError) : Parser :=
  if p.halted then p
  else
    -- An error without a place of its own is shown at the cursor.
    let span := e.span?.getD p.stream.current.span
    let p := p.log <| ((Event.error e.code e.message).spanning span).add "context" p.rules.current
    { p with
      reporter :=
        p.reporter.syntaxError e.offending? span.start.line span.start.charInLine e.message
      history := p.history.record e }

/-- The stream at its end, in at most as many moves as it has tokens. -/
def skipToEnd (s : TokenStream) : TokenStream :=
  go s.size s
where
  /-- Moves on until the end. -/
  go : Nat → TokenStream → TokenStream
    | 0, s => s
    | n + 1, s => if s.atEnd then s else go n s.advance

/-- Parsing can go on at the cursor. -/
def canResume (inBlock : Bool) (s : TokenStream) : Bool :=
  s.atEnd || atStatementStart s || (inBlock && s.check (.symbol .rightBrace))

/-- The stream at the next place where parsing can go on, if it is within reach. -/
def resume? (inBlock : Bool) : Nat → TokenStream → Option TokenStream
  | reach, s =>
    if canResume inBlock s then some s
    else
      match reach with
      | 0 => none
      | n + 1 => resume? inBlock n s.advance

/-- Goes on after an error: at the next place where that is possible, or at the end where parsing
is to stop or no such place is within reach. -/
def recover (p : Parser) (inBlock : Bool) : Parser :=
  if !p.preferences.recovery then { p with halted := true, stream := skipToEnd p.stream }
  else
    match resume? inBlock Limit.recoveryScan p.stream with
    | none =>
      let p := p.log <|
        ((Event.error .recoveryFailed "No synchronization point within scan limit").add
          "scanned" Limit.recoveryScan).add "context" p.rules.current
      { p with stream := skipToEnd p.stream }
    | some stream =>
      let skipped := stream.position - p.stream.position
      let event :=
        if p.preferences.logRecovery then
          ((Event.info "Recovered to synchronization point").add "tokens_skipped" skipped).add
            "resume_at" stream.current.value.text
        else (Event.debug "Recovered to synchronization point").add "tokens_skipped" skipped
      { p.log event with stream := stream }

/-- Warns that a string alone is both an argument of its own kind and an expression. -/
def reportLoneString (p : Parser) : Parser :=
  if !p.preferences.reportAmbiguities || p.halted then p
  else
    let start := p.stream.current.index
    let stop := (p.stream.peek 1).index
    let p := p.log <|
      ((Event.warningOf .ambiguousAlternative "printArg resolved to STRING over expression").add
        "start" start).add "stop" stop
    let place := AmbiguityPlace.answers (p.stream.lineAt? start) (p.stream.columnAt? start)
    { p with reporter := p.reporter.ambiguity place start stop }

end Parser

/-! ## Steps -/

/-- A step of parsing: from a state to a node or an error, and to the state behind it. -/
abbrev ParseM := ExceptT SyntaxError (StateM Parser)

namespace ParseM

variable {α : Type}

def current : ParseM StreamToken := return (← get).stream.current

/-- The token under the cursor is of a kind. -/
def check (expected : Token) : ParseM Bool := return (← get).stream.check expected

def place : ParseM Nat := return (← get).position

/-- The span from an earlier place to the last token read. -/
def spanFrom (first : Nat) : ParseM Span := return (← get).stream.spanFrom first

/-- Reads the token under the cursor. -/
def advance : ParseM StreamToken := do
  let token ← current
  modify Parser.advance
  return token

def expect (expected : Token) : ParseM StreamToken := do
  let p ← get
  match p.stream.expect expected with
  | .ok (token, stream) =>
    set { p with stream := stream }
    return token
  | .error e => throw (.ofStream e)

def expectName : ParseM String := do
  let token ← expect (.identifier "")
  return token.value.identifier?.getD ""

/-- Stops at the token under the cursor, where something else is expected. -/
def unexpected (expected : String) : ParseM α := do
  let token ← current
  throw (.unexpected expected token.value token.span)

/-- Stops at the token under the cursor, with which no alternative begins. -/
def noViableAlternative : ParseM α := do
  let token ← current
  throw (.noViableAlternative token.value.text token.span)

/-- Runs a step inside a rule, which is closed again whether the step succeeds or not. -/
def withRule (r : Rule) (step : ParseM α) : ParseM α := fun p =>
  match step (p.enter r) with
  | (result, p) => (result, p.leave)

/-- Stops because a rule cannot be opened: as many as permitted are open. -/
def tooDeep (r : Rule) : ParseM α := do
  let span := (← current).span
  modify fun p => p.log <|
    (((Event.error .maxRecursionDepth "Maximum parser nesting depth exceeded").spanning span).add
      "depth" p.rules.depth).add "rule" r.text
  throw (.nestingTooDeep Limit.parseDepth span)

end ParseM

end EvlCheck
