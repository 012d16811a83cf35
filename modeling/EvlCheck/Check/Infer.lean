/-
The type of an expression as far as its text tells: literals, names, parentheses and whole calls
have one, all else is unknown. Nesting is followed to a limit.
-/
import EvlCheck.Check.Builtins
import EvlCheck.Check.Calls
import EvlCheck.Check.Symbols

namespace EvlCheck.Check

open Text

/-! ## Literals -/

/-- One digit or more and nothing else. -/
def isIntLiteral (cs : List Char) : Bool :=
  !cs.isEmpty && cs.all isDecimal

/-- Digits on both sides of a point. -/
def isFloatLiteral (cs : List Char) : Bool :=
  match cs.dropWhile isDecimal with
  | '.' :: rest => !(cs.takeWhile isDecimal).isEmpty && isIntLiteral rest
  | _ => false

/-- Text in quotes without a quote inside. -/
def isStringLiteral : List Char → Bool
  | '"' :: rest => rest.getLast? == some '"' && !rest.dropLast.contains '"'
  | _ => false

def literalType? (cs : List Char) : Option ValueType :=
  if isIntLiteral cs then some .int
  else if isFloatLiteral cs then some .float
  else if isStringLiteral cs then some .string
  else if cs = "true".toList ∨ cs = "false".toList then some .bool
  else none

def negativeType? : List Char → Option ValueType
  | '-' :: rest =>
    if isIntLiteral rest then some .int else if isFloatLiteral rest then some .float else none
  | _ => none

/-- The type of what stands for itself: a literal, a declared name or a constant. -/
def atomType? (symbols : Symbols) (cs : List Char) : Option ValueType :=
  literalType? cs <|> symbols.get? (String.ofList cs) <|>
    (BuiltinConstant.ofText? (String.ofList cs)).map (·.type) <|> negativeType? cs

/-! ## Parentheses and calls -/

/-- The text inside one pair of parentheses at the ends. -/
def parenthesized? : List Char → Option (List Char)
  | '(' :: rest => if rest.getLast? = some ')' then some rest.dropLast else none
  | _ => none

/-- The function and the text of the arguments, where the text from its first character to its last
has the form of a call with arguments. -/
def wholeCall? (cs : List Char) : Option (Signature × List Char) := do
  let (name, rest) ← callHead? cs
  guard (rest.getLast? = some ')' ∧ rest.dropLast ≠ [])
  return (← Signature.find? (String.ofList name), rest.dropLast)

/-- What was found out about an expression: its type, if any, and the calls whose result was looked
at, the innermost first. -/
structure Typing where
  type : Option ValueType
  calls : List (Signature × Option ValueType) := []
  deriving Repr

/-- Infers a type, going at most `room` levels down from here. -/
def inferWithin [Build] (symbols : Symbols) : Nat → List Char → Except CheckFault Typing
  | 0, cs => .error (.inferenceTooDeep (Limit.inferenceDepth + 1) cs)
  | room + 1, cs => do
    let cs' := trim cs
    match atomType? symbols cs' with
    | some type => return { type := some type }
    | none =>
      match parenthesized? cs' with
      | some inner => inferWithin symbols room inner
      | none =>
        match wholeCall? cs' with
        | none => return { type := none }
        | some (signature, inner) =>
          let args := splitArgs inner
          -- Only a type that follows the argument's needs a look inside.
          let result ← match signature.returns with
            | .float => pure { type := some .float }
            | .int => pure { type := some .int }
            | .void => pure { type := none }
            | .castTarget =>
              pure { type := args[1]?.bind fun target => ValueType.ofText? (String.ofList target) }
            | .firstArgument => inferWithin symbols room (args.head?.getD [])
          return { result with calls := result.calls ++ [(signature, result.type)] }

def typeText (type : Option ValueType) : String := (type.map (·.text)).getD "unknown"

/-- The remark about the result of a call. -/
def inferredEvent [Build] (call : Signature × Option ValueType) : Event :=
  ((Event.debug "Inferred call result type").add "function" call.1.name).add "type"
    (typeText call.2)

/-- The type of an expression, unknown where nesting exceeds the limit, and the events. -/
def infer [Build] (symbols : Symbols) (cs : List Char) : Option ValueType × Journal :=
  match inferWithin symbols (Limit.inferenceDepth + 1) cs with
  | .ok typing => (typing.type, (typing.calls.map inferredEvent).toArray)
  | .error fault => (none, #[fault.warning])

end EvlCheck.Check
