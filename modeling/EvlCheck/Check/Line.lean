/-
What a line is to validation. A line is read on its own, without its comment and its semicolon; its
form is found from its first words.
-/
import EvlCheck.Text.Pattern
import EvlCheck.Tree.Operator

namespace EvlCheck

structure Declaration where
  constant : Bool
  type : ValueType
  name : String
  value : List Char
  deriving Repr, DecidableEq

inductive LineForm where
  /-- A type, a name, an equals sign and a value. -/
  | declaration (d : Declaration)
  /-- A type and an equals sign. -/
  | nameless
  /-- A type and a name. -/
  | valueless (name : String)
  /-- A name and a parenthesis. -/
  | call
  /-- A name and an assignment operator, with what is assigned. -/
  | assignment (value : Option (List Char))
  | other
  deriving Repr, DecidableEq

namespace Check

open Text

/-! ## Normal form -/

/-- A line without its carriage return, its comment, one semicolon and blanks at its ends. -/
def normalizeLine (cs : List Char) : List Char :=
  trim (dropSuffix ';' (beforeComment (dropSuffix '\r' cs)))

/-! ## Declarations -/

def type? (cs : List Char) : Option (ValueType × List Char) :=
  [ValueType.int, .float, .string, .bool].findSome? fun type =>
    (after? type.text cs).map fun rest => (type, rest)

/-- Whether a constant is declared, its type, and the text behind the type. -/
def declarationHead? (cs : List Char) : Option (Bool × ValueType × List Char) :=
  match ((after? "const" cs).bind skipBlanks?).bind type? with
  | some (type, rest) => some (true, type, rest)
  | none => (type? cs).map fun (type, rest) => (false, type, rest)

/-- Type and name of a declaration, and the text behind the name. -/
def namedHead? (cs : List Char) : Option (Bool × ValueType × List Char × List Char) := do
  let (constant, type, rest) ← declarationHead? cs
  let (name, rest) ← word? (← skipBlanks? rest)
  return (constant, type, name, rest)

def declaration? (cs : List Char) : Option Declaration := do
  let (constant, type, name, rest) ← namedHead? cs
  let value := trimStart (← afterBlanks? '=' rest)
  guard (value ≠ [])
  return ⟨constant, type, String.ofList name, value⟩

/-- The name that a line declares without a value. -/
def valueless? (cs : List Char) : Option String := do
  let (_, _, name, rest) ← namedHead? cs
  if trimStart rest = [] then some (String.ofList name) else none

/-- Whether an equals sign follows the type. -/
def isNameless (cs : List Char) : Bool :=
  ((declarationHead? cs).bind fun (_, _, rest) => afterBlanks? '=' rest).isSome

/-! ## Calls and assignments -/

def isCallStart (cs : List Char) : Bool := (callHead? cs).isSome

/-- The text without one leading arithmetic operator. -/
def skipArithmetic : List Char → List Char
  | c :: rest => if c = '+' ∨ c = '-' ∨ c = '*' ∨ c = '/' then rest else c :: rest
  | [] => []

def isAssignmentStart (cs : List Char) : Bool :=
  match name? cs with
  | none => false
  | some (_, rest) => (after? "=" (skipArithmetic (trimStart rest))).isSome

/-- The form of a line in normal form. -/
def lineForm (cs : List Char) : LineForm :=
  match declaration? cs with
  | some d => .declaration d
  | none =>
    if isNameless cs then .nameless
    else match valueless? cs with
      | some name => .valueless name
      | none =>
        if isCallStart cs then .call
        else if isAssignmentStart cs then .assignment (assignedValue? cs)
        else .other

/-! ## Division by zero -/

/-- Whether a slash is followed by a zero, with only blanks between, that begins no decimal. -/
def dividesByZero : List Char → Bool
  | [] => false
  | c :: rest =>
    (c == '/' && match afterBlanks? '0' rest with
      | none => false
      | some behind => behind.head? != some '.') || dividesByZero rest

/-! ## Casts -/

/-- The value and the target type of a text that is a cast from its first character to its last: the
target is the word between the last comma and the closing parenthesis. -/
def castParts? (cs : List Char) : Option (List Char × String) := do
  let inside ← ((after? "cast" cs).map trimStart).bind (after? "(")
  guard (inside.getLast? = some ')')
  match (splitOn ',' inside.dropLast).reverse with
  | target :: piece :: pieces =>
    guard (piece ≠ [] ∨ pieces ≠ [])
    let (word, rest) ← word? (trimStart target)
    guard (trimStart rest = [])
    return ([','].intercalate (piece :: pieces).reverse, String.ofList word)
  | _ => none

end Check

end EvlCheck
