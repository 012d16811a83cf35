/-
What is wrong with a declaration that has a value: the name may be declared before, a number may
not fit its type, a divisor may be zero, and names in the value may be declared nowhere.
-/
import EvlCheck.Check.CallCheck
import EvlCheck.Check.Line

namespace EvlCheck.Check

open Text

/-! ## Numbers -/

/-- The complaint about an integer literal in a `float` variable or a decimal in an `int` one. -/
def literalNote? (line : Nat) (d : Declaration) (value : List Char) : Option Note :=
  if d.type = .float ∧ isIntLiteral value then
    let text := String.ofList value
    some <| .error line
      s!"Float variable '{d.name}' must be initialised with a float literal — use {text}.0 instead of {text}"
  else if d.type = .int ∧ isFloatLiteral value then
    some <| .warning line
      s!"Assigning float literal to 'int' variable '{d.name}' — implicit conversion"
  else none

/-- The complaint about a `float` variable as the value of an `int` one. -/
def variableNote? (symbols : Symbols) (line : Nat) (d : Declaration) (value : List Char) :
    Option Note :=
  if d.type = .int ∧ symbols.get? (String.ofList value) = some .float then
    some <| .warning line
      s!"Assigning float variable to 'int' variable '{d.name}' — implicit conversion"
  else none

/-- The complaint about the target of a cast that is the whole value. -/
def targetNote? (line : Nat) (d : Declaration) (target : String) : Option Note :=
  match ValueType.ofText? target with
  | none => some ((CallComplaint.invalidTarget target).note line)
  | some type =>
    if type = d.type then none
    else some <| .error line
      s!"Cast type '{target}' does not match declared variable type '{d.type.text}' for '{d.name}' — use cast(expr, {d.type.text})"

/-- Notes on a value that is of type `float` while the variable is an `int`; of calls the call
checks tell more. -/
def conversionNotes [Build] (symbols : Symbols) (line : Nat) (d : Declaration) (value : List Char) :
    List Note :=
  if d.type = .int then
    let (type, journal) := infer symbols value
    journal.toList.map .event ++
      if type = some .float ∧ ¬ isCallStart value then
        [.warning line
          s!"Expression evaluates to 'float' but variable '{d.name}' is declared as 'int' — implicit conversion"]
      else []
  else []

/-- Notes on the value of a variable that holds a number. -/
def numberNotes [Build] (symbols : Symbols) (line : Nat) (d : Declaration) (value : List Char) :
    List Note :=
  (literalNote? line d value).toList ++ (variableNote? symbols line d value).toList ++
    match castParts? value with
    | some (_, target) => (targetNote? line d target).toList
    | none => conversionNotes symbols line d value

/-! ## Names -/

/-- Whether a name in the value of `current` needs no declaration of its own. -/
def isKnownName (symbols : Symbols) (current name : String) : Bool :=
  symbols.contains name || (BuiltinConstant.ofText? name).isSome ||
    (Signature.find? name).isSome || (ValueType.ofText? name).isSome || name == current ||
    name == "true" || name == "false"

/-- The names that an expression mentions outside of quotes, calls left out. -/
def mentionedNames (cs : List Char) : List String :=
  (words (unquoted cs)).filterMap fun (word, behind) =>
    if word.head?.any isNameStart && (afterBlanks? '(' behind).isNone then
      some (String.ofList word)
    else none

/-- A warning for each mention of a name that nothing declares. -/
def undeclaredNotes (symbols : Symbols) (line : Nat) (current : String) (value : List Char) :
    List Note :=
  ((mentionedNames value).filter fun name => !isKnownName symbols current name).map fun name =>
    .warning line s!"Reference to undeclared identifier '{name}'"

/-! ## The declaration -/

def divisionNote (line : Nat) : Note := .error line "Division by zero detected"

def declarationEvent [Build] (line : Nat) (d : Declaration) : Event :=
  (((Event.debug "Checking declaration").add "line" line).add "name" d.name).add "type" d.type.text

/-- Notes on a declaration; `repeated` says that an earlier line declares the name, and `guarded`
that a `try` protects the line. -/
def declarationNotes [Build] (symbols : Symbols) (line : Nat) (repeated guarded : Bool)
    (d : Declaration) :
    List Note :=
  let value := trim d.value
  [.event (declarationEvent line d)] ++
    (if !d.constant && repeated then
      [.warning line s!"Variable '{d.name}' is already declared"] else []) ++
    (if d.type.isNumeric then numberNotes symbols line d value else []) ++
    (if dividesByZero value && !guarded then [divisionNote line] else []) ++
    undeclaredNotes symbols line d.name value ++
    checkCalls ⟨line, some d.type, symbols⟩ value

end EvlCheck.Check
