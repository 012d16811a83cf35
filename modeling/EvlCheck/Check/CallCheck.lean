/-
What is wrong with the calls of an expression: unknown functions, numbers of arguments, targets of
casts, arguments of mixed types, and results that do not fit the declared type. A result is held
against the declared type only for calls of the function that the first call names.
-/
import EvlCheck.Check.Infer

namespace EvlCheck.Check

structure CallSite where
  line : Nat
  /-- The type of the variable that receives the value of the expression. -/
  declared : Option ValueType
  symbols : Symbols

/-! ## Messages -/

/-- The words of each complaint about a call. -/
inductive CallComplaint where
  | unknownFunction (name : String)
  | tooFew (name : String) (least given : Nat)
  | tooMany (name : String) (most given : Nat)
  | invalidTarget (target : String)
  | targetMismatch (target : String) (declared : ValueType)
  | mixedTypes (name : String) (args : List (String × Option ValueType))
  | floatFromArguments (name : String) (type : ValueType)
  | alwaysFloat (name : String)

namespace CallComplaint

/-- The arguments with their types. -/
def argsText (args : List (String × Option ValueType)) : String :=
  ", ".intercalate (args.map fun (arg, type) => "'" ++ arg ++ "' (" ++ typeText type ++ ")")

def message : CallComplaint → String
  | .unknownFunction name => s!"Unknown function '{name}' — is this a built-in or typo?"
  | .tooFew name least given =>
    s!"Function '{name}' expects at least {least} argument(s), got {given}"
  | .tooMany name most given => s!"Function '{name}' expects at most {most} argument(s), got {given}"
  | .invalidTarget target => s!"Invalid cast target type '{target}' — expected 'int' or 'float'"
  | .targetMismatch target declared =>
    s!"Cast type '{target}' does not match declared variable type '{declared.text}' — use cast(expr, {declared.text})"
  | .mixedTypes name args =>
    s!"Function '{name}' requires all arguments to be the same type, but received mixed types: {argsText args}. Use cast() to convert arguments to a common type."
  | .floatFromArguments name type =>
    s!"Function '{name}' with '{type.text}' arguments returns 'float', but variable is declared as 'int' — change the variable type to 'float' or cast the result"
  | .alwaysFloat name =>
    s!"Function '{name}' always returns 'float', but variable is declared as 'int' — change the variable type to 'float' or wrap with cast({name}(...), int)"

/-- An unknown function is a warning, all else an error. -/
def note (line : Nat) (c : CallComplaint) : Note :=
  match c with
  | .unknownFunction _ => .warning line c.message
  | _ => .error line c.message

end CallComplaint

/-! ## One call -/

/-- The complaint about the number of arguments. -/
def arityComplaint? (s : Signature) (given : Nat) : Option CallComplaint :=
  if given < s.least then some (.tooFew s.name s.least given)
  else match s.most with
    | none => none
    | some most => if given > most then some (.tooMany s.name most given) else none

/-- The complaint about the target of a cast whose value is assigned to a variable of a type. -/
def castComplaint? (declared : Option ValueType) (target : String) : Option CallComplaint :=
  match ValueType.ofText? target with
  | none => some (.invalidTarget target)
  | some type =>
    match declared with
    | none => none
    | some declared =>
      if type.isNumeric ∧ type ≠ declared then some (.targetMismatch target declared) else none

def ReturnKind.typeFor? (arg : ValueType) : ReturnKind → Option ValueType
  | .float => some .float
  | .int => some .int
  | .firstArgument => some arg
  | .castTarget | .void => none

/-- The complaint about arguments of known types: they must be of one type, and the type that
follows for the result must fit the declared one. -/
def argsComplaint? (s : Signature) (declared : Option ValueType)
    (args : List (String × Option ValueType)) : Option CallComplaint :=
  match args.filterMap (·.2) with
  | [] => none
  | first :: others =>
    if others.any (· != first) then some (.mixedTypes s.name args)
    else if declared = some .int ∧ ReturnKind.typeFor? first s.returns = some .float then
      some (.floatFromArguments s.name first)
    else none

/-- Notes on the arguments of a function that wants one type: the events of inference, and the
complaint. -/
def checkArgs [Build] (site : CallSite) (s : Signature) (args : List (List Char)) : List Note :=
  let typings := args.map (infer site.symbols)
  let typed := (args.map String.ofList).zip (typings.map (·.1))
  (typings.flatMap (·.2.toList)).map .event ++
    ((argsComplaint? s site.declared typed).map (·.note site.line)).toList

/-- Notes on one call, where `declared` is only set for a call named like the outermost one. A name
of a type is no function, but may stand before a parenthesis. -/
def checkCall [Build] (site : CallSite) (call : CallText) : List Note :=
  if (ValueType.ofText? call.name).isSome then []
  else match Signature.find? call.name with
    | none => [(CallComplaint.unknownFunction call.name).note site.line]
    | some s =>
      match arityComplaint? s call.args.length with
      | some c => [c.note site.line]
      | none =>
        if s.returns = .castTarget then
          match call.args[1]? with
          | none => []
          | some target =>
            ((castComplaint? site.declared (String.ofList target)).map
              (·.note site.line)).toList
        else
          (if s.homogeneous then checkArgs site s call.args else []) ++
            (if s.returns = .float ∧ site.declared = some .int then
              [(CallComplaint.alwaysFloat s.name).note site.line] else [])

/-! ## All calls of an expression -/

def callsEvent [Build] (line count : Nat) (outermost : String) : Event :=
  (((Event.debug "Validating function calls").add "line" line).add "calls" count).add "outermost"
    outermost

/-- Notes on every call of an expression. -/
def checkCalls [Build] (site : CallSite) (cs : List Char) : List Note :=
  let (found, journal) := calls cs
  journal.toList.map .event ++
    match found with
    | [] => []
    | first :: _ =>
      .event (callsEvent site.line found.length first.name) ::
        found.flatMap fun call =>
          checkCall (if call.name = first.name then site else { site with declared := none }) call

end EvlCheck.Check
