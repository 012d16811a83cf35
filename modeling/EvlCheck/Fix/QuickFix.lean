/-
Quick fixes. The rules go by words of a diagnostic's message: each rule whose words appear in it
offers its fixes, in the order of the rules, and each fix edits the line of the diagnostic.
-/
import EvlCheck.Fix.Action
import EvlCheck.Fix.Mention
import EvlCheck.Fix.LineChange

namespace EvlCheck

/-- What a fix is made for: a diagnostic, the text of its line, and the document's version. -/
structure FixSite where
  diagnostic : Diagnostic
  line : List Char
  version : Nat

namespace FixSite

open Text

def message (s : FixSite) : List Char := s.diagnostic.message.toList

def replaceLine (s : FixSite) (title : String) (text : List Char) (preferred : Bool) : CodeAction :=
  .quickFix title s.diagnostic
    ⟨.wholeLine s.diagnostic.line s.line, String.ofList text, s.version⟩ preferred

/-- A fix that replaces the line if the new text differs. -/
def changeLine (s : FixSite) (title : String) (text : List Char) (preferred : Bool) :
    List CodeAction :=
  if text = s.line then [] else [s.replaceLine title text preferred]

/-! ## Values -/

/-- The value that a declaration without one is given: that of a `float` where the line begins with
this word. -/
def defaultFor (line : List Char) : String :=
  if (after? "float" (trimStart line)).isSome then "0.0" else "0"

def assignDefault (s : FixSite) : List CodeAction :=
  match Mention.variableName? s.message with
  | none => []
  | some name =>
    let value := defaultFor s.line
    [s.replaceLine s!"Assign default value to '{String.ofList name}' ({value})"
      (trimEnd s.line ++ " = ".toList ++ value.toList) true]

def useFloatLiteral (s : FixSite) : List CodeAction :=
  match Mention.numbers? s.message with
  | none => []
  | some (float, int) =>
    [s.replaceLine s!"Change {String.ofList int} to {String.ofList float}"
      (LineChange.lastNumber int float s.line) true]

def removeDuplicate (s : FixSite) : List CodeAction :=
  let title := match Mention.variableName? s.message with
    | some name => s!"Remove duplicate declaration of '{String.ofList name}'"
    | none => "Remove duplicate declaration"
  [.quickFix title s.diagnostic ⟨.lineWithBreak s.diagnostic.line, "", s.version⟩ true]

/-! ## Casts -/

/-- Casts the assigned value to `int`; a value that is a cast gets another target. -/
def castToInt (s : FixSite) : List CodeAction :=
  match assignedValue? s.line with
  | none => []
  | some value =>
    let value := trim value
    let (title, inner) := match Check.castParts? value with
      | some (inner, _) => ("Fix cast type to 'int'", inner)
      | none => ("Add explicit cast to int", value)
    [s.replaceLine title (LineChange.assign (LineChange.castText inner "int") s.line) true]

/-- Brings the target of a cast and the declared type together, from either side. -/
def fixCastMismatch (s : FixSite) : List CodeAction :=
  match Mention.castTypes? s.message with
  | none => []
  | some (target, declared) =>
    s.changeLine s!"Fix cast type to match variable type ('{String.ofList declared}')"
      (LineChange.retarget target declared s.line) true ++
    s.changeLine s!"Change variable type to '{String.ofList target}' to match cast"
      (LineChange.retype target s.line) false

/-- Declares the type that a function returns, or casts what it returns. -/
def fixReturnMismatch (s : FixSite) : List CodeAction :=
  match Mention.returnTypes? s.message with
  | none => []
  | some (returned, declared) =>
    s.changeLine s!"Change variable type to '{String.ofList returned}' to match function return"
      (LineChange.retype returned s.line) true ++
    match assignedValue? s.line with
    | none => []
    | some value =>
      let target := String.ofList declared
      [s.replaceLine s!"Cast result to '{target}'"
        (LineChange.assign (LineChange.castText (trim value) target) s.line) false]

def castAllArguments (s : FixSite) : List CodeAction :=
  match Mention.functionName? s.message with
  | none => []
  | some name =>
    ["int", "float"].filterMap fun target =>
      (LineChange.castArgs? name target s.line).map fun text =>
        s.replaceLine s!"Cast all arguments to '{target}'" text (target == "float")

/-- Puts a type in the place of one that is none. -/
def replaceCastTarget (s : FixSite) : List CodeAction :=
  match Mention.castTarget? s.message with
  | none => []
  | some bad =>
    ["int", "float"].map fun target =>
      s.replaceLine s!"Replace invalid cast type with '{target}'"
        (LineChange.retarget bad target.toList s.line) (target == "int")

/-! ## Statements -/

def wrapIndent : String := "    "

/-- Puts the line into the body of a `try`. -/
def wrapInTry (s : FixSite) : List CodeAction :=
  [s.replaceLine "Wrap in try/catch block"
    ("try \x7b\n".toList ++ wrapIndent.toList ++ trim s.line ++
      "\n\x7d catch (e) \x7b\n".toList ++ wrapIndent.toList ++
      "print(\"Error: Division by zero!\")\n\x7d".toList) true]

/-- Declares a number in a line of its own above. -/
def declareIdentifier (s : FixSite) : List CodeAction :=
  match Mention.identifierName? s.message with
  | none => []
  | some name =>
    [("int", "0"), ("float", "0.0")].map fun (type, value) =>
      let text := s!"{type} {String.ofList name} = {value}"
      .quickFix s!"Declare '{text}' above this line" s.diagnostic
        ⟨.lineStart s.diagnostic.line, text ++ "\n", s.version⟩ (type == "int")

/-- Points to the documentation. -/
def showSignature (s : FixSite) : List CodeAction :=
  match Mention.functionName? s.message with
  | none => []
  | some name =>
    [.hint s!"View correct signature for '{String.ofList name}' in documentation" s.diagnostic]

/-- The name that a declaration without one gets. -/
def placeholderName : String := "myVar"

def addPlaceholder (s : FixSite) : List CodeAction :=
  [s.replaceLine ("Add placeholder variable name \"" ++ placeholderName ++ "\"")
    (LineChange.putName placeholderName s.line) true]

/-! ## The rules -/

/-- The rules in their order: what a message must say, and what is then offered. -/
def rules : List ((List Char → Bool) × (FixSite → List CodeAction)) :=
  [ (hasPart "declared but never assigned", assignDefault),
    (hasPart "must be initialised with a float literal", useFloatLiteral),
    (hasPart "already declared", removeDuplicate),
    (fun m => hasPart "implicit conversion" m && !hasPart "Cast type" m, castToInt),
    (fun m => hasPart "Cast type" m && hasPart "does not match declared variable type" m,
      fixCastMismatch),
    (fun m => (hasPart "always returns" m || hasPart "arguments returns" m) &&
      hasPart "but variable is declared as" m, fixReturnMismatch),
    (hasPart "requires all arguments to be the same type", castAllArguments),
    (hasPart "Division by zero", wrapInTry),
    (hasPart "undeclared identifier", declareIdentifier),
    (hasPart "Invalid cast target type", replaceCastTarget),
    (fun m => hasPart "expects" m && hasPart "argument(s)" m, showSignature),
    (hasPart "missing a name", addPlaceholder) ]

def fixes (s : FixSite) : List CodeAction :=
  rules.flatMap fun (applies, offer) => if applies s.message then offer s else []

end FixSite

end EvlCheck
