/-
Help with the call that is being typed: the leftmost one that nothing closes before the cursor, and
which of its arguments the cursor is in.
-/
import EvlCheck.Json
import EvlCheck.Text.Pattern

namespace EvlCheck

/-- A parameter as help shows it. -/
structure ParameterHelp where
  label : String
  documentation : String
  deriving Repr, DecidableEq

/-- A function as help shows it. -/
structure CallHelp where
  label : String
  documentation : String
  parameters : List ParameterHelp
  deriving Repr, DecidableEq

namespace CallHelp

/-- The functions that help is shown for. -/
def table : List (String × CallHelp) :=
  [ ("pow",
      ⟨"pow(base: number, exponent: number) → float", "Raises base to the power of exponent.",
        [⟨"base", "Base value"⟩, ⟨"exponent", "Exponent value"⟩]⟩),
    ("cast",
      ⟨"cast(value: any, type: type) → any", "Explicitly converts a value to a type.",
        [⟨"value", "Value to convert"⟩, ⟨"type", "Target type"⟩]⟩),
    ("sqrt",
      ⟨"sqrt(value: number) → float", "Returns the square root of a number.",
        [⟨"value", "Input number"⟩]⟩) ]

def of? (function : String) : Option CallHelp := table.lookup function

def toJson (h : CallHelp) : Json :=
  .obj
    [ ("label", .str h.label),
      ("documentation", .str h.documentation),
      ("parameters", .arr (h.parameters.map fun p =>
        .obj [("label", .str p.label), ("documentation", .str p.documentation)])) ]

end CallHelp

/-- A call that is being typed, and the argument that the cursor is in, counted from 0. -/
structure OpenCall where
  help : CallHelp
  active : Nat
  deriving Repr, DecidableEq

namespace OpenCall

open Text

/-- Characters behind which help is asked for. -/
def triggers : List Char := ['(', ',']

/-- The name of the leftmost call that nothing closes, and the text behind its parenthesis. -/
def leftmost? (cs : List Char) : Option (List Char × List Char) :=
  (words cs).findSome? fun (word, behind) =>
    match afterBlanks? '(' behind with
    | none => none
    | some inside => if inside.contains ')' then none else some (word, inside)

/-- The help with the call that is open at the end of a text. Every comma behind its parenthesis
counts, also one in a call among the arguments. -/
def atEnd? (cs : List Char) : Option OpenCall := do
  let (name, inside) ← leftmost? cs
  return ⟨← CallHelp.of? (String.ofList name), inside.count ','⟩

end OpenCall

end EvlCheck
