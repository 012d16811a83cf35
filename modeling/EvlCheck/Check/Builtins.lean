/-
What validation knows of the language: the built-in functions with the number of arguments they
take and the type of what they return, and the built-in constants.
-/
import EvlCheck.Tree.Operator

namespace EvlCheck

/-- How the type of a call follows from the call. -/
inductive ReturnKind where
  /-- Always `float`. -/
  | float
  /-- Always `int`. -/
  | int
  /-- The type of the first argument. -/
  | firstArgument
  /-- The type that the second argument names. -/
  | castTarget
  /-- No value is returned. -/
  | void
  deriving Repr, DecidableEq

/-- A built-in function; one without `most` takes any number of arguments from `least` up. -/
structure Signature where
  name : String
  least : Nat
  most : Option Nat
  returns : ReturnKind
  /-- All arguments must have one type. -/
  homogeneous : Bool
  deriving Repr, DecidableEq

namespace Signature

def all : List Signature :=
  [ ⟨"cast", 2, some 2, .castTarget, false⟩,
    ⟨"pow", 2, some 2, .float, true⟩,
    ⟨"sqrt", 1, some 1, .float, true⟩,
    ⟨"min", 2, some 2, .firstArgument, true⟩,
    ⟨"max", 2, some 2, .firstArgument, true⟩,
    ⟨"round", 1, some 1, .int, true⟩,
    ⟨"print", 1, none, .void, false⟩,
    ⟨"abs", 1, some 1, .firstArgument, true⟩ ]

def find? (name : String) : Option Signature :=
  all.find? fun s => s.name == name

theorem all_nodup : (all.map (·.name)).Nodup := by decide

theorem find?_name {name : String} {s : Signature} (h : find? name = some s) : s.name = name := by
  simpa using List.find?_some h

end Signature

namespace BuiltinConstant

def all : List BuiltinConstant := [.pi, .daysInWeek, .hoursInDay, .year]

def ofText? (name : String) : Option BuiltinConstant :=
  all.find? fun c => c.text == name

theorem ofText?_text (c : BuiltinConstant) : ofText? c.text = some c := by cases c <;> rfl

end BuiltinConstant

end EvlCheck
