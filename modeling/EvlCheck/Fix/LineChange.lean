/-
How fixes change a line. Every change concerns the first place that has the wanted form, and
leaves a line without such a place as it is.
-/
import EvlCheck.Check.Line

namespace EvlCheck.LineChange

open Text Check

/-! ## Values -/

/-- The line with `= value` from its assigned value on. -/
def assign (value : List Char) (line : List Char) : List Char :=
  match splitAssigned? line with
  | none => line
  | some (before, _) => before ++ '=' :: ' ' :: value

def castText (value : List Char) (target : String) : List Char :=
  "cast(".toList ++ value ++ ", ".toList ++ target.toList ++ [')']

/-- The line with a literal for the last word, where this is the given integer with nothing but
blanks behind. -/
def lastNumber (int literal : List Char) (line : List Char) : List Char :=
  let kept := (trimEnd line).reverse
  if (kept.takeWhile isWord).reverse = int then (kept.dropWhile isWord).reverse ++ literal else line

/-! ## Types -/

/-- What stands before the type of a declaration: blanks and perhaps `const`; the type, and the text
behind it. -/
def declaredType? (line : List Char) : Option (List Char × ValueType × List Char) :=
  (declarationHead? (trimStart line)).map fun (_, type, rest) =>
    (line.take (line.length - (type.text.length + rest.length)), type, rest)

/-- The declaration of a number with another type. -/
def retype (type : List Char) (line : List Char) : List Char :=
  match declaredType? line with
  | none => line
  | some (before, old, rest) =>
    if old.isNumeric ∧ (skipBlanks? rest).isSome then before ++ type ++ rest else line

/-- The declaration without a name with the given one. -/
def putName (name : String) (line : List Char) : List Char :=
  match declaredType? line with
  | none => line
  | some (before, type, rest) =>
    match afterBlanks? '=' rest with
    | none => line
    | some rest => before ++ type.text.toList ++ ' ' :: name.toList ++ ' ' :: '=' :: rest

/-! ## Calls -/

/-- A text up to a character, which is not its first, and the text from there on. -/
def upTo? (c : Char) (cs : List Char) : Option (List Char × List Char) :=
  match cs.takeWhile (· != c), cs.dropWhile (· != c) with
  | [], _ => none
  | _, [] => none
  | before, rest => some (before, rest)

/-- The line with another target type for the first cast to the given one. -/
def retarget (old new : List Char) : List Char → List Char :=
  replaceFirst fun cs => do
    let (_, rest) ← upTo? ',' (← afterBlanks? '(' (← after? "cast" cs))
    let target := trimStart (rest.drop 1)
    let rest ← old.isPrefixOf? target
    let _ ← afterBlanks? ')' rest
    return (cs.take (cs.length - target.length) ++ new, rest)

/-- The text in the parentheses behind a name at the start, and the text behind them. The
parentheses end at the first that closes. -/
def argsAfter? (name : List Char) (cs : List Char) : Option (List Char × List Char) := do
  let (args, rest) ← upTo? ')' (← afterBlanks? '(' (← name.isPrefixOf? cs))
  return (args, rest.drop 1)

/-- An argument cast to a type, unless it is a cast already. -/
def castArg (target : String) (arg : List Char) : List Char :=
  let arg := trim arg
  if ((after? "cast" arg).bind (afterBlanks? '(')).isSome then arg else castText arg target

/-- The line with all arguments of the first call of a function cast to a type, where there is such
a call. -/
def castArgs? (name : List Char) (target : String) (line : List Char) : Option (List Char) :=
  (findFirst? (argsAfter? name) line).map fun (args, _) =>
    let cast := (splitOn ',' args).map (castArg target)
    let new := name ++ '(' :: ", ".toList.intercalate cast ++ [')']
    replaceFirst (fun cs => (argsAfter? name cs).map fun (_, rest) => (new, rest)) line

end EvlCheck.LineChange
