/-
Refactors of the line that the cursor is on. They are offered whether or not the line has findings.
-/
import EvlCheck.Fix.Action
import EvlCheck.Fix.LineChange

namespace EvlCheck.Refactor

open Text Check

/-- A declaration that is no constant: the blanks before it, its type, its name, and its value up to
the end of the line. -/
def plainDeclaration? (line : List Char) :
    Option (List Char × ValueType × List Char × List Char) := do
  let (type, rest) ← type? (trimStart line)
  let (name, rest) ← word? (← skipBlanks? rest)
  let value ← value? (← afterBlanks? '=' rest)
  return (line.takeWhile isBlank, type, name, value)

/-- A character of a dotted token. -/
def isDotted (c : Char) : Bool := isWord c || c == '.'

/-- Whether an `int` is declared with a dotted token such as `1.5` or `a.b` as its value or as the
start of it, which hints at a `float`. -/
def hasDottedInt (line : List Char) : Bool :=
  (do
    let (_, rest) ← word? (← skipBlanks? (← after? "int" (trimStart line)))
    let token := (trimStart (← afterBlanks? '=' rest)).takeWhile isDotted
    guard ((token.drop 1).dropLast.contains '.')).isSome

def makeConstant (number : Nat) (line : List Char) (version : Nat) : List CodeAction :=
  match plainDeclaration? line with
  | none => []
  | some (blanks, type, name, value) =>
    let text := blanks ++ "const ".toList ++ type.text.toList ++ ' ' :: name ++
      " = ".toList ++ value
    [.refactor s!"Make '{String.ofList name}' a constant (const)"
      ⟨.wholeLine number line, String.ofList text, version⟩]

def intToFloat (number : Nat) (line : List Char) (version : Nat) : List CodeAction :=
  if hasDottedInt line then
    [.refactor "Change type from 'int' to 'float'"
      ⟨.wholeLine number line, String.ofList (LineChange.retype "float".toList line), version⟩]
  else []

def ofLine (number : Nat) (line : List Char) (version : Nat) : List CodeAction :=
  makeConstant number line version ++ intToFloat number line version

end EvlCheck.Refactor
