/-
What a diagnostic's message mentions: names, types and numbers that fixes take from its words.
-/
import EvlCheck.Text.Pattern

namespace EvlCheck.Mention

open Text

/-- The word in single quotes at the start, and the text behind it. -/
def quoted? (cs : List Char) : Option (List Char × List Char) := do
  let (w, rest) ← word? (← after? "'" cs)
  return (w, ← after? "'" rest)

/-- The first quoted word that stands right behind one of the given texts. -/
def wordAfter? (leads : List String) (message : List Char) : Option (List Char) :=
  findFirst? (fun cs => leads.findSome? fun lead => ((after? lead cs).bind quoted?).map (·.1))
    message

def variableName? (message : List Char) : Option (List Char) :=
  wordAfter? ["Variable ", "variable "] message

def identifierName? (message : List Char) : Option (List Char) :=
  wordAfter? ["identifier "] message

def functionName? (message : List Char) : Option (List Char) :=
  wordAfter? ["Function ", "function "] message

/-- The name that is no target type of a cast. -/
def castTarget? (message : List Char) : Option (List Char) :=
  wordAfter? ["cast target type "] message

/-- The target type of a cast and the declared type that it does not match. -/
def castTypes? (message : List Char) : Option (List Char × List Char) :=
  findFirst? (fun cs => do
    let (target, rest) ← quoted? (← after? "Cast type " cs)
    let (declared, _) ← quoted? (← after? " does not match declared variable type " rest)
    return (target, declared)) message

/-- Digits at the start, and the text behind them. -/
def digits? (cs : List Char) : Option (List Char × List Char) :=
  match cs.takeWhile isDecimal with
  | [] => none
  | ds => some (ds, cs.dropWhile isDecimal)

/-- The decimal to use and the integer that it stands for. -/
def numbers? (message : List Char) : Option (List Char × List Char) :=
  findFirst? (fun cs => do
    let (whole, rest) ← digits? (← after? "use " cs)
    let (fraction, rest) ← digits? (← after? "." rest)
    let (int, _) ← digits? (← after? " instead of " rest)
    return (whole ++ '.' :: fraction, int)) message

/-- The type that a function returns, and the declared type, which is the last one named on the same
line. -/
def returnTypes? (message : List Char) : Option (List Char × List Char) :=
  findFirst? (fun cs => do
    let (returned, rest) ← quoted? (← after? "returns " cs)
    let (declared, _) ← findLast? (fun cs => (after? "declared as " cs).bind quoted?)
      (rest.takeWhile (· != '\n'))
    return (returned, declared)) message

end EvlCheck.Mention
