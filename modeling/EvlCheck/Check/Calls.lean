/-
The calls in the text of an expression, nested ones included, in the order of their names. The
text need not parse: parentheses are matched by counting.
-/
import EvlCheck.Check.Args
import EvlCheck.Check.Sink
import EvlCheck.Text.Pattern

namespace EvlCheck

/-- A call: its name and its trimmed arguments. -/
structure CallText where
  name : String
  args : List (List Char)
  deriving Repr, DecidableEq

namespace Check

open Text

/-- The text up to the parenthesis that closes the one before it; of a text in which none does, all
but the last character. -/
def callInside (cs : List Char) : List Char :=
  go cs 0 []
where
  /-- Looks for the closing parenthesis, given the inner ones that are open and the text so far. -/
  go : List Char → Nat → List Char → List Char
    | [], _, seen => (seen.drop 1).reverse
    | c :: rest, depth, seen =>
      if c = '(' then go rest (depth + 1) (c :: seen)
      else if c = ')' then
        match depth with
        | 0 => seen.reverse
        | depth + 1 => go rest depth (c :: seen)
      else go rest depth (c :: seen)

/-- The call whose name ends a word, where a parenthesis follows the word. -/
def callOfWord? (word behind : List Char) : Option CallText :=
  match word.dropWhile (fun c => !isNameStart c) with
  | [] => none
  | name => (afterBlanks? '(' behind).map fun rest =>
      ⟨String.ofList name, splitArgs (callInside rest)⟩

/-- The event that tells that calls were left out. -/
def callLimitEvent [Build] : Event :=
  (Event.warning "Call extraction limit reached; remaining calls ignored").add "limit"
    Limit.callExtraction

/-- The first calls among words up to the limit, and the event where there are more. -/
def callsOfWords [Build] :
    List (List Char × List Char) → Nat → List CallText → List CallText × Journal
  | [], _, found => (found.reverse, #[])
  | (word, behind) :: rest, room, found =>
    match callOfWord? word behind with
    | none => callsOfWords rest room found
    | some call =>
      match room with
      | 0 => (found.reverse, #[callLimitEvent])
      | room + 1 => callsOfWords rest room (call :: found)

/-- The calls of a text, the outermost before those in its arguments. -/
def calls [Build] (cs : List Char) : List CallText × Journal :=
  callsOfWords (words cs) Limit.callExtraction []

end Check

end EvlCheck
