/-
Arguments of a call. A text is split at the commas that stand in no bracket; round and square
brackets count alike, and a bracket that closes more than was opened is counted too.
-/
import EvlCheck.Text.Trim

namespace EvlCheck.Check

open Text

/-- The depth after a character. -/
def bracketDepth (depth : Int) (c : Char) : Int :=
  if c = '(' ∨ c = '[' then depth + 1 else if c = ')' ∨ c = ']' then depth - 1 else depth

/-- The pieces between the commas outside of brackets; a text without such a comma is one piece. -/
def argPieces (cs : List Char) : List (List Char) :=
  go cs 0 [] []
where
  /-- Splits the rest, given the depth, the current piece and the finished ones, both reversed. -/
  go : List Char → Int → List Char → List (List Char) → List (List Char)
    | [], _, piece, done => (piece.reverse :: done).reverse
    | c :: rest, depth, piece, done =>
      if c = ',' ∧ depth = 0 then go rest depth [] (piece.reverse :: done)
      else go rest (bracketDepth depth c) (c :: piece) done

/-- The arguments, trimmed; an empty one counts unless it is the last. -/
def splitArgs (cs : List Char) : List (List Char) :=
  let args := (argPieces cs).map trim
  if args.getLast? = some [] then args.dropLast else args

end EvlCheck.Check
