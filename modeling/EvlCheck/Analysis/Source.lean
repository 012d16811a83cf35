/-
Which files hold sources, and why a source cannot be analysed. Only the name decides: it must have
the extension of the language, in either case.
-/
import EvlCheck.Log.Code
import EvlCheck.Text.Lines

namespace EvlCheck

/-- Why there is no source to analyse. -/
inductive SourceError where
  | unreadable (path reason : String)
  | unsupported (path : String)
  | failed (reason : String)
  deriving Repr, DecidableEq

namespace Source

open Text

/-- The extension of files that hold sources. -/
def sourceExtension : String := "evl"

/-- The last name of a path; a path that ends in two points has none. -/
def lastName? (path : List Char) : Option (List Char) :=
  match ((splitOn '/' path).filter fun part => part ≠ [] ∧ part ≠ ['.']).getLast? with
  | none => none
  | some name => if name = ['.', '.'] then none else some name

/-- What follows the last point of the last name; a point that begins the name does not count. -/
def extension? (path : List Char) : Option (List Char) := do
  let back := (← lastName? path).reverse
  let extension := back.takeWhile (· != '.')
  match back.drop extension.length with
  | _ :: _ :: _ => some extension.reverse
  | _ => none

def isSupported (path : String) : Bool :=
  match extension? path.toList with
  | none => false
  | some extension => extension.map Char.toLower == sourceExtension.toList

def checkPath (path : String) : Except SourceError Unit :=
  if isSupported path then .ok () else .error (.unsupported path)

end Source

namespace SourceError

def message : SourceError → String
  | .unreadable path reason => s!"Failed to read '{path}': {reason}"
  | .unsupported path =>
    s!"'{path}' is not an EVAL source file (expected .{Source.sourceExtension})"
  | .failed reason => s!"Pipeline error: {reason}"

def code : SourceError → Code
  | .unreadable .. => .fileReadFailed
  | .unsupported _ => .unsupportedSource
  | .failed _ => .internalError

end SourceError

end EvlCheck
