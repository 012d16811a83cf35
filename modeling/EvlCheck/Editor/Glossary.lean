/-
Explanations of what a program is written with, shown where the cursor rests. A word is shown over
all of its characters and over the place directly behind it; an operator over its own character,
unless a word ends there.
-/
import EvlCheck.Fix.Edit
import EvlCheck.Text.CharClass

namespace EvlCheck

namespace Glossary

/-! ## Entries -/

def declarations : List (String × String) :=
  [ ("int", "32-bit signed integer type used for whole numbers."),
    ("float", "Floating-point numeric type used for decimal values."),
    ("const", "Declares an immutable variable whose value cannot be reassigned.") ]

def functions : List (String × String) :=
  [ ("print", "Outputs one or more values to the standard output."),
    ("cast", "Explicitly converts a value from one type to another."),
    ("pow", "Raises a number to the power of another number."),
    ("sqrt", "Returns the square root of a numeric value."),
    ("min", "Returns the smaller of two numeric values."),
    ("max", "Returns the larger of two numeric values."),
    ("round", "Rounds a floating-point number to the nearest integer.") ]

def constants : List (String × String) :=
  [ ("PI",
      "Mathematical constant representing the ratio of a circle’s circumference to its diameter."),
    ("DAYS_IN_WEEK", "Constant representing the number of days in a week."),
    ("HOURS_IN_DAY", "Constant representing the number of hours in a day."),
    ("Year", "Current year value provided by the runtime environment.") ]

def blocks : List (String × String) :=
  [ ("try", "Executes a block of code that may throw a runtime error."),
    ("catch", "Handles errors thrown inside a try block.") ]

def operators : List (String × String) :=
  [ ("+", "Adds two numeric values together."),
    ("-", "Subtracts one numeric value from another."),
    ("*", "Multiplies two numeric values."),
    ("/", "Divides one numeric value by another."),
    ("=", "Assigns a value to a variable.") ]

def entries : List (String × String) :=
  declarations ++ functions ++ constants ++ blocks ++ operators

/-- What has an entry, in order. -/
def words : List String := entries.map (·.1)

theorem words_nodup : words.Nodup := by decide

/-- The explanation of exactly this spelling. -/
def find? (key : String) : Option String := entries.lookup key

/-- The explanation of a word: of its spelling in lower case, or else of its own. Only letters of
ASCII change, since no other letter has one of the entries' small letters for its lower case. -/
def explain? (word : String) : Option String := (find? word.toLower).or (find? word)

end Glossary

/-! ## The word at a place -/

/-- What is shown for a place of a line. -/
structure Hover where
  range : Range
  contents : String
  deriving Repr, DecidableEq

namespace Hover

open Text

/-- A character of the words that are looked up. -/
def isWordPart (c : Char) : Bool := isAlphanumeric c || c == '_'

/-- The place of a word's character, counted from 0, that a cursor at place `i` points at: its own,
or else the one before it. -/
def anchor? (cs : List Char) : Nat → Option Nat
  | 0 => if cs.head?.any isWordPart then some 0 else none
  | i + 1 =>
    if cs[i + 1]?.any isWordPart then some (i + 1)
    else if cs[i]?.any isWordPart then some i
    else none

/-- The longest word around a place: where it begins, and its characters. -/
def wordAround (cs : List Char) (place : Nat) : Nat × List Char :=
  let before := (cs.take place).reverse.takeWhile isWordPart
  (place - before.length, before.reverse ++ (cs.drop place).takeWhile isWordPart)

/-- What is shown for a column of line `number`. -/
def at? (number : Nat) (cs : List Char) (column : Nat) : Option Hover :=
  match column with
  | 0 => none
  | i + 1 =>
    match anchor? cs i with
    | some place =>
      let (start, word) := wordAround cs place
      (Glossary.explain? (String.ofList word)).map fun contents =>
        ⟨⟨number, start + 1, number, start + word.length + 1⟩, contents⟩
    | none =>
      cs[i]?.bind fun c => (Glossary.find? c.toString).map fun contents =>
        ⟨⟨number, i + 1, number, i + 2⟩, contents⟩

def toJson (h : Hover) : Json :=
  .obj [("range", h.range.toJson), ("contents", .str h.contents)]

end Hover

end EvlCheck
