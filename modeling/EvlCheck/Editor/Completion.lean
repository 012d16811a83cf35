/-
What an editor offers while a word is typed. A snippet has stops, which are filled in one after the
other; anything else is inserted as it is labelled.
-/
import EvlCheck.Json

namespace EvlCheck

inductive CompletionKind where
  | keyword
  | function
  | constant
  | operator
  deriving Repr, DecidableEq

def CompletionKind.text : CompletionKind → String
  | .keyword => "keyword"
  | .function => "function"
  | .constant => "constant"
  | .operator => "operator"

inductive SnippetPart where
  | text (s : String)
  /-- A place to fill in, with what stands there at first. -/
  | stop (placeholder : String)
  deriving Repr, DecidableEq

/-- The written form of a snippet, whose stops are numbered from `first`. -/
def SnippetPart.render (first : Nat) : List SnippetPart → String
  | [] => ""
  | .text s :: rest => s ++ render first rest
  | .stop p :: rest => s!"$\x7b{first}:{p}\x7d" ++ render (first + 1) rest

/-- What is offered. -/
structure Completion where
  label : String
  kind : CompletionKind
  /-- A snippet, unless the label itself is inserted. -/
  snippet : List SnippetPart := []
  documentation : String
  deriving Repr, DecidableEq

namespace Completion

open SnippetPart

def isSnippet (c : Completion) : Bool := !c.snippet.isEmpty

def insertText (c : Completion) : String :=
  if c.isSnippet then SnippetPart.render 1 c.snippet else c.label

def call (name : String) (args : List String) (documentation : String) : Completion where
  label := name
  kind := .function
  snippet := text (name ++ "(") :: (args.map stop).intersperse (text ", ") ++ [text ")"]
  documentation := documentation

/-- A word before a block with a comment to replace. -/
def block (word comment documentation : String) : Completion where
  label := word
  kind := .keyword
  snippet := [text (word ++ " \x7b\n\t"), stop ("// " ++ comment), text "\n\x7d"]
  documentation := documentation

def operator (symbol : String) : Completion where
  label := symbol
  kind := .operator
  documentation := "Operator " ++ symbol

def declarations : List Completion :=
  [ ⟨"int", .keyword, [text "int ", stop "name", text " = ", stop "value"],
      "Declare an integer variable"⟩,
    ⟨"float", .keyword, [text "float ", stop "name", text " = ", stop "value"],
      "Declare a floating-point variable"⟩,
    ⟨"const", .keyword,
      [text "const ", stop "type", text " ", stop "name", text " = ", stop "value"],
      "Declare a constant value"⟩ ]

def functions : List Completion :=
  [ call "print" ["value"] "Print values to standard output",
    call "cast" ["value", "type"] "Explicitly cast a value to a type",
    call "pow" ["base", "exponent"] "Raise a number to a power",
    call "sqrt" ["value"] "Calculate square root",
    call "min" ["a", "b"] "Return the smaller value",
    call "max" ["a", "b"] "Return the larger value",
    call "round" ["value"] "Round a floating-point value" ]

def constants : List Completion :=
  [ ⟨"PI", .constant, [], "Mathematical constant π"⟩,
    ⟨"DAYS_IN_WEEK", .constant, [], "Number of days in a week"⟩,
    ⟨"HOURS_IN_DAY", .constant, [], "Number of hours in a day"⟩,
    ⟨"YEAR", .constant, [], "Current year constant"⟩ ]

def all : List Completion :=
  declarations ++ functions ++ constants ++
    [ block "try" "code" "Begin a try block",
      block "catch" "error handling" "Handle errors from a try block" ] ++
    ["+", "-", "*", "/", "%", "="].map operator

/-- What is offered behind `typed`, which is the start of its label. -/
def startingWith (typed : String) : List Completion :=
  all.filter fun c => typed.toList.isPrefixOf c.label.toList

def toJson (c : Completion) : Json :=
  .obj
    [ ("label", .str c.label),
      ("kind", .str c.kind.text),
      ("insert_text", .str c.insertText),
      ("is_snippet", .bool c.isSnippet),
      ("documentation", .str c.documentation) ]

end Completion

end EvlCheck
