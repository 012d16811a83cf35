/-
Open documents. A document has a number, an address, a text, and a version that counts its texts
from 1.
-/
import EvlCheck.Json
import EvlCheck.Text.Lines

namespace EvlCheck

/-- The number that a workspace gives to a document. -/
structure DocumentId where
  number : Nat
  deriving Repr, DecidableEq, Inhabited

/-- The written form of a number. -/
def DocumentId.text (id : DocumentId) : String := s!"doc#{id.number}"

structure Document where
  id : DocumentId
  uri : String
  text : String
  version : Nat := 1
  deriving Repr, DecidableEq

namespace Document

/-- The document with another text, which is its next version. -/
def setText (d : Document) (text : String) : Document :=
  { d with text := text, version := d.version + 1 }

def lineCount (d : Document) : Nat := (Text.lines d.text.toList).length

/-- A line, counted from 1, without its terminator. -/
def line? (d : Document) (n : Nat) : Option String :=
  (Text.line? d.text.toList n).map String.ofList

def toJson (d : Document) : Json :=
  .obj
    [ ("id", .str d.id.text),
      ("uri", .str d.uri),
      ("text", .str d.text),
      ("version", .num d.version) ]

end Document

end EvlCheck
