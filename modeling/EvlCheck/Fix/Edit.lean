/-
Edits of a text. Ranges count lines and columns in characters from 1, and their ends are not part of
them. The edits of a list are meant for the same text and are applied together: all places are
resolved first, edits that overlap are refused, and the last place is edited first.
-/
import EvlCheck.Json
import EvlCheck.Text.Position

namespace EvlCheck

/-! ## Ranges -/

/-- A part of a text by its first place and the place behind it. -/
structure Range where
  startLine : Nat
  startColumn : Nat
  endLine : Nat
  endColumn : Nat
  deriving Repr, DecidableEq, Inhabited

namespace Range

/-- A line without its line break. -/
def wholeLine (line : Nat) (text : List Char) : Range := ⟨line, 1, line, text.length + 1⟩

def lineWithBreak (line : Nat) : Range := ⟨line, 1, line + 1, 1⟩

def lineStart (line : Nat) : Range := ⟨line, 1, line, 1⟩

def isEmpty (r : Range) : Bool := r.startLine == r.endLine && r.startColumn == r.endColumn

/-- Both places with a dash between. -/
def text (r : Range) : String := s!"{r.startLine}:{r.startColumn}-{r.endLine}:{r.endColumn}"

def toJson (r : Range) : Json :=
  .obj
    [ ("start_line", .num r.startLine),
      ("start_column", .num r.startColumn),
      ("end_line", .num r.endLine),
      ("end_column", .num r.endColumn) ]

end Range

/-! ## Edits -/

/-- What stands for a range of the document of one version. -/
structure Edit where
  range : Range
  text : String
  version : Nat
  deriving Repr, DecidableEq

namespace Edit

def toJson (e : Edit) : Json :=
  .obj [("range", e.range.toJson), ("text", .str e.text), ("version", .num e.version)]

end Edit

inductive EditError where
  | outOfBounds (line column : Nat)
  | inverted (range : Range)
  | overlapping (range : Range)
  deriving Repr, DecidableEq

def EditError.name : EditError → String
  | .outOfBounds .. => "PositionOutOfBounds"
  | .inverted _ => "InvertedRange"
  | .overlapping _ => "OverlappingEdits"

def EditError.message : EditError → String
  | .outOfBounds line column => s!"Position {line}:{column} lies outside the document"
  | .inverted range => s!"Edit range {range.text} ends before it starts"
  | .overlapping range => s!"Edits overlap at {range.text}"

/-! ## Places -/

/-- The number of characters before a place. A line has one column more than characters; the place
after the last line is its own line, so that a range can take in the whole last line. -/
def charOffset? (cs : List Char) (line column : Nat) : Option Nat :=
  if line = 0 ∨ column = 0 then none else go cs line column 0
where
  /-- Goes on from a place that has `seen` characters before it and is `line` lines and `column`
  columns away, both counted from 1. -/
  go : List Char → Nat → Nat → Nat → Option Nat
    -- The end of the text is the end of its last line and also the start of a line behind it.
    | [], line, column, seen => if column = 1 ∧ line ≤ 2 then some seen else none
    | c :: rest, line, column, seen =>
      if line = 1 then
        if column = 1 then some seen
        else if c = '\n' then none
        else go rest 1 (column - 1) (seen + 1)
      else if c = '\n' then go rest (line - 1) column (seen + 1)
      else go rest line column (seen + 1)

/-- The number of bytes before a place. -/
def byteOffset (cs : List Char) (line column : Nat) : Except EditError Nat :=
  match charOffset? cs line column with
  | none => .error (.outOfBounds line column)
  | some n => .ok (Text.byteSize (cs.take n))

/-! ## Applying edits -/

/-- An edit whose ends are known as numbers of characters. -/
structure Replacement where
  start : Nat
  stop : Nat
  edit : Edit
  deriving Repr

namespace Replacement

def resolve (cs : List Char) (e : Edit) : Except EditError Replacement :=
  let r := e.range
  match charOffset? cs r.startLine r.startColumn with
  | none => .error (.outOfBounds r.startLine r.startColumn)
  | some start =>
    match charOffset? cs r.endLine r.endColumn with
    | none => .error (.outOfBounds r.endLine r.endColumn)
    | some stop => if stop < start then .error (.inverted r) else .ok ⟨start, stop, e⟩

/-- Whether `a` is applied no later than `b`: the later start first, then the later end. -/
def before (a b : Replacement) : Bool :=
  b.start < a.start || (a.start == b.start && b.stop ≤ a.stop)

/-- The first replacement, from the end of the text, that the next one reaches into. -/
def overlap? : List Replacement → Option Replacement
  | a :: b :: rest => if b.stop > a.start then some a else overlap? (b :: rest)
  | _ => none

def apply (cs : List Char) (r : Replacement) : List Char :=
  cs.take r.start ++ r.edit.text.toList ++ cs.drop r.stop

end Replacement

/-- The text after all edits, or why they cannot be applied. -/
def applyEdits (cs : List Char) (edits : List Edit) : Except EditError (List Char) := do
  let resolved ← edits.mapM (Replacement.resolve cs)
  let sorted := resolved.mergeSort Replacement.before
  match Replacement.overlap? sorted with
  | some r => .error (.overlapping r.edit.range)
  -- From the last place on, no replacement moves the places of those still to come.
  | none => .ok (sorted.foldl Replacement.apply cs)

end EvlCheck
