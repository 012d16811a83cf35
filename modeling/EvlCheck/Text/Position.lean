/-
Places in a source text. A position is held three ways at once: as a byte offset of the UTF-8
encoding from 0, and as a line and a column in characters from 1. A span runs from one position to
another that is not part of it.
-/
namespace EvlCheck

/-! ## Bytes -/

namespace Text

def byteSize (cs : List Char) : Nat := cs.foldl (fun n c => n + c.utf8Size) 0

theorem foldl_utf8Size (cs : List Char) (n : Nat) :
    cs.foldl (fun n c => n + c.utf8Size) n = n + byteSize cs := by
  unfold byteSize
  induction cs generalizing n with
  | nil => rfl
  | cons c cs ih =>
    simp only [List.foldl_cons]
    rw [ih (n + c.utf8Size), ih (0 + c.utf8Size)]
    omega

@[simp] theorem byteSize_nil : byteSize [] = 0 := rfl

@[simp] theorem byteSize_cons (c : Char) (cs : List Char) :
    byteSize (c :: cs) = c.utf8Size + byteSize cs := by
  have h := foldl_utf8Size cs (0 + c.utf8Size)
  simpa [byteSize] using h

theorem byteSize_append (as bs : List Char) :
    byteSize (as ++ bs) = byteSize as + byteSize bs := by
  induction as with
  | nil => simp
  | cons c as ih => simp [ih, Nat.add_assoc]

end Text

/-! ## Positions -/

/-- A place between two characters of a text. -/
structure Position where
  offset : Nat
  line : Nat
  column : Nat
  deriving Repr, DecidableEq, Inhabited

namespace Position

def start : Position := ⟨0, 1, 1⟩

/-- The place after one more character; a line feed opens a line, all else is one column wide. -/
def advance (p : Position) (c : Char) : Position :=
  if c = '\n' then ⟨p.offset + 1, p.line + 1, 1⟩ else ⟨p.offset + c.utf8Size, p.line, p.column + 1⟩

def advanceAll (p : Position) (cs : List Char) : Position :=
  cs.foldl advance p

/-- The column counted from 0. -/
def charInLine (p : Position) : Nat := p.column - 1

def text (p : Position) : String := s!"{p.line}:{p.column}"

@[simp] theorem advanceAll_nil (p : Position) : p.advanceAll [] = p := rfl

@[simp] theorem advanceAll_cons (p : Position) (c : Char) (cs : List Char) :
    p.advanceAll (c :: cs) = (p.advance c).advanceAll cs := rfl

theorem advanceAll_append (p : Position) (as bs : List Char) :
    p.advanceAll (as ++ bs) = (p.advanceAll as).advanceAll bs := by
  simp [advanceAll]

theorem offset_advance (p : Position) (c : Char) :
    (p.advance c).offset = p.offset + c.utf8Size := by
  unfold advance
  split
  · next h => subst h; rfl
  · rfl

/-- The offset behind a text is as many bytes further as the text has. -/
theorem offset_advanceAll (p : Position) (cs : List Char) :
    (p.advanceAll cs).offset = p.offset + Text.byteSize cs := by
  induction cs generalizing p with
  | nil => simp
  | cons c cs ih => rw [advanceAll_cons, ih, offset_advance, Text.byteSize_cons, Nat.add_assoc]

end Position

/-! ## Spans -/

/-- The text between two positions; `stop` is the place after its last character. -/
structure Span where
  start : Position
  stop : Position
  deriving Repr, DecidableEq, Inhabited

/-- The characters that fill exactly `n` bytes, and those after them; nothing where `n` splits a
character or runs past the end. -/
def splitBytes? : Nat → List Char → Option (List Char × List Char)
  | 0, cs => some ([], cs)
  | _ + 1, [] => none
  | n + 1, c :: cs =>
    if c.utf8Size ≤ n + 1 then
      (splitBytes? (n + 1 - c.utf8Size) cs).map fun (taken, rest) => (c :: taken, rest)
    else none

namespace Span

def point (p : Position) : Span := ⟨p, p⟩

/-- The span of a node that no text stands for. -/
def dummy : Span := point .start

/-- The smallest span that covers both. -/
def merge (a b : Span) : Span where
  start := if a.start.offset < b.start.offset then a.start else b.start
  stop := if a.stop.offset > b.stop.offset then a.stop else b.stop

def length (s : Span) : Nat := s.stop.offset - s.start.offset

def isEmpty (s : Span) : Bool := s.start.offset == s.stop.offset

/-- The part of a text that the span covers; empty where the span does not fit the text. -/
def slice (s : Span) (cs : List Char) : List Char :=
  if s.stop.offset < s.start.offset then []
  else
    match splitBytes? s.start.offset cs with
    | none => []
    | some (_, rest) =>
      match splitBytes? s.length rest with
      | none => []
      | some (taken, _) => taken

/-- Both ends, the second without its line where the line is the same. -/
def text (s : Span) : String :=
  if s.start.line = s.stop.line then s!"{s.start.line}:{s.start.column}-{s.stop.column}"
  else s!"{s.start.text}-{s.stop.text}"

end Span

/-- A value and the text it was read from. -/
structure Spanned (α : Type) where
  value : α
  span : Span
  deriving Repr, DecidableEq

end EvlCheck
