/-
Character classes. Blanks, digits and word characters are those of Unicode, since line patterns,
trimming and hovering see text of any script; letters of names are those of ASCII, since the
language spells its names in ASCII.
-/
import EvlCheck.Text.Alphabetic
import EvlCheck.Text.Mark
import EvlCheck.Text.Number

namespace EvlCheck.Text

/-- Whether some range holds the code point. -/
def inRanges (ranges : Array (Nat × Nat)) (n : Nat) : Bool :=
  ranges.any fun r => r.1 ≤ n && n ≤ r.2

/-- White space: the twenty-five code points with the property White_Space. -/
def isBlank (c : Char) : Bool :=
  let n := c.toNat
  (9 ≤ n && n ≤ 13) || n == 32 || n == 0x85 || n == 0xA0 || n == 0x1680 ||
    (0x2000 ≤ n && n ≤ 0x200A) || n == 0x2028 || n == 0x2029 || n == 0x202F || n == 0x205F ||
    n == 0x3000

def isDecimal (c : Char) : Bool :=
  if c.toNat < 128 then c.isDigit else inRanges decimalRanges c.toNat

/-- Punctuation that joins words, such as the underscore. -/
def isConnector (c : Char) : Bool :=
  let n := c.toNat
  n == 0x5F || (0x203F ≤ n && n ≤ 0x2040) || n == 0x2054 || (0xFE33 ≤ n && n ≤ 0xFE34) ||
    (0xFE4D ≤ n && n ≤ 0xFE4F) || n == 0xFF3F

/-- The two characters without width that ask for or against joining their neighbours. -/
def isJoiner (c : Char) : Bool :=
  c.toNat == 0x200C || c.toNat == 0x200D

/-- A character of a word: a letter, mark or digit of any script, a connector or a joiner. -/
def isWord (c : Char) : Bool :=
  if c.toNat < 128 then c.isAlphanum || c == '_'
  else inRanges alphabeticRanges c.toNat || inRanges markRanges c.toNat ||
    inRanges decimalRanges c.toNat || isConnector c || isJoiner c

def isAlphanumeric (c : Char) : Bool :=
  if c.toNat < 128 then c.isAlphanum
  else inRanges alphabeticRanges c.toNat || inRanges decimalRanges c.toNat ||
    inRanges letterNumberRanges c.toNat || inRanges otherNumberRanges c.toNat

/-- A character that may begin a name. -/
def isNameStart (c : Char) : Bool :=
  c.isAlpha || c == '_'

/-- A character of a name after the first. -/
def isNamePart (c : Char) : Bool :=
  c.isAlphanum || c == '_'

/-! ## How the classes lie in each other -/

theorem isNamePart_of_isNameStart {c : Char} (h : isNameStart c = true) : isNamePart c = true := by
  simp only [isNameStart, isNamePart, Bool.or_eq_true, beq_iff_eq, Char.isAlphanum] at *
  rcases h with h | h
  · exact .inl (by simp [h])
  · exact .inr h

end EvlCheck.Text
