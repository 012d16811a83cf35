/-
Values of JSON with the fields of an object in the order given, and their two written forms: all on
one line, or one item to a line and two blanks for each level.
-/
namespace EvlCheck

/-- A JSON value; its numbers are natural, since no other numbers are written. -/
inductive Json where
  | null
  | bool (b : Bool)
  | num (n : Nat)
  | str (s : String)
  | arr (items : List Json)
  | obj (fields : List (String × Json))
  deriving Inhabited

namespace Json

/-! ## Strings -/

/-- A hexadecimal digit in lower case. -/
def hexDigit (n : Nat) : Char :=
  if n < 10 then Char.ofNat (48 + n) else Char.ofNat (87 + n)

/-- A character inside a written string: quotes, backslashes and control characters are escaped,
by a letter where there is one. -/
def escapeChar (c : Char) : String :=
  if c = '"' then "\\\""
  else if c = '\\' then "\\\\"
  else if c = '\n' then "\\n"
  else if c = '\r' then "\\r"
  else if c = '\t' then "\\t"
  else if c.toNat = 8 then "\\b"
  else if c.toNat = 12 then "\\f"
  else if c.toNat < 32 then
    "\\u00" ++ String.ofList [hexDigit (c.toNat / 16), hexDigit (c.toNat % 16)]
  else c.toString

def writeString (out s : String) : String :=
  (s.toList.foldl (fun o c => o ++ escapeChar c) (out ++ "\"")) ++ "\""

/-! ## One line -/

mutual

/-- Appends a value in the form without blanks. -/
def writeCompact (out : String) : Json → String
  | .null => out ++ "null"
  | .bool b => out ++ (if b then "true" else "false")
  | .num n => out ++ toString n
  | .str s => writeString out s
  | .arr items => writeItems (out ++ "[") true items ++ "]"
  | .obj fields => writeFields (out ++ "\x7b") true fields ++ "\x7d"

/-- Appends items with commas between; `first` says that none stands before. -/
def writeItems (out : String) (first : Bool) : List Json → String
  | [] => out
  | v :: rest => writeItems (writeCompact (if first then out else out ++ ",") v) false rest

/-- Appends fields with commas between; `first` says that none stands before. -/
def writeFields (out : String) (first : Bool) : List (String × Json) → String
  | [] => out
  | (k, v) :: rest =>
    let key := writeString (if first then out else out ++ ",") k ++ ":"
    writeFields (writeCompact key v) false rest

end

/-- The form without blanks or line breaks. -/
def compact (v : Json) : String := writeCompact "" v

/-! ## One item to a line -/

/-- Appends a line break and the indentation of a level. -/
def breakLine (out : String) (level : Nat) : String :=
  (List.replicate level "  ").foldl (· ++ ·) (out ++ "\n")

mutual

/-- Appends a value whose own line is indented by `level`. -/
def writePretty (out : String) (level : Nat) : Json → String
  | .null => out ++ "null"
  | .bool b => out ++ (if b then "true" else "false")
  | .num n => out ++ toString n
  | .str s => writeString out s
  | .arr [] => out ++ "[]"
  | .arr (v :: rest) =>
    breakLine (writePrettyItems (writePretty (breakLine (out ++ "[") (level + 1)) (level + 1) v)
      level rest) level ++ "]"
  | .obj [] => out ++ "\x7b\x7d"
  | .obj ((k, v) :: rest) =>
    breakLine (writePrettyFields
      (writePretty (writeString (breakLine (out ++ "\x7b") (level + 1)) k ++ ": ") (level + 1) v)
      level rest) level ++ "\x7d"

/-- Appends the items after the first. -/
def writePrettyItems (out : String) (level : Nat) : List Json → String
  | [] => out
  | v :: rest =>
    writePrettyItems (writePretty (breakLine (out ++ ",") (level + 1)) (level + 1) v) level rest

/-- Appends the fields after the first. -/
def writePrettyFields (out : String) (level : Nat) : List (String × Json) → String
  | [] => out
  | (k, v) :: rest =>
    writePrettyFields
      (writePretty (writeString (breakLine (out ++ ",") (level + 1)) k ++ ": ") (level + 1) v)
      level rest

end

/-- The form with one item to a line. -/
def pretty (v : Json) : String := writePretty "" 0 v

/-! ## Building values -/

/-- The value, or null where there is none. -/
def ofOption {α : Type} (f : α → Json) : Option α → Json
  | none => .null
  | some a => f a

/-- A field that is left out where there is no value. -/
def optionalField {α : Type} (key : String) (f : α → Json) : Option α → List (String × Json)
  | none => []
  | some a => [(key, f a)]

end Json

end EvlCheck
