/-
Names of parameters shown inside calls, before each argument. A call is seen where a word is
followed by a parenthesis and something closes it; it ends at the first closing parenthesis, so a
call with a call among its arguments ends with the inner one. Comments are left out.
-/
import EvlCheck.Check.Args
import EvlCheck.Json
import EvlCheck.Text.Pattern

namespace EvlCheck

/-- A parameter with the types that it takes. -/
structure Parameter where
  name : String
  type : String
  deriving Repr, DecidableEq

namespace Parameter

/-- The parameters of the functions that hints are shown for. -/
def table : List (String × List Parameter) :=
  [ ("cast", [⟨"value", "int | float"⟩, ⟨"target", "type"⟩]),
    ("pow", [⟨"base", "float"⟩, ⟨"exp", "float"⟩]),
    ("sqrt", [⟨"value", "float"⟩]),
    ("min", [⟨"a", "int | float"⟩, ⟨"b", "int | float"⟩]),
    ("max", [⟨"a", "int | float"⟩, ⟨"b", "int | float"⟩]),
    ("round", [⟨"value", "float"⟩]),
    ("print", [⟨"...values", "any"⟩]) ]

def of? (function : String) : Option (List Parameter) := table.lookup function

def text (p : Parameter) : String := s!"{p.name}: {p.type}"

def toJson (p : Parameter) : Json := .obj [("name", .str p.name), ("ty", .str p.type)]

end Parameter

/-- A text shown at a column of a line. -/
structure InlayHint where
  line : Nat
  column : Nat
  label : String
  deriving Repr, DecidableEq

namespace InlayHint

open Text Check

/-! ## Arguments -/

/-- The arguments as they are written: the slices of the text between the commas outside of brackets.
A text of blanks has none. -/
def rawArgs (cs : List Char) : List (List Char) :=
  go cs 0 0 0 []
where
  /-- Slices the text, given its rest, the place of the rest, the depth, the place where the open slice
  begins, and the finished slices, reversed. -/
  go : List Char → Nat → Int → Nat → List (List Char) → List (List Char)
    | [], _, _, start, done =>
      let last := cs.drop start
      if done.isEmpty && last.all isBlank then [] else (last :: done).reverse
    | c :: rest, place, depth, start, done =>
      if c = ',' ∧ depth = 0 then
        go rest (place + 1) depth (place + 1) ((cs.take place).drop start :: done)
      else go rest (place + 1) (bracketDepth depth c) start done

/-- How many characters stand before argument `index`; none before an argument that has no
character of its own and no comma behind it. -/
def argOffset (cs : List Char) (index : Nat) : Nat :=
  go cs index 0 0
where
  /-- Passes over characters, given how many commas are still to come, the depth and the place. -/
  go : List Char → Nat → Int → Nat → Nat
    | [], _, _, _ => 0
    | _ :: _, 0, _, place => place
    | c :: rest, commas + 1, depth, place =>
      if c = ',' ∧ depth = 0 then go rest commas depth (place + 1)
      else go rest (commas + 1) (bracketDepth depth c) (place + 1)

/-! ## Calls -/

/-- A call as it is seen in a line: the name, what stands in the parentheses, and the text behind
the opening parenthesis. -/
structure SeenCall where
  name : List Char
  inside : List Char
  behind : List Char

/-- The call whose name is the word at the start, with the text behind the call. -/
def callAtWord? (word rest : List Char) : Option (SeenCall × List Char) := do
  let behind ← afterBlanks? '(' rest
  let inside := behind.takeWhile (· != ')')
  match behind.drop inside.length with
  | [] => none
  | _ :: after => some (⟨word, inside, behind⟩, after)

theorem length_of_callAtWord? {word rest after : List Char} {call : SeenCall}
    (h : callAtWord? word rest = some (call, after)) : after.length < rest.length := by
  unfold callAtWord? at h
  cases hb : afterBlanks? '(' rest with
  | none => simp [hb] at h
  | some behind =>
    have hlt := length_afterBlanks? hb
    simp only [hb, Option.bind_eq_bind, Option.bind_some] at h
    split at h
    · cases h
    · rename_i hd
      cases h
      have := congrArg List.length hd
      simp at this
      omega

/-- The calls of a line, none of which begins inside another. -/
def seenCalls (cs : List Char) : List SeenCall :=
  go cs []
where
  /-- Finds the calls of the rest, given those found, reversed. -/
  go (cs : List Char) (found : List SeenCall) : List SeenCall :=
    match cs with
    | [] => found.reverse
    | c :: rest =>
      if isWord c then
        match _h : callAtWord? (c :: rest.takeWhile isWord) (rest.dropWhile isWord) with
        | none => go (rest.dropWhile isWord) found
        | some (call, after) => go after (call :: found)
      else go rest found
  termination_by cs.length
  decreasing_by
    all_goals have hd : (rest.dropWhile isWord).length ≤ rest.length :=
      (List.dropWhile_sublist isWord).length_le
    · simp only [List.length_cons]; omega
    · have := length_of_callAtWord? _h
      simp only [List.length_cons]; omega
    · simp

/-! ## Hints -/

/-- The hints of a call in a text of `size` characters. An argument after the last parameter
belongs to the last one; a hint stands one column beyond the start of its argument. -/
def ofCall (number size : Nat) (call : SeenCall) : List InlayHint :=
  match Parameter.of? (String.ofList call.name) with
  | none => []
  | some params =>
    (List.range (rawArgs call.inside).length).filterMap fun i =>
      params[min i (params.length - 1)]?.map fun p =>
        ⟨number, size - call.behind.length + argOffset call.inside i + 2, p.text⟩

def ofLine (number : Nat) (line : List Char) : List InlayHint :=
  let code := beforeComment line
  (seenCalls code).flatMap (ofCall number code.length)

/-- The hints of the lines of a text; carriage returns at the end of a line do not count. -/
def ofText (cs : List Char) : List InlayHint :=
  (lines cs).zipIdx.flatMap fun (line, i) =>
    ofLine (i + 1) (line.reverse.dropWhile (· == '\r')).reverse

/-! ## Bounds -/

theorem rawArgs_nil : rawArgs [] = [] := rfl

theorem argOffset_zero (cs : List Char) : argOffset cs 0 = 0 := by
  cases cs <;> rfl

end InlayHint

end EvlCheck
