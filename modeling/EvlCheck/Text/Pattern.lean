/-
Steps of matching a text from its start. A step yields the text behind what it took, or nothing
where the text does not begin as asked. Words are longest runs of word characters.
-/
import EvlCheck.Text.Lines

namespace EvlCheck.Text

/-! ## Taking from the start -/

/-- The text behind `taken`, where it begins so. -/
def after? (taken : String) (cs : List Char) : Option (List Char) :=
  taken.toList.isPrefixOf? cs

/-- The text behind one `c`, with any number of blanks before it. -/
def afterBlanks? (c : Char) (cs : List Char) : Option (List Char) :=
  match trimStart cs with
  | [] => none
  | d :: rest => if d = c then some rest else none

/-- The text behind one blank or more. -/
def skipBlanks? : List Char → Option (List Char)
  | [] => none
  | c :: rest => if isBlank c then some (trimStart rest) else none

/-- The word at the start, and the text behind it. -/
def word? (cs : List Char) : Option (List Char × List Char) :=
  match cs.takeWhile isWord with
  | [] => none
  | w => some (w, cs.dropWhile isWord)

/-- The name at the start, which is a word that begins as names do, and the text behind it. -/
def name? : List Char → Option (List Char × List Char)
  | [] => none
  | c :: rest =>
    if isNameStart c then some (c :: rest.takeWhile isWord, rest.dropWhile isWord) else none

/-- The name at the start and the text behind the parenthesis that follows it, where one does. -/
def callHead? (cs : List Char) : Option (List Char × List Char) := do
  let (name, rest) ← name? cs
  return (name, ← afterBlanks? '(' rest)

/-! ## Values -/

/-- What stands up to the end of the line, blanks before it left out. A text of blanks stands for
its last character, so that only the empty text has no value; a line feed inside leaves none. -/
def value? (cs : List Char) : Option (List Char) :=
  match trimStart cs with
  | [] =>
    match cs.getLast? with
    | none => none
    | some c => if c = '\n' then none else some [c]
  | v => if v.contains '\n' then none else some v

/-- The text before the first equals sign that has a value, and the value. -/
def splitAssigned? (cs : List Char) : Option (List Char × List Char) :=
  go cs []
where
  /-- Looks for the equals sign, given the text before, reversed. -/
  go : List Char → List Char → Option (List Char × List Char)
    | [], _ => none
    | c :: rest, seen =>
      match if c = '=' then value? rest else none with
      | some v => some (seen.reverse, v)
      | none => go rest (c :: seen)

/-- The value behind the first equals sign that has one. -/
def assignedValue? (cs : List Char) : Option (List Char) := (splitAssigned? cs).map (·.2)

/-! ## Searching -/

/-- What a step finds at the first place where it finds something. -/
def findFirst? {α : Type} (step : List Char → Option α) : List Char → Option α
  | [] => step []
  | c :: rest =>
    match step (c :: rest) with
    | some a => some a
    | none => findFirst? step rest

/-- What a step finds at the last place where it finds something. -/
def findLast? {α : Type} (step : List Char → Option α) (cs : List Char) : Option α :=
  go cs none
where
  /-- Goes on with what was found so far. -/
  go : List Char → Option α → Option α
    | [], found => (step []).or found
    | c :: rest, found => go rest ((step (c :: rest)).or found)

/-- Whether a text has `part` in it. -/
def hasPart (part : String) (cs : List Char) : Bool :=
  (findFirst? (after? part) cs).isSome

/-- The text with its first match replaced; a step yields what stands for the match and the text
behind it. A text without a match stays. -/
def replaceFirst (step : List Char → Option (List Char × List Char)) (cs : List Char) : List Char :=
  go cs []
where
  /-- Looks for the match, given the text before, reversed. -/
  go : List Char → List Char → List Char
    | [], seen =>
      match step [] with
      | some (new, behind) => seen.reverse ++ new ++ behind
      | none => seen.reverse
    | c :: rest, seen =>
      match step (c :: rest) with
      | some (new, behind) => seen.reverse ++ new ++ behind
      | none => go rest (c :: seen)

/-- The text before the first two slashes. -/
def beforeComment (cs : List Char) : List Char :=
  go cs []
where
  /-- Looks for the slashes, given the text before, reversed. -/
  go : List Char → List Char → List Char
    | [], seen => seen.reverse
    | c :: rest, seen =>
      if c = '/' ∧ rest.head? = some '/' then seen.reverse else go rest (c :: seen)

/-! ## Words of a text -/

/-- The words of a text in order, each with the text behind it. -/
def words (cs : List Char) : List (List Char × List Char) :=
  go cs false []
where
  /-- Finds the words of the rest; `inside` says that a word runs up to here. -/
  go : List Char → Bool → List (List Char × List Char) → List (List Char × List Char)
    | [], _, found => found.reverse
    | c :: rest, inside, found =>
      if isWord c then
        if inside then go rest true found
        else go rest true ((c :: rest.takeWhile isWord, rest.dropWhile isWord) :: found)
      else go rest false found

/-- The text without its quoted parts; a quote that nothing closes stays. -/
def unquoted (cs : List Char) : List Char :=
  (go (splitOn '"' cs) []).flatten
where
  /-- Of the pieces between quotes every second one is quoted, unless it is the last. -/
  go : List (List Char) → List (List Char) → List (List Char)
    | [], out => out.reverse
    | [p], out => (p :: out).reverse
    | [p, q], out => (('"' :: q) :: p :: out).reverse
    | p :: _ :: rest, out => go rest (p :: out)

/-! ## What the steps leave -/

theorem length_trimStart_le (cs : List Char) : (trimStart cs).length ≤ cs.length :=
  (List.dropWhile_sublist _).length_le

theorem length_afterBlanks? {c : Char} {cs rest : List Char} (h : afterBlanks? c cs = some rest) :
    rest.length < cs.length := by
  unfold afterBlanks? at h
  split at h
  · cases h
  · next d r hr =>
    have := length_trimStart_le cs
    rw [hr] at this
    split at h <;> cases h
    simp at this
    omega

/-- A word and the text behind it make up the text. -/
theorem append_of_word? {cs w rest : List Char} (h : word? cs = some (w, rest)) :
    w ++ rest = cs := by
  unfold word? at h
  split at h
  · cases h
  · cases h; exact List.takeWhile_append_dropWhile

/-- A name and the text behind it make up the text. -/
theorem append_of_name? {cs n rest : List Char} (h : name? cs = some (n, rest)) :
    n ++ rest = cs := by
  cases cs with
  | nil => cases h
  | cons c cs =>
    simp only [name?] at h
    split at h
    · cases h; simp [List.takeWhile_append_dropWhile]
    · cases h

end EvlCheck.Text
