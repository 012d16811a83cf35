/-
Reading one lexeme from the head of a text. Every lexeme takes at least one character, and the
characters taken followed by the rest are the text.
-/
import EvlCheck.Lexing.Fault
import EvlCheck.Text.CharClass
import EvlCheck.Token.Basic

namespace EvlCheck.Lexing

open EvlCheck.Text

/-- A lexeme at the head of a text: the characters taken, those that follow, and the token or the
fault that the characters make. -/
structure Lexeme where
  taken : List Char
  rest : List Char
  outcome : Except LexFault Token

/-! ## Characters -/

/-- The blanks of the language. -/
def isGap (c : Char) : Bool := c == ' ' || c == '\t' || c == '\r' || c == '\n'

def isLineEnd (c : Char) : Bool := c == '\r' || c == '\n'

/-! ## The kinds of lexeme -/

/-- The longest head of a text that holds only characters of a class, as a lexeme. -/
def scanWhile (p : Char → Bool) (cs : List Char) (make : List Char → Except LexFault Token) :
    Lexeme :=
  let taken := cs.takeWhile p
  ⟨taken, cs.dropWhile p, make taken⟩

/-- A comment of a permitted length. -/
def commentOutcome [Build] (make : String → Token) (taken : List Char) : Except LexFault Token :=
  let length := taken.length
  if length > Limit.commentChars then .error (.commentTooLong length)
  else .ok (make (String.ofList taken))

def scanLineComment [Build] (cs : List Char) : Lexeme :=
  scanWhile (fun c => !isLineEnd c) cs (commentOutcome .lineComment)

/-- Splits a text behind its first star that a slash follows; `taken` is reversed. -/
def closeComment (taken : List Char) : List Char → List Char × Option (List Char)
  | [] => (taken.reverse, none)
  | '*' :: '/' :: rest => (('/' :: '*' :: taken).reverse, some rest)
  | c :: rest => closeComment (c :: taken) rest

/-- A comment between delimiters, the first of which is already read. -/
def scanBlockComment [Build] (body : List Char) : Lexeme :=
  match closeComment ['*', '/'] body with
  | (taken, some rest) => ⟨taken, rest, commentOutcome .blockComment taken⟩
  | (taken, none) => ⟨taken, [], .error .unterminatedComment⟩

/-- A number: digits, or digits on both sides of a point. -/
def scanNumber (cs : List Char) : Lexeme :=
  let whole := cs.takeWhile Char.isDigit
  match cs.dropWhile Char.isDigit with
  | '.' :: d :: rest =>
    if d.isDigit then
      let taken := whole ++ '.' :: (d :: rest).takeWhile Char.isDigit
      ⟨taken, (d :: rest).dropWhile Char.isDigit, .ok (.real (String.ofList taken))⟩
    else ⟨whole, '.' :: d :: rest, .ok (.integer (String.ofList whole))⟩
  | rest => ⟨whole, rest, .ok (.integer (String.ofList whole))⟩

/-- Splits a text behind the quote that closes a string, or before the end of the line where none
does; a backslash takes the next character of the line with it. `taken` is reversed. -/
def closeString (taken : List Char) : List Char → List Char × List Char × Bool
  | [] => (taken.reverse, [], false)
  | '"' :: rest => (('"' :: taken).reverse, rest, true)
  | '\\' :: [] => (('\\' :: taken).reverse, [], false)
  | '\\' :: c :: rest =>
    if isLineEnd c then (('\\' :: taken).reverse, c :: rest, false)
    else closeString (c :: '\\' :: taken) rest
  | c :: rest =>
    if isLineEnd c then (taken.reverse, c :: rest, false) else closeString (c :: taken) rest

/-- A string, the first quote of which is already read. -/
def scanString [Build] (body : List Char) : Lexeme :=
  match closeString ['"'] body with
  | (taken, rest, true) =>
    let size := byteSize taken
    ⟨taken, rest, if size > Limit.stringBytes then .error (.stringTooLarge size)
      else .ok (.string (String.ofList taken))⟩
  | (taken, rest, false) => ⟨taken, rest, .error .unterminatedString⟩

/-- A reserved word or a name of a permitted length. -/
def wordOutcome [Build] (taken : List Char) : Except LexFault Token :=
  let length := taken.length
  if length > Limit.identifierChars then .error (.identifierTooLong length)
  else .ok (.ofWord (String.ofList taken))

/-- A symbol of one character, or a fault. -/
def scanSingle (c : Char) (rest : List Char) : Lexeme :=
  match OpSymbol.ofChars? [c] with
  | some s => ⟨[c], rest, .ok (.symbol s)⟩
  | none => ⟨[c], rest, .error (.invalidCharacter c)⟩

/-- A symbol of two characters, or else of one. -/
def scanSymbol (c : Char) (rest : List Char) : Lexeme :=
  match rest with
  | d :: rest' =>
    match OpSymbol.ofChars? [c, d] with
    | some s => ⟨[c, d], rest', .ok (.symbol s)⟩
    | none => scanSingle c rest
  | [] => scanSingle c rest

/-- The lexeme at the head of the text `c :: rest`. -/
def scan [Build] (c : Char) (rest : List Char) : Lexeme :=
  if isGap c then
    scanWhile isGap (c :: rest) fun taken => .ok (.whitespace (String.ofList taken))
  else if c = '/' ∧ rest.head? = some '/' then scanLineComment (c :: rest)
  else if c = '/' ∧ rest.head? = some '*' then scanBlockComment rest.tail
  else if c.isDigit then scanNumber (c :: rest)
  else if c = '"' then scanString rest
  else if isNameStart c then scanWhile isNamePart (c :: rest) wordOutcome
  else scanSymbol c rest

/-! ## A lexeme is a piece of the text -/

theorem scanWhile_append (p : Char → Bool) (cs : List Char)
    (make : List Char → Except LexFault Token) :
    (scanWhile p cs make).taken ++ (scanWhile p cs make).rest = cs :=
  List.takeWhile_append_dropWhile

theorem closeComment_some {taken cs piece rest : List Char}
    (h : closeComment taken cs = (piece, some rest)) : piece ++ rest = taken.reverse ++ cs := by
  fun_induction closeComment taken cs with
  | case1 => simp at h
  | case2 taken r => obtain ⟨rfl, h⟩ := Prod.mk.inj h; cases h; simp
  | case3 taken c r _ ih => simpa using ih h

theorem closeComment_none {taken cs piece : List Char}
    (h : closeComment taken cs = (piece, none)) : piece = taken.reverse ++ cs := by
  fun_induction closeComment taken cs with
  | case1 => simp at h; simp [h]
  | case2 taken r => simp at h
  | case3 taken c r _ ih => simpa using ih h

theorem closeString_append {taken cs piece rest : List Char} {closed : Bool}
    (h : closeString taken cs = (piece, rest, closed)) :
    piece ++ rest = taken.reverse ++ cs := by
  fun_induction closeString taken cs with
  | case1 | case2 | case3 | case4 | case6 => obtain ⟨rfl, h⟩ := Prod.mk.inj h; cases h; simp
  | case5 _ _ _ _ ih => simpa using ih h
  | case7 _ _ _ _ _ _ _ ih => simpa using ih h

theorem scanBlockComment_append [Build] (body : List Char) :
    (scanBlockComment body).taken ++ (scanBlockComment body).rest = '/' :: '*' :: body := by
  unfold scanBlockComment
  split
  · next h => simpa using closeComment_some h
  · next h => simpa using closeComment_none h

theorem scanNumber_append (cs : List Char) :
    (scanNumber cs).taken ++ (scanNumber cs).rest = cs := by
  have h := List.takeWhile_append_dropWhile (p := Char.isDigit) (l := cs)
  unfold scanNumber
  split
  · next d rest hd =>
    rw [hd] at h
    split
    · have h2 := List.takeWhile_append_dropWhile (p := Char.isDigit) (l := d :: rest)
      simp only [List.append_assoc, List.cons_append, h2]
      exact h
    · exact h
  · exact h

theorem scanString_append [Build] (body : List Char) :
    (scanString body).taken ++ (scanString body).rest = '"' :: body := by
  unfold scanString
  split
  · next h => simpa using closeString_append h
  · next h => simpa using closeString_append h

theorem scanSingle_append (c : Char) (rest : List Char) :
    (scanSingle c rest).taken ++ (scanSingle c rest).rest = c :: rest := by
  unfold scanSingle; split <;> rfl

theorem scanSymbol_append (c : Char) (rest : List Char) :
    (scanSymbol c rest).taken ++ (scanSymbol c rest).rest = c :: rest := by
  unfold scanSymbol
  split
  · split
    · rfl
    · exact scanSingle_append c _
  · exact scanSingle_append c _

/-- Scanning splits the text. -/
theorem scan_append [Build] (c : Char) (rest : List Char) :
    (scan c rest).taken ++ (scan c rest).rest = c :: rest := by
  unfold scan
  split
  · exact scanWhile_append _ _ _
  split
  · exact scanWhile_append _ _ _
  split
  · next h =>
    rw [scanBlockComment_append, h.1]
    obtain ⟨_, h⟩ := h
    cases rest with
    | nil => simp at h
    | cons d r => simp at h; simp [h]
  split
  · exact scanNumber_append _
  split
  · next h => rw [scanString_append, h]
  split
  · exact scanWhile_append _ _ _
  · exact scanSymbol_append c rest

theorem scanWhile_taken_ne_nil {p : Char → Bool} {c : Char} {rest : List Char}
    {make : List Char → Except LexFault Token} (h : p c = true) :
    (scanWhile p (c :: rest) make).taken ≠ [] := by
  simp [scanWhile, h]

theorem closeComment_taken_ne_nil (taken cs : List Char) (h : taken ≠ []) :
    (closeComment taken cs).1 ≠ [] := by
  fun_induction closeComment taken cs with
  | case1 => simpa using h
  | case2 => simp
  | case3 taken c r _ ih => exact ih (by simp)

theorem closeString_taken_ne_nil (taken cs : List Char) (h : taken ≠ []) :
    (closeString taken cs).1 ≠ [] := by
  fun_induction closeString taken cs with
  | case1 | case6 => simpa using h
  | case2 | case3 | case4 => simp
  | case5 _ _ _ _ ih => exact ih (by simp)
  | case7 _ _ _ _ _ _ _ ih => exact ih (by simp)

/-- Scanning takes a character. -/
theorem scan_taken_ne_nil [Build] (c : Char) (rest : List Char) : (scan c rest).taken ≠ [] := by
  unfold scan
  split
  · next h => exact scanWhile_taken_ne_nil h
  split
  · next h => exact scanWhile_taken_ne_nil (by simp [h.1, isLineEnd])
  split
  · unfold scanBlockComment
    have := closeComment_taken_ne_nil ['*', '/'] rest.tail (by simp)
    split <;> simp_all
  split
  · next h =>
    unfold scanNumber
    split
    · split <;> simp [h]
    · simp [h]
  split
  · unfold scanString
    have := closeString_taken_ne_nil ['"'] rest (by simp)
    split <;> simp_all
  split
  · next h => exact scanWhile_taken_ne_nil (isNamePart_of_isNameStart h)
  · unfold scanSymbol
    split
    · split
      · simp
      · unfold scanSingle; split <;> simp
    · unfold scanSingle; split <;> simp

/-- What follows a lexeme is shorter than the text. -/
theorem length_scan_rest_lt [Build] (c : Char) (rest : List Char) :
    (scan c rest).rest.length < (c :: rest).length := by
  have h := congrArg List.length (scan_append c rest)
  have h2 : 0 < (scan c rest).taken.length := List.length_pos_iff.2 (scan_taken_ne_nil c rest)
  rw [List.length_append] at h
  omega

end EvlCheck.Lexing
