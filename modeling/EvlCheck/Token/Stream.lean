/-
A cursor over the tokens that the parser sees. The stream holds every token, so that the index of a
token is the same here as in the source's token list, and moves only over the significant ones. The
last token is the end of the source, and a stream that has reached it stays there.
-/
import EvlCheck.Log.Event
import EvlCheck.Token.Basic

namespace EvlCheck

/-- A significant token and its index among all tokens. -/
structure StreamToken where
  index : Nat
  value : Token
  span : Span
  deriving Repr, DecidableEq

/-- All tokens, the significant ones among them, and the place of the cursor. -/
structure TokenStream where
  all : Array SpannedToken
  significant : Array StreamToken
  position : Nat
  position_lt : position < significant.size

/-- Why a stream does not go on past an expected token. -/
inductive StreamError where
  | unexpectedToken (expected found : String) (span : Span)
  | endOfStream (expected : String) (span : Span)
  deriving Repr, DecidableEq

namespace StreamError

def name : StreamError → String
  | .unexpectedToken .. => "UnexpectedToken"
  | .endOfStream .. => "UnexpectedEndOfStream"

def message : StreamError → String
  | .unexpectedToken expected found _ => s!"mismatched input '{found}' expecting {expected}"
  | .endOfStream expected _ => s!"missing {expected} at '<EOF>'"

def code : StreamError → Code
  | .unexpectedToken .. => .unexpectedToken
  | .endOfStream .. => .unexpectedEndOfInput

/-- Where the token was expected. -/
def span : StreamError → Span
  | .unexpectedToken _ _ s | .endOfStream _ s => s

end StreamError

namespace TokenStream

/-! ## Building a stream -/

/-- The significant tokens among some, each with its index. -/
def significantTokens (tokens : Array SpannedToken) : Array StreamToken :=
  tokens.zipIdx.filterMap fun (t, i) =>
    if t.value.isSignificant then some ⟨i, t.value, t.span⟩ else none

/-- The stream of the tokens `front` and an end of the source at `place`, at its first token. -/
def ofFront (front : Array SpannedToken) (place : Span) : TokenStream where
  all := front.push ⟨.eof, place⟩
  significant := (significantTokens front).push ⟨front.size, .eof, place⟩
  position := 0
  position_lt := by simp

/-- The stream of some tokens; an end of the source is added where it is missing. -/
def ofTokens (tokens : Array SpannedToken) : TokenStream :=
  match tokens.back? with
  | none => ofFront #[] (.point .start)
  | some ⟨.eof, place⟩ => ofFront tokens.pop place
  | some last => ofFront tokens (.point last.span.stop)

def builtEvent [Build] (s : TokenStream) : Event :=
  ((Event.debug "Token stream built").add "total_tokens" s.all.size).add "significant_tokens"
    s.significant.size

/-! ## Looking -/

def size (s : TokenStream) : Nat := s.significant.size

theorem size_pos (s : TokenStream) : 0 < s.size := Nat.zero_lt_of_lt s.position_lt

/-- The significant token at a place, or the last one beyond it. -/
def clamped (s : TokenStream) (position : Nat) : StreamToken :=
  have h : min position (s.size - 1) < s.significant.size := by
    have := s.size_pos
    unfold size at *
    omega
  s.significant[min position (s.size - 1)]

def current (s : TokenStream) : StreamToken :=
  have := s.position_lt
  s.significant[s.position]

/-- The token that is `n` significant tokens ahead, or the last one. -/
def peek (s : TokenStream) (n : Nat) : StreamToken := s.clamped (s.position + n)

def atEnd (s : TokenStream) : Bool := s.current.value.isEof

/-- No significant token stands before the end. -/
def isEmpty (s : TokenStream) : Bool := s.size ≤ 1

/-- The significant tokens from the cursor on. -/
def remaining (s : TokenStream) : Nat := s.size - s.position

def spanAt? (s : TokenStream) (position : Nat) : Option Span :=
  s.significant[position]?.map (·.span)

/-- The span from the significant token at `first` to the last token before the cursor; a point
where no token lies between. -/
def spanFrom (s : TokenStream) (first : Nat) : Span :=
  match s.spanAt? first with
  | none => .point s.current.span.start
  | some start =>
    if first < s.position then
      match s.spanAt? (s.position - 1) with
      | some last => start.merge last
      | none => .point start.start
    else .point start.start

/-- The line of any token, by its index. -/
def lineAt? (s : TokenStream) (index : Nat) : Option Nat :=
  s.all[index]?.map (·.span.start.line)

/-- The column from 0 of any token, by its index. -/
def columnAt? (s : TokenStream) (index : Nat) : Option Nat :=
  s.all[index]?.map (·.span.start.charInLine)

/-- The token under the cursor is of the expected kind. -/
def check (s : TokenStream) (expected : Token) : Bool := s.current.value.sameKind expected

/-- Where the cursor stands, in words. -/
def describe (s : TokenStream) : String :=
  s!"TokenStream(pos: {s.position}/{s.size}, current: '{s.current.value.text}' at " ++
    s.current.span.text ++ ")"

/-! ## Moving -/

def advance (s : TokenStream) : TokenStream :=
  if s.atEnd then s
  else if h : s.position + 1 < s.significant.size then
    { s with position := s.position + 1, position_lt := h }
  else s

/-- Moves on if the token under the cursor is of the expected kind, and says whether it is. -/
def advanceIf (s : TokenStream) (expected : Token) : Bool × TokenStream :=
  if s.check expected then (true, s.advance) else (false, s)

/-- The stream behind the token under the cursor, if that is of the expected kind. -/
def expect (s : TokenStream) (expected : Token) : Except StreamError (StreamToken × TokenStream) :=
  let current := s.current
  if current.value.sameKind expected then .ok (current, s.advance)
  else if current.value.isEof then .error (.endOfStream expected.expectation current.span)
  else .error (.unexpectedToken expected.expectation current.value.text current.span)

/-- The stream at a place, or at its last token beyond it. -/
def restore (s : TokenStream) (position : Nat) : TokenStream where
  all := s.all
  significant := s.significant
  position := min position (s.size - 1)
  position_lt := by
    have := s.size_pos
    unfold size at *
    omega

/-! ## How moves change the place -/

theorem position_le_advance (s : TokenStream) : s.position ≤ s.advance.position := by
  unfold advance; split
  · exact Nat.le_refl _
  · split <;> simp

theorem position_advance_le (s : TokenStream) : s.advance.position ≤ s.position + 1 := by
  unfold advance; split
  · omega
  · split <;> simp

theorem advance_of_atEnd {s : TokenStream} (h : s.atEnd = true) : s.advance = s := by
  simp [advance, h]

end TokenStream

end EvlCheck
