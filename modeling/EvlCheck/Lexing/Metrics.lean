/-
Figures about the tokens of one source.
-/
import EvlCheck.Settings.Preferences
import EvlCheck.Lexing.Scan

namespace EvlCheck

/-- Counts of tokens by class, the longest string and comment, and counts by terminal. -/
structure LexMetrics where
  total : Nat := 0
  keywords : Nat := 0
  identifiers : Nat := 0
  literals : Nat := 0
  operators : Nat := 0
  invalid : Nat := 0
  comments : Nat := 0
  longestString : Nat := 0
  longestComment : Nat := 0
  terminals : List (String × Nat) := []
  deriving Repr, DecidableEq

namespace LexMetrics

/-- Counts one more of a terminal. -/
def bump (terminal : String) : List (String × Nat) → List (String × Nat)
  | [] => [(terminal, 1)]
  | (t, n) :: rest => if t = terminal then (t, n + 1) :: rest else (t, n) :: bump terminal rest

/-- Whether a token counts as one: blanks and the end do not, and comments only where wanted. -/
def counts (p : LexicalPreferences) : Token → Bool
  | .whitespace _ | .eof => false
  | .lineComment _ | .blockComment _ => p.countComments
  | _ => true

/-- Enters a token into the figures of its own class. -/
def recordClass (m : LexMetrics) : Token → LexMetrics
  | .whitespace _ | .eof => m
  | .lineComment t | .blockComment t =>
    { m with comments := m.comments + 1, longestComment := max m.longestComment t.length }
  | .keyword _ => { m with keywords := m.keywords + 1 }
  | .identifier _ => { m with identifiers := m.identifiers + 1 }
  | .integer _ | .real _ => { m with literals := m.literals + 1 }
  | .string t =>
    { m with literals := m.literals + 1, longestString := max m.longestString t.utf8ByteSize }
  | .error _ => { m with invalid := m.invalid + 1 }
  | .symbol _ => { m with operators := m.operators + 1 }

/-- Enters a token into all figures. -/
def record (p : LexicalPreferences) (m : LexMetrics) (t : Token) : LexMetrics :=
  let m := m.recordClass t
  if counts p t then
    { m with
      total := m.total + 1
      terminals := if p.detailedMetrics then bump t.terminal m.terminals else m.terminals }
  else m

/-- The figures about some tokens. -/
def ofTokens (p : LexicalPreferences) (tokens : Array SpannedToken) : LexMetrics :=
  tokens.foldl (fun m t => m.record p t.value) {}

/-- The figures as the fields of an object. -/
def fields (m : LexMetrics) : List (String × Json) :=
  [ ("total_tokens", .num m.total),
    ("keyword_tokens", .num m.keywords),
    ("identifier_tokens", .num m.identifiers),
    ("literal_tokens", .num m.literals),
    ("operator_tokens", .num m.operators),
    ("invalid_chars", .num m.invalid),
    ("comment_count", .num m.comments),
    ("max_string_length", .num m.longestString),
    ("max_comment_length", .num m.longestComment),
    ("terminal_counts", .obj (m.terminals.map fun (terminal, n) => (terminal, .num n))) ]

end LexMetrics

end EvlCheck
