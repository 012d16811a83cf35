/-
Which lines a `try` protects. Braces are counted line by line; the block that a `try` opens ends
where the depth is back to what it was before the `try`.
-/
import EvlCheck.Text.Pattern

namespace EvlCheck

/-- The depth of braces, and the depth at which the protecting `try` was met. -/
structure TryTracker where
  depth : Int := 0
  /-- The depth before the `try` whose block is open. -/
  opened : Option Int := none
  deriving Repr, DecidableEq

namespace TryTracker

open Text

/-! ## Lines of braces -/

/-- How many more braces a line opens than it closes. -/
def braceBalance (cs : List Char) : Int :=
  (cs.count '\x7b' : Int) - cs.count '\x7d'

def opensTry (cs : List Char) : Bool :=
  ((after? "try" cs).bind (afterBlanks? '\x7b')).isSome

/-- Whether a line closes a block and opens a `catch` with its binding. -/
def closesThenCatches (cs : List Char) : Bool :=
  (do
    let rest ← after? "catch" (trimStart (← after? "\x7d" cs))
    let (_, rest) ← word? (trimStart (← afterBlanks? '(' rest))
    afterBlanks? '\x7b' (← afterBlanks? ')' rest)).isSome

/-- Whether a line begins with a `catch`. -/
def catches (cs : List Char) : Bool :=
  ((after? "catch" cs).bind (afterBlanks? '(')).isSome

/-! ## Steps -/

/-- Whether the current line is protected. -/
def protects (t : TryTracker) : Bool := t.opened.isSome

/-- The tracker after a line, and whether the line is nothing but structure. A line with a `catch`
never ends the protection. -/
def observe (t : TryTracker) (cs : List Char) : TryTracker × Bool :=
  let depth := t.depth + braceBalance cs
  -- A `try` inside another takes its place; nothing leads back to the outer one.
  if opensTry cs then (⟨depth, some t.depth⟩, true)
  else if closesThenCatches cs || catches cs then ({ t with depth := depth }, true)
  else
    let opened := t.opened.filter fun start => start < depth
    (⟨depth, opened⟩, cs = ['\x7b'] ∨ cs = ['\x7d'])

end TryTracker

end EvlCheck
