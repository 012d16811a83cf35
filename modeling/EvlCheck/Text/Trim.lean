/-
Blanks at the ends of a text. A text is handled as its list of characters.
-/
import EvlCheck.Text.CharClass

namespace EvlCheck.Text

def trimStart (cs : List Char) : List Char :=
  cs.dropWhile isBlank

def trimEnd (cs : List Char) : List Char :=
  (cs.reverse.dropWhile isBlank).reverse

/-- The text without blanks at either end. -/
def trim (cs : List Char) : List Char :=
  trimEnd (trimStart cs)

/-- The text without one last `c`, if it ends in `c`. -/
def dropSuffix (c : Char) (cs : List Char) : List Char :=
  if cs.getLast? = some c then cs.dropLast else cs

/-- A trimmed text is empty only for a text of blanks. -/
theorem trim_eq_nil_iff {cs : List Char} : trim cs = [] ↔ ∀ c ∈ cs, isBlank c = true := by
  have key : ∀ l : List Char, l.dropWhile isBlank = [] ↔ ∀ c ∈ l, isBlank c = true := by
    intro l
    induction l with
    | nil => simp
    | cons a l ih => by_cases h : isBlank a = true <;> simp [h, ih]
  unfold trim trimEnd trimStart
  rw [List.reverse_eq_nil_iff, key]
  constructor
  · intro h
    have hnil : (cs.dropWhile isBlank) = [] := by
      cases hd : cs.dropWhile isBlank with
      | nil => rfl
      | cons a l =>
        have ha : isBlank a = true := h a (by rw [hd]; simp)
        have := List.head_dropWhile_not (p := isBlank) (l := cs) (by simp [hd])
        simp [hd, ha] at this
    exact (key cs).1 hnil
  · intro h c hc
    rw [(key cs).2 h] at hc
    simp at hc

end EvlCheck.Text
