/-
Lines of a text. Lines are separated by line feeds, so a text has one line more than it has line
feeds; a carriage return before the line feed belongs to the terminator, not to the line.
-/
import EvlCheck.Text.Trim

namespace EvlCheck.Text

/-- The pieces of a text between occurrences of `sep`; a text without `sep` is one piece. -/
def splitOn (sep : Char) (cs : List Char) : List (List Char) :=
  go cs [] []
where
  /-- Splits the rest of the text, given the current piece and the finished ones, both reversed. -/
  go : List Char → List Char → List (List Char) → List (List Char)
    | [], piece, done => (piece.reverse :: done).reverse
    | c :: rest, piece, done =>
      if c = sep then go rest [] (piece.reverse :: done) else go rest (c :: piece) done

/-- The lines of a text, each with its carriage return if it has one. -/
def lines (cs : List Char) : List (List Char) :=
  splitOn '\n' cs

/-- Of the lines of a text, line `n`, counted from 1, without its terminator. -/
def lineIn? (ls : Array (List Char)) (n : Nat) : Option (List Char) :=
  if n = 0 then none else ls[n - 1]?.map (dropSuffix '\r')

/-- Line `n` of a text, counted from 1, without its terminator. -/
def line? (cs : List Char) (n : Nat) : Option (List Char) :=
  lineIn? (lines cs).toArray n

/-! ## Splitting and joining -/

theorem splitOn_go_eq (sep : Char) (cs piece : List Char) (done : List (List Char)) :
    splitOn.go sep cs piece done = done.reverse ++ splitOn.go sep cs piece [] := by
  induction cs generalizing piece done with
  | nil => simp [splitOn.go]
  | cons c rest ih =>
    unfold splitOn.go
    split
    · rw [ih [] (piece.reverse :: done), ih [] [piece.reverse]]; simp
    · exact ih _ _

theorem splitOn_go_ne_nil (sep : Char) (cs piece : List Char) (done : List (List Char)) :
    splitOn.go sep cs piece done ≠ [] := by
  induction cs generalizing piece done with
  | nil => simp [splitOn.go]
  | cons c rest ih => unfold splitOn.go; split <;> exact ih _ _

theorem lines_ne_nil (cs : List Char) : lines cs ≠ [] :=
  splitOn_go_ne_nil _ _ _ _

theorem splitOn_go_append (sep : Char) {cs : List Char} (h : sep ∉ cs) (piece rest : List Char)
    (done : List (List Char)) :
    splitOn.go sep (cs ++ rest) piece done = splitOn.go sep rest (cs.reverse ++ piece) done := by
  induction cs generalizing piece with
  | nil => rfl
  | cons c cs ih =>
    rw [List.mem_cons, not_or] at h
    rw [List.cons_append, splitOn.go, if_neg (Ne.symm h.1), ih h.2, List.reverse_cons,
      List.append_assoc, List.singleton_append]

/-- The piece before the first separator, and the pieces behind it. -/
theorem splitOn_append_cons {sep : Char} {cs : List Char} (h : sep ∉ cs) (rest : List Char) :
    splitOn sep (cs ++ sep :: rest) = cs :: splitOn sep rest := by
  unfold splitOn
  rw [splitOn_go_append sep h, splitOn.go, if_pos rfl, splitOn_go_eq]
  simp

/-- Joining the pieces with the separator gives the text back. -/
theorem intercalate_splitOn (sep : Char) (cs : List Char) :
    [sep].intercalate (splitOn sep cs) = cs := by
  suffices h : ∀ piece, [sep].intercalate (splitOn.go sep cs piece []) = piece.reverse ++ cs from
    h []
  induction cs with
  | nil => intro piece; simp [splitOn.go, List.intercalate]
  | cons c rest ih =>
    intro piece
    unfold splitOn.go
    split
    · rename_i h
      rw [splitOn_go_eq]
      have hr := ih []
      cases hs : splitOn.go sep rest [] [] with
      | nil => exact absurd hs (splitOn_go_ne_nil _ _ _ _)
      | cons p ps =>
        rw [hs] at hr
        simp only [List.reverse_cons, List.reverse_nil, List.nil_append, List.singleton_append] at *
        rw [List.intercalate_cons_cons, hr, h]
        simp
    · rw [ih]; simp

end EvlCheck.Text
