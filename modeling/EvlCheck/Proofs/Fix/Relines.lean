/-
The lines of a text in which one line was edited. Only what stands in the place of the line differs;
its carriage return stays behind the last of the new lines.
-/
import EvlCheck.Proofs.Check.LineEnds
import EvlCheck.Proofs.Fix.LineEdit

namespace EvlCheck.Text

/-- The pieces of a text are those in front of one of its separators and those behind it. -/
theorem splitOn_append_splitOn (sep : Char) (cs rest : List Char) :
    splitOn sep (cs ++ sep :: rest) = splitOn sep cs ++ splitOn sep rest := by
  suffices h : ∀ piece, splitOn.go sep (cs ++ sep :: rest) piece [] =
      splitOn.go sep cs piece [] ++ splitOn sep rest from h []
  induction cs with
  | nil =>
    intro piece
    simp only [List.nil_append, splitOn.go, if_pos]
    exact splitOn_go_eq sep rest [] [piece.reverse]
  | cons c cs ih =>
    intro piece
    rw [List.cons_append, splitOn.go, splitOn.go]
    split
    · rw [splitOn_go_eq, ih, splitOn_go_eq sep cs [] [piece.reverse], List.append_assoc]
    · exact ih _

theorem length_splitOn (sep : Char) (cs : List Char) :
    (splitOn sep cs).length = cs.count sep + 1 := by
  suffices h : ∀ piece, (splitOn.go sep cs piece []).length = cs.count sep + 1 from h []
  induction cs with
  | nil => exact fun piece => rfl
  | cons c cs ih =>
    intro piece
    rw [splitOn.go]
    split
    · next hc => rw [splitOn_go_eq, List.length_append, ih, hc, List.count_cons_self]; simp; omega
    · next hc => rw [ih, List.count_cons_of_ne hc]

theorem lines_append_feed (cs rest : List Char) : lines (cs ++ '\n' :: rest) = lines cs ++ lines rest :=
  splitOn_append_splitOn '\n' cs rest

theorem lines_of_not_mem {cs : List Char} (h : '\n' ∉ cs) : lines cs = [cs] := splitOn_of_not_mem h

/-- The lines of a text around one of them: those in front, its carriage return, and those behind. -/
structure LinesAround (before terminator after : List Char) (front : List (List Char))
    (ending : List Char) (back : List (List Char)) : Prop where
  ending_eq : ending = [] ∨ ending = ['\r']
  lines_before : ∀ rest, lines (before ++ rest) = front ++ lines rest
  lines_line : ∀ line, '\n' ∉ line → lines (line ++ (terminator ++ after)) = (line ++ ending) :: back
  lines_after : lines after = back ∨ after = [] ∧ back = []

namespace LineAt

variable {cs before line terminator after : List Char} {n : Nat}
  (h : LineAt cs n before line terminator after)
include h

theorem linesAround : ∃ front ending back,
    LinesAround before terminator after front ending back ∧ front.length + 1 = n ∧
      (ending = [] → line.getLast? ≠ some '\r') := by
  have hbefore : ∃ front, (∀ rest, lines (before ++ rest) = front ++ lines rest) ∧
      front.length = before.count '\n' := by
    rcases h.starts with rfl | hlast
    · exact ⟨[], fun _ => rfl, rfl⟩
    · obtain ⟨b, rfl⟩ := List.getLast?_eq_some_iff.1 hlast
      refine ⟨lines b, fun rest => ?_, ?_⟩
      · rw [List.append_assoc, List.singleton_append, lines_append_feed]
      · rw [List.count_append, List.count_singleton_self]
        exact length_splitOn '\n' b
  obtain ⟨front, hfront, hlength⟩ := hbefore
  have hnumber : front.length + 1 = n := by rw [hlength, h.number]
  rcases h.ends with rfl | rfl | ⟨rfl, hlast⟩
  · refine ⟨front, [], lines after, ⟨.inl rfl, hfront, fun line hline => ?_, .inl rfl⟩, hnumber,
      fun _ => h.bare (by decide)⟩
    rw [List.singleton_append, lines_append_feed, lines_of_not_mem hline, List.append_nil]
    rfl
  · refine ⟨front, ['\r'], lines after, ⟨.inr rfl, hfront, fun line hline => ?_, .inl rfl⟩, hnumber,
      fun hnil => absurd hnil (by decide)⟩
    have hfree : '\n' ∉ line ++ ['\r'] := by
      rw [List.mem_append, not_or]
      exact ⟨hline, by decide⟩
    have hsplit : line ++ (['\r', '\n'] ++ after) = (line ++ ['\r']) ++ '\n' :: after := by simp
    rw [hsplit, lines_append_feed, lines_of_not_mem hfree]
    rfl
  · have hnone : '\n' ∉ terminator := by rcases hlast with rfl | rfl <;> decide
    refine ⟨front, terminator, [], ⟨hlast, hfront, fun line hline => ?_, .inr ⟨rfl, rfl⟩⟩, hnumber, ?_⟩
    · rw [List.append_nil, lines_of_not_mem]
      rw [List.mem_append, not_or]
      exact ⟨hline, hnone⟩
    · rintro rfl
      exact h.bare (by decide)

theorem lines_eq {front back : List (List Char)} {ending : List Char}
    (haround : LinesAround before terminator after front ending back) :
    lines cs = front ++ (line ++ ending) :: back := by
  rw [h.text_eq, List.append_assoc, List.append_assoc, haround.lines_before,
    haround.lines_line line h.unbroken]

end LineAt

end EvlCheck.Text
