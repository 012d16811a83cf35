/-
Where a line stands in a text: behind as many line feeds as its number says, and in front of the next
one. Every line that a text has by its number stands somewhere, and its start, its end and the start
of the line behind it are places of the text.
-/
import EvlCheck.Text.Lines
import EvlCheck.Proofs.Fix.Place
import Mathlib.Data.List.Basic

namespace EvlCheck.Text

/-! ## Pieces of a text -/

theorem splitOn_of_not_mem {sep : Char} {cs : List Char} (h : sep ∉ cs) :
    splitOn sep cs = [cs] := by
  have := splitOn_go_append sep h [] [] []
  rw [List.append_nil, List.append_nil] at this
  unfold splitOn
  rw [this, splitOn.go, List.reverse_reverse]
  rfl

/-- A piece stands behind as many separators as its number says, right behind the last of them, and
up to the next separator. -/
theorem exists_of_getElem?_splitOn {sep : Char} {cs piece : List Char} {k : Nat}
    (h : (splitOn sep cs)[k]? = some piece) :
    ∃ before after, cs = before ++ piece ++ after ∧ before.count sep = k ∧
      (before = [] ∨ before.getLast? = some sep) ∧ sep ∉ piece ∧
      (after = [] ∨ after.head? = some sep) := by
  induction k generalizing cs with
  | zero =>
    by_cases hsep : sep ∈ cs
    · obtain ⟨a, b, rfl, ha⟩ := List.eq_append_cons_of_mem hsep
      rw [splitOn_append_cons ha] at h
      cases h
      exact ⟨[], sep :: b, rfl, rfl, .inl rfl, ha, .inr rfl⟩
    · rw [splitOn_of_not_mem hsep] at h
      cases h
      exact ⟨[], [], by simp, rfl, .inl rfl, hsep, .inl rfl⟩
  | succ k ih =>
    by_cases hsep : sep ∈ cs
    · obtain ⟨a, b, rfl, ha⟩ := List.eq_append_cons_of_mem hsep
      rw [splitOn_append_cons ha, List.getElem?_cons_succ] at h
      obtain ⟨before, after, rfl, hcount, hlast, hpiece, hafter⟩ := ih h
      refine ⟨a ++ sep :: before, after, by simp, ?_, .inr ?_, hpiece, hafter⟩
      · rw [List.count_append, List.count_cons_self, List.count_eq_zero.2 ha, hcount]
        omega
      · rcases hlast with rfl | hlast
        · rw [List.getLast?_append, List.getLast?_singleton, Option.some_or]
        · rw [List.getLast?_append, List.getLast?_cons, hlast, Option.getD_some, Option.some_or]
    · rw [splitOn_of_not_mem hsep] at h
      cases h

/-! ## A line and its surroundings -/

/-- The text is cut around line `n`. Only the last line has no line feed in its terminator, and a
line keeps a carriage return only in front of another one. -/
structure LineAt (cs : List Char) (n : Nat) (before line terminator after : List Char) : Prop where
  text_eq : cs = before ++ line ++ terminator ++ after
  number : n = before.count '\n' + 1
  starts : before = [] ∨ before.getLast? = some '\n'
  unbroken : '\n' ∉ line
  ends : terminator = ['\n'] ∨ terminator = ['\r', '\n'] ∨
    (after = [] ∧ (terminator = [] ∨ terminator = ['\r']))
  bare : '\r' ∉ terminator → line.getLast? ≠ some '\r'

/-- Every line of a text stands in it. -/
theorem exists_lineAt {cs line : List Char} {n : Nat} (h : line? cs n = some line) :
    ∃ before terminator after, LineAt cs n before line terminator after := by
  unfold line? lineIn? at h
  split at h
  · cases h
  · next hn =>
    rw [List.getElem?_toArray, Option.map_eq_some_iff] at h
    obtain ⟨piece, hpiece, rfl⟩ := h
    obtain ⟨before, after, rfl, hcount, hstarts, hfree, hafter⟩ := exists_of_getElem?_splitOn hpiece
    have hnumber : n = before.count '\n' + 1 := by omega
    by_cases hreturn : piece.getLast? = some '\r'
    · obtain ⟨line, rfl⟩ := List.getLast?_eq_some_iff.1 hreturn
      have hline : dropSuffix '\r' (line ++ ['\r']) = line := by
        unfold dropSuffix
        rw [if_pos hreturn, List.dropLast_concat]
      have hunbroken : '\n' ∉ line := fun hmem => hfree (List.mem_append_left _ hmem)
      rw [hline]
      rcases hafter with rfl | hafter
      · exact ⟨before, ['\r'], [], by simp, hnumber, hstarts, hunbroken, .inr (.inr ⟨rfl, .inr rfl⟩),
          fun hno => absurd List.mem_cons_self hno⟩
      · obtain ⟨after, rfl⟩ := List.head?_eq_some_iff.1 hafter
        exact ⟨before, ['\r', '\n'], after, by simp, hnumber, hstarts, hunbroken, .inr (.inl rfl),
          fun hno => absurd List.mem_cons_self hno⟩
    · have hline : dropSuffix '\r' piece = piece := if_neg hreturn
      rw [hline]
      rcases hafter with rfl | hafter
      · exact ⟨before, [], [], by simp, hnumber, hstarts, hfree, .inr (.inr ⟨rfl, .inl rfl⟩),
          fun _ => hreturn⟩
      · obtain ⟨after, rfl⟩ := List.head?_eq_some_iff.1 hafter
        exact ⟨before, ['\n'], after, by simp, hnumber, hstarts, hfree, .inl rfl,
          fun _ => hreturn⟩

/-! ## The places of a line -/

/-- Behind a line feed a line starts. -/
theorem EndsAt.of_getLast? {cs : List Char} (h : cs.getLast? = some '\n') :
    EndsAt cs (cs.count '\n' + 1) 1 where
  line_eq := by
    rw [Position.line_advanceAll]
    exact Nat.add_comm _ _
  column_eq := by
    obtain ⟨front, rfl⟩ := List.getLast?_eq_some_iff.1 h
    rw [Position.advanceAll_append, Position.advanceAll_cons, Position.advanceAll_nil,
      Position.column_advance, if_pos rfl]

/-- Text without a line feed goes on in the same line. -/
theorem EndsAt.append {cs more : List Char} {line column : Nat} (h : EndsAt cs line column)
    (hmore : '\n' ∉ more) : EndsAt (cs ++ more) line (column + more.length) where
  line_eq := by
    rw [Position.advanceAll_append, Position.line_advanceAll, h.line_eq,
      List.count_eq_zero.2 hmore, Nat.add_zero]
  column_eq := by
    rw [Position.advanceAll_append, Position.column_advanceAll_of_not_mem _ hmore, h.column_eq]

namespace LineAt

variable {cs before line terminator after : List Char} {n : Nat}
  (h : LineAt cs n before line terminator after)
include h

theorem endsAt_before : EndsAt before n 1 := by
  rw [h.number]
  rcases h.starts with rfl | hlast
  · exact .nil
  · exact .of_getLast? hlast

theorem count_front : (before ++ line).count '\n' + 1 = n := by
  rw [List.count_append, List.count_eq_zero.2 h.unbroken, h.number]

theorem locates_start : Locates cs n 1 before.length := by
  refine .inside ⟨line ++ terminator ++ after, ?_⟩ h.endsAt_before
  rw [h.text_eq]
  simp only [List.append_assoc]

theorem locates_stop : Locates cs n (line.length + 1) (before ++ line).length := by
  have hends := h.endsAt_before.append h.unbroken
  rw [Nat.add_comm] at hends
  refine .inside ⟨terminator ++ after, ?_⟩ hends
  rw [h.text_eq]
  simp only [List.append_assoc]

theorem locates_next : Locates cs (n + 1) 1 (before ++ line ++ terminator).length := by
  have hfront : before ++ line ++ terminator <+: cs := ⟨after, h.text_eq.symm⟩
  have hfeed : terminator.getLast? = some '\n' → terminator.count '\n' = 1 →
      Locates cs (n + 1) 1 (before ++ line ++ terminator).length := by
    intro hlast hcount
    have hends : EndsAt (before ++ line ++ terminator) _ 1 := .of_getLast? (by
      rw [List.getLast?_append, hlast, Option.some_or])
    rw [List.count_append, hcount, h.count_front] at hends
    exact .inside hfront hends
  rcases h.ends with rfl | rfl | ⟨hafter, hlast⟩
  · exact hfeed rfl rfl
  · exact hfeed rfl rfl
  · -- the last line: the next one is the line behind the text
    have hcs : cs = before ++ line ++ terminator := by rw [h.text_eq, hafter, List.append_nil]
    have hcount : cs.count '\n' + 2 = n + 1 := by
      have hnone : terminator.count '\n' = 0 := by rcases hlast with rfl | rfl <;> rfl
      have := h.count_front
      rw [hcs, List.count_append, hnone]
      omega
    rw [← hcs, ← hcount]
    exact .behind

end LineAt

end EvlCheck.Text
