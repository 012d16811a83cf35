/-
The list of findings that a validation shows. It is the beginning of one list that no limit has a part
in: the same run with another limit shows more or less of it, and the run ends early only where
nothing more would be shown. That list goes through the text from top to bottom, and each of its
findings stands on a line that is something to the validator: one of a length that is read, with
more on it than blanks and a comment.
-/
import EvlCheck.Proofs.Check.Notes

namespace EvlCheck

open Text Check

variable [Build]

/-! ## From top to bottom -/

namespace Walk

variable {symbols : Symbols} {lines : List (List Char)} {number : Nat} {w : Walk}

/-- A finding tells the line that it arose on, and an empty line has none. -/
theorem exists_line_of_mem_findings {d : Diagnostic} (h : d ∈ findings symbols lines number w) :
    ∃ k line, d.line = number + k ∧ lines[k]? = some line ∧ line ≠ [] := by
  obtain ⟨before, line, behind, rfl, hd⟩ := mem_findings_iff.1 h
  refine ⟨before.length, line, ?_, ?_, ?_⟩
  · exact (notesOn_step symbols _ _ line).line d hd
  · rw [List.getElem?_append_right (Nat.le_refl _), Nat.sub_self]
    rfl
  · rintro rfl
    cases hd

theorem le_line_of_mem_findings {d : Diagnostic} (h : d ∈ findings symbols lines number w) :
    number ≤ d.line := by
  obtain ⟨k, -, hk, -, -⟩ := exists_line_of_mem_findings h
  omega

theorem pairwise_findings (symbols : Symbols) (lines : List (List Char)) (number : Nat) (w : Walk) :
    (findings symbols lines number w).Pairwise fun a b => a.line ≤ b.line := by
  induction lines generalizing number w with
  | nil => exact .nil
  | cons line rest ih =>
    unfold findings
    have hline : ∀ d ∈ Note.findings (w.step symbols number line).2, d.line = number :=
      (notesOn_step symbols w number line).line
    refine List.pairwise_append.2 ⟨?_, ih _ _, fun a ha b hb => ?_⟩
    · refine List.pairwise_of_forall_mem_list fun a ha b hb => ?_
      exact Nat.le_of_eq ((hline a ha).trans (hline b hb).symm)
    · have := le_line_of_mem_findings hb
      rw [hline a ha]
      omega

end Walk

namespace Script

/-- What the validator reads of a line, if it reads anything, is the line in normal form. -/
theorem getElem?_ofSource {source line : List Char} {k : Nat}
    (h : (ofSource source).lines[k]? = some line) (hne : line ≠ []) :
    ∃ raw, (Text.lines source)[k]? = some raw ∧ raw.length ≤ Limit.lineChars ∧
      normalizeLine raw = line := by
  unfold ofSource at h
  rw [List.getElem?_map, Option.map_eq_some_iff] at h
  obtain ⟨raw, hraw, hline⟩ := h
  by_cases hlong : raw.length > Limit.lineChars
  · rw [if_pos hlong] at hline
    exact absurd hline.symm hne
  · rw [if_neg hlong] at hline
    exact ⟨raw, hraw, by omega, hline⟩

/-- A finding stands on a line of the text that validation reads. -/
theorem exists_line_of_mem_findings {source : List Char} {d : Diagnostic}
    (h : d ∈ (ofSource source).findings) :
    1 ≤ d.line ∧ ∃ line, (Text.lines source)[d.line - 1]? = some line ∧
      line.length ≤ Limit.lineChars ∧ normalizeLine line ≠ [] := by
  obtain ⟨k, line, hk, hline, hne⟩ := Walk.exists_line_of_mem_findings h
  obtain ⟨raw, hraw, hshort, rfl⟩ := getElem?_ofSource hline hne
  have hplace : d.line - 1 = k := by omega
  rw [hplace]
  exact ⟨by omega, raw, hraw, hshort, hne⟩

end Script

/-! ## What is shown -/

/-- A limit cuts a list of findings off and does nothing else to it. Whatever the limit, a run keeps
the first findings of one list, and knows whether that is longer; so a run with room for all of them
keeps the list itself. An analysis shows what the run with the permitted number keeps. The findings
come in the order of their lines, and each stands on a line that is not empty in normal form. -/
theorem Check.analyze_shows_first (prefs : AnalysisPreferences) (source : String)
    (journal : Journal) :
    let all := (Script.ofSource source.toList).findings
    let sink (limit : Nat) :=
      (Script.ofSource source.toList).validate { limit := limit, journal := journal }
    (∀ limit, all.length ≤ limit → (sink limit).kept.toList = all ∧ (sink limit).truncated = false) ∧
    (∀ limit, (sink limit).kept.toList = all.take limit ∧
      ((sink limit).truncated = true ↔ limit < all.length)) ∧
    (analyze prefs source).1 = all.take Limit.semanticDiagnostics ∧
    all.Pairwise (fun a b => a.line ≤ b.line) ∧
    ∀ d ∈ all, 1 ≤ d.line ∧ ∃ line, (Text.lines source.toList)[d.line - 1]? = some line ∧
      line.length ≤ Limit.lineChars ∧ normalizeLine line ≠ [] := by
  intro all sink
  -- That the loop stops at the limit does not show: a full sink takes nothing more.
  have hholds (limit : Nat) : (sink limit).Holds limit all :=
    (Script.ofSource source.toList).holds_validate limit journal
  refine ⟨fun limit hroom => ⟨?_, ?_⟩, fun limit => ⟨(hholds limit).kept, (hholds limit).truncated⟩,
    analyze_eq_take prefs source, Walk.pairwise_findings _ _ _ _,
    fun d => Script.exists_line_of_mem_findings⟩
  · rw [(hholds limit).kept, List.take_of_length_le hroom]
  · rw [Bool.eq_false_iff, Ne, (hholds limit).truncated]
    omega

end EvlCheck
