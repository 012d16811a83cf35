/-
What validation finds, and what it keeps of that. `Script.findings` are the findings of all checks on
all lines, as they would be if no limit dropped any; a sink holds the first ones of them, as many as
its limit permits, and knows whether there were more. Validation stops at a line behind which nothing
more would be kept, so stopping loses nothing that the limit had not cost already.
-/
import EvlCheck.Check.Validation

namespace EvlCheck

/-! ## Findings without a limit -/

/-- The findings on lines, none of them dropped, from a place of the walk and a line number on. -/
def Walk.findings [Build] (symbols : Symbols) : List (List Char) → Nat → Walk → List Diagnostic
  | [], _, _ => []
  | line :: rest, number, w =>
    let (w, notes) := w.step symbols number line
    Note.findings notes ++ findings symbols rest (number + 1) w

/-- All findings on a script in the order of its lines. -/
def Script.findings [Build] (s : Script) : List Diagnostic := Walk.findings s.symbols s.lines 1 {}

/-! ## What a sink holds -/

namespace Sink

theorem truncated_push [Build] (s : Sink) (d : Diagnostic) :
    (s.push d).truncated = true ↔ s.truncated = true ∨ s.limit ≤ s.kept.size := by
  unfold Sink.push
  split
  · next hfull =>
    split
    · next ht => exact iff_of_true ht (.inr hfull)
    · exact iff_of_true rfl (.inr hfull)
  · next hfree => exact (or_iff_left hfree).symm

/-- A sink with a limit was handed these findings: it keeps the first ones up to its limit, and is
truncated if there were more. -/
structure Holds (s : Sink) (limit : Nat) (findings : List Diagnostic) : Prop where
  bounded : s.limit = limit
  kept : s.kept.toList = findings.take limit
  truncated : s.truncated = true ↔ limit < findings.length

theorem holds_nil (limit : Nat) (journal : Journal) :
    Holds { limit := limit, journal := journal } limit [] :=
  ⟨rfl, List.take_nil.symm, by simp⟩

section

variable {s : Sink} {limit : Nat} {findings : List Diagnostic} (h : s.Holds limit findings)
include h

theorem Holds.size_kept : s.kept.size = min limit findings.length := by
  rw [← Array.length_toList, h.kept, List.length_take]

theorem Holds.log (e : Event) : (s.log e).Holds limit findings :=
  ⟨h.bounded, h.kept, h.truncated⟩

theorem Holds.push [Build] (d : Diagnostic) : (s.push d).Holds limit (findings ++ [d]) := by
  have hsize := h.size_kept
  have hlength : (findings ++ [d]).length = findings.length + 1 := List.length_append
  refine ⟨?_, ?_, ?_⟩
  · rw [limit_push, h.bounded]
  · rw [kept_push, h.bounded, h.kept]
    split
    · rw [List.take_append_of_le_length (by omega)]
    · rw [List.take_of_length_le (by omega), List.take_of_length_le (by omega)]
  · rw [truncated_push, h.truncated, h.bounded]
    omega

theorem Holds.addAll [Build] (notes : List Note) :
    (s.addAll notes).Holds limit (findings ++ Note.findings notes) := by
  induction notes generalizing s findings with
  | nil => simpa [Sink.addAll] using h
  | cons note rest ih =>
    cases note with
    | finding d =>
      have hrest := ih (h.push d)
      rwa [List.append_assoc] at hrest
    | event e => exact ih (h.log e)

/-- Once findings were dropped, further ones change nothing. -/
theorem Holds.more (ht : s.truncated = true) (others : List Diagnostic) :
    s.Holds limit (findings ++ others) := by
  have hlt := h.truncated.1 ht
  refine ⟨h.bounded, ?_, iff_of_true ht ?_⟩
  · rw [h.kept, List.take_append_of_le_length (Nat.le_of_lt hlt)]
  · rw [List.length_append]
    omega

/-- A walk hands the sink all findings on its lines. -/
theorem Holds.run [Build] (symbols : Symbols) (lines : List (List Char)) (number : Nat) (w : Walk) :
    (Walk.run symbols lines number w s).Holds limit
      (findings ++ Walk.findings symbols lines number w) := by
  induction lines generalizing s findings number w with
  | nil => simpa [Walk.run, Walk.findings] using h
  | cons line rest ih =>
    unfold Walk.run
    split
    · next ht => exact h.more ht _
    · have hline := ih (h.addAll (w.step symbols number line).2) (number + 1)
        (w.step symbols number line).1
      rwa [List.append_assoc] at hline

end

end Sink

/-! ## Validation -/

/-- Validation hands an empty sink all findings on the script. -/
theorem Script.holds_validate [Build] (s : Script) (limit : Nat) (journal : Journal) :
    (s.validate { limit := limit, journal := journal }).Holds limit s.findings :=
  ((Sink.holds_nil limit journal).log _).run s.symbols s.lines 1 {}

/-- An analysis shows the first findings on the text, as many as permitted. -/
theorem Check.analyze_eq_take [Build] (prefs : AnalysisPreferences) (source : String) :
    (Check.analyze prefs source).1 =
      (Script.ofSource source.toList).findings.take Limit.semanticDiagnostics := by
  have hholds := (Script.ofSource source.toList).holds_validate Limit.semanticDiagnostics
    ((Script.lineWarnings source.toList).push
      (startEvent (Script.ofSource source.toList).lines.length))
  unfold Check.analyze
  dsimp only
  split <;> split <;> exact hholds.kept

end EvlCheck
