/-
A name that is declared once more. The warning stands on each declaration of the name but the first one, if
it is none of a constant. The line may go: the names declared above the lines behind it stay the same, so
each of these lines keeps its warning or goes on without one, and the text has one warning less.
-/
import EvlCheck.Proofs.Fix.Mended

namespace EvlCheck

open Text Check

namespace Mention

theorem variableName?_repeated {name : String} (hne : name.toList ≠ [])
    (hname : ∀ c ∈ name.toList, isWord c = true) :
    variableName? (Complaint.repeated name).message.toList = some name.toList := by
  have hmessage : (Complaint.repeated name).message.toList =
      "Variable ".toList ++ '\'' :: (name.toList ++ '\'' :: " is already declared".toList) := by
    unfold Complaint.message
    simp only [String.toList_append, List.append_assoc]
    rfl
  have hafter : ∀ rest, after? "Variable " ("Variable ".toList ++ rest) = some rest :=
    fun rest => List.isPrefixOf?_eq_some_iff_append_eq.2 rfl
  rw [hmessage, variableName?, wordAfter?]
  refine findFirst?_of_step ?_
  rw [List.findSome?_cons, hafter, Option.bind_some, quoted?_append hne hname]
  rfl

end Mention

namespace Spot

variable [Build] {source : List Char} {d : Diagnostic} {line : List Char} (s : Spot source d line)
  {name : String}
  (hmessage : d.message = (Complaint.repeated name).message)
include s hmessage

theorem complaint_repeated : s.complaint = .repeated name :=
  Complaint.eq_repeated (s.message.trans hmessage)

theorem repetition?_eq : s.walk.repetition? (statementOf line) = some name := by
  have hmem := s.mem
  rw [s.complaint_repeated hmessage] at hmem
  exact Walk.mem_complaints_repeated_iff.1 hmem

/-- Without the line there is one such warning less. -/
theorem countP_removed :
    (Script.ofSource (s.before ++ s.after)).findings.countP (·.isRepetition) + 1 =
      (Script.ofSource source).findings.countP (·.isRepetition) := by
  have ht : s.complaint.topic = .repeated := congrArg Complaint.topic (s.complaint_repeated hmessage)
  obtain ⟨others, hothers, hout⟩ := s.exists_script_removed
  have hnone : s.walk.repetitions others = [] ∧ others.foldl Walk.pass s.walk = s.walk := by
    rcases hothers with rfl | rfl <;> exact ⟨rfl, rfl⟩
  have hbehind := Walk.repetitions_congr (s.declared_of_repeated ht) (s.back.map Script.lineOf)
  unfold Script.findings
  rw [Walk.countP_isRepetition, Walk.countP_isRepetition, hout, s.lines_eq]
  simp only [Walk.repetitions_append, List.length_append]
  unfold walk at hnone hbehind
  rw [hnone.1, hnone.2, hbehind, Walk.repetitions, List.length_append, ← walk, s.repetition?_eq hmessage]
  simp only [List.length_nil, Option.toList_some, List.length_singleton]
  unfold walk
  omega

/-- The fix of the warning. -/
theorem fixes_of_repeated (version : Nat) :
    FixSite.fixes ⟨d, line, version⟩ =
      [.quickFix s!"Remove duplicate declaration of '{name}'" d ⟨.lineWithBreak d.line, "", version⟩ true] := by
  have hworded : (Complaint.repeated name).Worded := by
    rw [← s.complaint_repeated hmessage]
    refine Walk.worded_of_mem_complaints s.mem ?_
    rw [s.complaint_repeated hmessage]
    rfl
  obtain ⟨⟨e, he, -, rfl⟩, -⟩ := Walk.repetition?_eq_some_iff.1 (s.repetition?_eq hmessage)
  have hvariable := Mention.variableName?_repeated (isWord_of_declaration? he).1 hworded
  rw [FixSite.fixes_eq, FixSite.message, hmessage, hworded.calls.offers_eq]
  have hoffer : Topic.offer? (Complaint.repeated e.name).topic = some FixSite.removeDuplicate := rfl
  rw [hoffer, Option.toList_some, List.flatMap_singleton, FixSite.removeDuplicate, FixSite.message]
  dsimp only
  rw [hmessage, hvariable]
  dsimp only
  rw [String.ofList_toList]

end Spot

/-- Repeated declarations are found and can be removed, in a text of which all findings are shown. The
warning stands on a line if and only if the line is a declaration of the name, not of a constant, and an
earlier one is a declaration of the name. It has one fix, which can be made and leaves one such warning
less, if all findings on the new text are shown. -/
theorem repeated_declarations [Build] (prefs : AnalysisPreferences) {source : String}
    (hroom : (Script.ofSource source.toList).findings.length ≤ Limit.semanticDiagnostics) :
    (∀ (i : Nat) (n : String),
      .warning (i + 1) s!"Variable '{n}' is already declared" ∈ (analyze prefs source).1 ↔
        (∃ e, (Script.ofSource source.toList).declarationOn? i = some e ∧ e.constant = false ∧ e.name = n) ∧
          ∃ j < i, ∃ e, (Script.ofSource source.toList).declarationOn? j = some e ∧ e.name = n) ∧
    ∀ d ∈ (analyze prefs source).1, ∀ n : String, d.message = s!"Variable '{n}' is already declared" →
      ∀ version, ∃ line a out, line? source.toList d.line = some line ∧
        FixSite.fixes ⟨d, line, version⟩ = [a] ∧ a.title = s!"Remove duplicate declaration of '{n}'" ∧
        applyEdits source.toList a.edits = .ok out ∧
        ((Script.ofSource out).findings.length ≤ Limit.semanticDiagnostics →
          (analyze prefs (String.ofList out)).1.countP (·.isRepetition) + 1 =
            (analyze prefs source).1.countP (·.isRepetition)) := by
  constructor
  · intro i n
    rw [analyze_eq_take, List.take_of_length_le hroom]
    exact Script.mem_findings_repeated_iff
  · intro d hd n hmessage version
    -- The line is taken out, and behind it every name is declared as before.
    obtain ⟨line, hline⟩ := exists_line?_of_mem_analyze hd
    obtain ⟨s⟩ := nonempty_spot hd hline
    refine ⟨line, _, _, hline, s.fixes_of_repeated hmessage version, rfl,
      applyEdits_lineWithBreak s.lineAt version, fun hroom' => ?_⟩
    rw [analyze_eq_take, analyze_eq_take, String.toList_ofList, List.take_of_length_le hroom,
      List.take_of_length_le hroom']
    exact s.countP_removed hmessage

/-- A constant takes part above, and the last line of a text may go. -/
theorem repeated_declarations_last :
    let source := "bool x = true\r\nconst int x = 2\nint x = 3;"
    let d := Diagnostic.warning 3 "Variable 'x' is already declared"
    (Script.ofSource source.toList).findings.length ≤ Limit.semanticDiagnostics ∧
      d ∈ (analyze {} source).1 ∧
      ∃ a, FixSite.fixes ⟨d, "int x = 3;".toList, 1⟩ = [a] ∧
        a.title = "Remove duplicate declaration of 'x'" ∧
        applyEdits source.toList a.edits = .ok "bool x = true\r\nconst int x = 2\n".toList ∧
        (analyze {} "bool x = true\r\nconst int x = 2\n").1.countP (·.isRepetition) + 1 =
          (analyze {} source).1.countP (·.isRepetition) := by
  intro source d
  have hroom : (Script.ofSource source.toList).findings.length ≤ Limit.semanticDiagnostics := by
    rw [String.toList_ofList]
    decide
  have hfound := repeated_declarations {} hroom
  have hd : d ∈ (analyze {} source).1 :=
    (hfound.1 2 "x").2 ⟨⟨⟨false, .int, "x", ['3']⟩, by rw [String.toList_ofList]; decide⟩,
      0, by decide, ⟨false, .bool, "x", "true".toList⟩, by rw [String.toList_ofList]; decide⟩
  obtain ⟨line, a, out, hline, ha, htitle, hout, hfewer⟩ := hfound.2 d hd "x" rfl 1
  obtain rfl : line = "int x = 3;".toList := by
    have hread : line? source.toList 3 = some "int x = 3;".toList := by
      rw [String.toList_ofList, String.toList_ofList]
      decide
    exact Option.some.inj (hline.symm.trans hread)
  obtain rfl : out = "bool x = true\r\nconst int x = 2\n".toList := by
    have hat : LineAt source.toList 3 "bool x = true\r\nconst int x = 2\n".toList "int x = 3;".toList [] [] := by
      rw [String.toList_ofList]
      exact ⟨by decide, by decide, .inr rfl, by decide, .inr (.inr ⟨rfl, .inl rfl⟩), fun _ => by decide⟩
    have hmade := applyEdits_lineWithBreak hat 1
    rw [List.append_nil] at hmade
    obtain ⟨s⟩ := nonempty_spot hd hline
    have hmessage : d.message = (Complaint.repeated "x").message := rfl
    rw [s.fixes_of_repeated hmessage] at ha
    cases ha
    exact Except.ok.inj (hout.symm.trans hmade)
  have hroom' : (Script.ofSource "bool x = true\r\nconst int x = 2\n".toList).findings.length ≤
      Limit.semanticDiagnostics := by
    rw [String.toList_ofList]
    decide
  have hafter := hfewer hroom'
  rw [String.ofList_toList] at hafter
  exact ⟨hroom, hd, a, ha, htitle, hout, hafter⟩

end EvlCheck
