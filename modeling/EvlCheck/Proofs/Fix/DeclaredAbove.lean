/-
A name that is declared by a fix above the line that mentions it. The name was declared nowhere, so the new
line is the only one that declares it: it is known on every line, and is not declared twice. The name goes from
the value into a message, from there into the new line, and is a word wherever it stands.
-/
import EvlCheck.Proofs.Fix.Mended

namespace EvlCheck

open Text Check

namespace Spot

variable [Build] {source : List Char} {d : Diagnostic} {line : List Char} (s : Spot source d line)
  {name : String}
  (hmessage : d.message = (Complaint.undeclared name).message)
include s hmessage

theorem complaint_undeclared : s.complaint = .undeclared name :=
  Complaint.eq_undeclared (s.message.trans hmessage)

/-- No line of the text declares the name. -/
theorem name_ne_of_undeclared {l : List Char} (hl : l ∈ (Script.ofSource source).lines) {e : Declaration}
    (he : declaration? l = some e) : e.name ≠ name := by
  rintro rfl
  have hknown := Script.contains_symbols hl (Option.map_eq_some_iff.2 ⟨e, he, rfl⟩)
  exact Walk.ne_undeclared_of_contains hknown s.mem (s.complaint_undeclared hmessage)

/-- The fixes of the finding. -/
theorem fixes_of_undeclared (version : Nat) :
    FixSite.fixes ⟨d, line, version⟩ = [("int", "0"), ("float", "0.0")].map fun (type, value) =>
      let text := s!"{type} {name} = {value}"
      .quickFix s!"Declare '{text}' above this line" d ⟨.lineStart d.line, text ++ "\n", version⟩
        (type == "int") := by
  have hcomplaint := s.complaint_undeclared hmessage
  have hworded : (Complaint.undeclared name).Worded := by
    rw [← hcomplaint]
    refine Walk.worded_of_mem_complaints s.mem ?_
    rw [hcomplaint]
    rfl
  have hmention := Mention.identifierName?_undeclared (s.isWord_of_undeclared hcomplaint).1 hworded
  rw [FixSite.fixes_eq, FixSite.message, hmessage, hworded.calls.offers_eq]
  have hoffer : Topic.offer? (Complaint.undeclared name).topic = some FixSite.declareIdentifier := rfl
  rw [hoffer, Option.toList_some, List.flatMap_singleton, FixSite.declareIdentifier, FixSite.message]
  dsimp only
  rw [hmessage, hmention]
  dsimp only
  rw [String.ofList_toList]

/-- Behind a line that declares the name no line tells that it is not declared, or that it is declared
already. -/
theorem silent_of_preceded {type : ValueType} {text : List Char} (hfeed : '\n' ∉ text)
    (hend : text.getLast? ≠ some '\r') (hshort : text.length ≤ Limit.lineChars)
    (hdeclares : Script.declares? (statementOf text) = some (name, type)) :
    ∀ e ∈ (Script.ofSource (s.before ++ (text ++ ['\n']) ++ line ++ s.terminator ++ s.after)).findings,
      e.message ≠ (Complaint.undeclared name).message ∧ e.message ≠ (Complaint.repeated name).message := by
  have hknown := s.contains_of_preceded hfeed hend hshort hdeclares
  have hnew := Script.lines_ofSource (s.lines_preceded hfeed)
  have hold := Script.lines_ofSource (s.lineAt.lines_eq s.around)
  rw [List.map_append, List.map_cons] at hnew hold
  have hothers : ∀ l ∈ s.front.map Script.lineOf ++ ((line ++ s.ending) :: s.back).map Script.lineOf, ∀ e,
      declaration? l = some e → e.name ≠ name := by
    intro l hl e he
    refine s.name_ne_of_undeclared hmessage (l := l) ?_ he
    rw [hold]
    exact hl
  simp only [List.forall_mem_append] at hothers
  intro e he
  obtain ⟨before, l, behind, hsplit, hfound⟩ := Walk.mem_findings_iff.1 he
  rw [Walk.findings_step] at hfound
  obtain ⟨c, hc, rfl⟩ := List.mem_map.1 hfound
  refine ⟨fun h => Walk.ne_undeclared_of_contains hknown hc (Complaint.eq_undeclared h), fun h => ?_⟩
  rw [Complaint.eq_repeated h, Walk.mem_complaints_repeated_iff, Walk.repetition?_eq_some_iff,
    Walk.mem_declared_iff] at hc
  obtain ⟨⟨e₁, he₁, -, hname₁⟩, l', hl', e₂, he₂, hname₂⟩ := hc
  -- Two lines declare the name, of which one at least is an old one.
  rw [hnew] at hsplit
  rcases List.append_eq_append_iff.1 hsplit with ⟨more, rfl, hmore⟩ | ⟨more, hfront, -⟩
  · cases more with
    | nil =>
      rw [List.append_nil] at hl'
      exact hothers.1 l' hl' e₂ he₂ hname₂
    | cons t more =>
      have hback := (List.cons.inj hmore).2
      exact hothers.2 l (hback ▸ List.mem_append_right _ List.mem_cons_self) e₁ he₁ hname₁
  · exact hothers.1 l' (hfront ▸ List.mem_append_left _ hl') e₂ he₂ hname₂

end Spot

/-- A fix that declares an undeclared name resolves it everywhere. Take a finding about an undeclared name. Each
of the two declarations, of an `int` and of a `float`, is offered and can be put above the line, and leaves
all lines of the text as they are. If it is not too long, no finding of the new text tells that the name
is undeclared, or that it is declared already. -/
theorem declared_above_resolves [Build] {prefs : AnalysisPreferences} {source : String}
    {d : Diagnostic} (hd : d ∈ (analyze prefs source).1) {n : String}
    (hmessage : d.message = s!"Reference to undeclared identifier '{n}'") (version : Nat) :
    ∃ line, line? source.toList d.line = some line ∧
      ∀ type value : String, (type, value) ∈ [("int", "0"), ("float", "0.0")] →
        let text := s!"{type} {n} = {value}"
        ∃ a ∈ FixSite.fixes ⟨d, line, version⟩, ∃ out, a.title = s!"Declare '{text}' above this line" ∧
          applyEdits source.toList a.edits = .ok out ∧
          Text.lines out = (Text.lines source.toList).take (d.line - 1) ++
            text.toList :: (Text.lines source.toList).drop (d.line - 1) ∧
          (text.toList.length ≤ Limit.lineChars → ∀ e ∈ (analyze prefs (String.ofList out)).1,
            e.message ≠ s!"Reference to undeclared identifier '{n}'" ∧
              e.message ≠ s!"Variable '{n}' is already declared") := by
  obtain ⟨line, hline⟩ := exists_line?_of_mem_analyze hd
  obtain ⟨s⟩ := nonempty_spot hd hline
  refine ⟨line, hline, fun type value hpair => ?_⟩
  intro text
  obtain ⟨hne, hword⟩ := s.isWord_of_undeclared (s.complaint_undeclared hmessage)
  -- Either text is a declaration of the name, and nothing else.
  obtain ⟨t, htext⟩ : ∃ t, text.toList = declarationText t n.toList value.toList := by
    have hparts : text.toList = type.toList ++ ' ' :: (n.toList ++ (" = ".toList ++ value.toList)) := by
      simp only [text, String.toList_append, List.append_assoc]
      rfl
    simp only [List.mem_cons, List.not_mem_nil, or_false, Prod.mk.injEq] at hpair
    rcases hpair with ⟨rfl, -⟩ | ⟨rfl, -⟩
    · exact ⟨.int, hparts⟩
    · exact ⟨.float, hparts⟩
  have hvalue : value.toList = "0".toList ∨ value.toList = "0.0".toList := by
    simp only [List.mem_cons, List.not_mem_nil, or_false, Prod.mk.injEq] at hpair
    rcases hpair with ⟨-, rfl⟩ | ⟨-, rfl⟩
    · exact .inl rfl
    · exact .inr rfl
  obtain ⟨hfeed, hend, hdeclares⟩ := declarationText_number t hne hword hvalue
  rw [← htext] at hfeed hend hdeclares
  rw [String.ofList_toList] at hdeclares
  refine ⟨.quickFix s!"Declare '{text}' above this line" d ⟨.lineStart d.line, text ++ "\n", version⟩
    (type == "int"), ?_, _, rfl, applyEdits_lineStart s.lineAt _ _, ?_, fun hshort => ?_⟩
  · rw [s.fixes_of_undeclared hmessage]
    exact List.mem_map.2 ⟨(type, value), hpair, rfl⟩
  · rw [String.toList_append]
    have hnew := s.lines_preceded hfeed
    rw [s.lineAt.lines_eq s.around, ← s.number, Nat.add_sub_cancel, List.take_left, List.drop_left]
    exact hnew
  · intro e he
    rw [analyze_eq_take, String.toList_ofList, String.toList_append] at he
    exact s.silent_of_preceded hmessage hfeed hend hshort hdeclares e (List.mem_of_mem_take he)

/-- A name whose second letter is Greek, mentioned in a `try` and behind it. -/
theorem declared_above_resolves_greek :
    let source := "try \x7b\r\nint x = 2 * nβ\r\n\x7d catch (e) \x7b\n\x7d\nint y = nβ"
    let d := Diagnostic.warning 2 "Reference to undeclared identifier 'nβ'"
    let out := "try \x7b\r\nfloat nβ = 0.0\nint x = 2 * nβ\r\n\x7d catch (e) \x7b\n\x7d\nint y = nβ"
    d ∈ (analyze {} source).1 ∧ ∃ a ∈ FixSite.fixes ⟨d, "int x = 2 * nβ".toList, 1⟩,
      a.title = "Declare 'float nβ = 0.0' above this line" ∧
      applyEdits source.toList a.edits = .ok out.toList ∧
      ∀ e ∈ (analyze {} out).1, e.message ≠ "Reference to undeclared identifier 'nβ'" ∧
        e.message ≠ "Variable 'nβ' is already declared" := by
  intro source d out
  have hfound : (Script.ofSource source.toList).findings =
      [d, .warning 5 "Reference to undeclared identifier 'nβ'"] := by
    rw [String.toList_ofList]
    decide +kernel
  have hroom : (Script.ofSource source.toList).findings.length ≤ Limit.semanticDiagnostics := by
    rw [hfound]
    decide
  have hd : d ∈ (analyze {} source).1 := by
    rw [analyze_eq_take, List.take_of_length_le hroom, hfound]
    exact List.mem_cons_self
  obtain ⟨line, hline, hfixes⟩ := declared_above_resolves hd (n := "nβ") rfl 1
  obtain rfl : line = "int x = 2 * nβ".toList := by
    have hread : line? source.toList 2 = some "int x = 2 * nβ".toList := by
      rw [String.toList_ofList, String.toList_ofList]
      decide
    exact Option.some.inj (hline.symm.trans hread)
  obtain ⟨a, ha, result, htitle, hresult, hlines, hsilent⟩ := hfixes "float" "0.0" (by decide)
  obtain rfl : result = out.toList := by
    have hsource : Text.lines result = Text.lines out.toList := by
      rw [hlines, String.toList_ofList, String.toList_ofList]
      decide
    have hjoined := congrArg (['\n'].intercalate ·) hsource
    simpa only [Text.lines, intercalate_splitOn] using hjoined
  have hafter := hsilent (by decide)
  rw [String.ofList_toList] at hafter
  exact ⟨hd, a, ha, htitle, hresult, hafter⟩

end EvlCheck
