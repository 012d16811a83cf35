/-
A division by zero that is put into the body of a `try`. The body is the line without the blanks at its
ends. A semicolon that blanks follow is kept by validation, and is dropped once they are gone; nothing else
of the statement changes (`exists_statementOf_trim`). So the body declares what the line declares, and the
walk is behind the `try` where it was behind the line: only the findings on the line itself differ.
-/
import EvlCheck.Proofs.Fix.AddedLines
import EvlCheck.Proofs.Fix.Elsewhere
import EvlCheck.Proofs.Check.StatementText
import EvlCheck.Proofs.Fix.Wording

namespace EvlCheck

open Text Check

namespace Check

/-! ## A line without the blanks at its ends -/

variable {g cs more line : List Char}

/-- Blanks behind a text are behind it without its comment, or in the comment. -/
theorem beforeComment_append_blanks (hg : ∀ c ∈ g, isBlank c = true) (cs : List Char) :
    beforeComment (cs ++ g) = beforeComment cs ∨
      beforeComment cs = cs ∧ beforeComment (cs ++ g) = cs ++ g := by
  have hslash : '/' ∉ g := fun hmem => absurd (hg _ hmem) (by decide)
  induction cs with
  | nil => exact .inr ⟨rfl, beforeComment_of_not_mem hslash⟩
  | cons c cs ih =>
    have hhead : (cs ++ g).head? = some '/' ↔ cs.head? = some '/' := by
      cases cs with
      | nil => exact iff_of_false (fun h => hslash (List.mem_of_head? h)) nofun
      | cons d cs => rfl
    rw [List.cons_append, beforeComment_cons, beforeComment_cons]
    simp only [hhead]
    split
    · exact .inl rfl
    · rcases ih with h | ⟨h, h'⟩
      · exact .inl (congrArg (c :: ·) h)
      · exact .inr ⟨congrArg (c :: ·) h, congrArg (c :: ·) h'⟩

/-- Without the blanks at its ends a line may lose a semicolon, and blanks in front of that. -/
theorem exists_statementOf_trim (line : List Char) :
    ∃ more, statementOf line = statementOf (trim line) ++ more ∧
      ∀ c ∈ more, isBlank c = true ∨ c = ';' := by
  obtain ⟨g, g', hg, hg', hline⟩ := exists_trim line
  have hstart : statementOf line = statementOf (trim line ++ g') := by
    conv_lhs => rw [hline, statementOf_blanks_append hg]
  rw [hstart]
  rcases beforeComment_append_blanks hg' (trim line) with h | ⟨h, h'⟩
  · exact ⟨[], by rw [statementOf, h, List.append_nil]; rfl, nofun⟩
  · rcases List.eq_nil_or_concat' g' with rfl | ⟨front, b, rfl⟩
    · exact ⟨[], by rw [List.append_nil, List.append_nil], nofun⟩
    · -- a blank stands behind the text, so the semicolon in front of it stays
      have hb : b ≠ ';' := by
        rintro rfl
        exact absurd (hg' _ (List.mem_append_right _ (List.mem_singleton_self _))) (by decide)
      have hlast : (trim line ++ (front ++ [b])).getLast? = some b := by
        rw [← List.append_assoc, List.getLast?_concat]
      have hkept : statementOf (trim line ++ (front ++ [b])) = trim line := by
        rw [statementOf, h', dropSuffix, if_neg (by rw [hlast]; simpa using hb)]
        conv_rhs => rw [hline, trim_blanks_append hg]
      obtain ⟨ending, hparts, hending⟩ := exists_dropSuffix ';' (trim line)
      obtain ⟨a, a', ha, ha', hcode⟩ := exists_trim (dropSuffix ';' (trim line))
      rw [hcode] at hparts
      have hnone : a = [] := by
        refine List.eq_nil_iff_forall_not_mem.2 fun c hc => ?_
        obtain ⟨first, rest, rfl⟩ := List.exists_cons_of_ne_nil (List.ne_nil_of_mem hc)
        have hfirst : isBlank first = false := head?_trim line first (by rw [hparts]; rfl)
        rw [ha first List.mem_cons_self] at hfirst
        cases hfirst
      refine ⟨a' ++ ending, ?_, fun c hc => ?_⟩
      · rw [hnone, List.nil_append, List.append_assoc] at hparts
        rw [hkept, statementOf, h]
        exact hparts
      · rcases List.mem_append.1 hc with hc | hc
        · exact .inl (ha' c hc)
        · exact .inr (hending c hc)

/-- A semicolon and blanks behind a statement with a slash leave what it declares. -/
theorem declares?_append (hslash : '/' ∈ cs ++ more) (hmore : ∀ c ∈ more, isBlank c = true ∨ c = ';') :
    Script.declares? (cs ++ more) = Script.declares? cs := by
  have hnone : '/' ∉ more := by
    intro hmem
    rcases hmore _ hmem with h | h
    · exact absurd h (by decide)
    · cases h
  obtain ⟨p, rest, rfl⟩ := List.append_of_mem ((List.mem_append.1 hslash).resolve_right hnone)
  refine Option.ext fun ⟨name, type⟩ => ?_
  rw [List.append_assoc, List.cons_append, declares?_behind_iff (by decide) (by decide) (by decide),
    declares?_behind_iff (by decide) (by decide) (by decide)]

theorem mem_of_divides (h : (lineForm line).divides line = true) : '/' ∈ line := by
  have hdivides : ∀ {cs : List Char}, dividesByZero cs = true → '/' ∈ cs := by
    intro cs hcs
    by_contra hslash
    rw [dividesByZero_of_not_mem hslash] at hcs
    cases hcs
  generalize hform : lineForm line = form at h
  cases form with
  | declaration d =>
    obtain ⟨front, g, rest, -, -, rfl, hvalue, -⟩ := exists_declarationText (declaration?_of_lineForm hform)
    have hmem := (trim_isInfix _).subset (hdivides h)
    rw [hvalue] at hmem
    exact List.mem_append_right _ (List.mem_append_right _
      (List.mem_cons_of_mem _ ((List.dropWhile_sublist _).subset hmem)))
  | assignment value? =>
    cases value? with
    | none => cases h
    | some value =>
      exact (suffix_of_assignedValue? (assignedValue?_of_lineForm hform)).subset (hdivides h)
  | other => exact hdivides h
  | nameless => cases h
  | valueless => cases h
  | call => cases h

end Check

/-! ## The lines of the `try` -/

namespace Walk

variable [Build] {symbols : Symbols} {w : Walk} {number : Nat} {line : List Char}

theorem divides_of_mem_complaints {c : Complaint} (h : c ∈ w.complaints symbols number line)
    (hmessage : c.message = divisionMessage) : (lineForm line).divides line = true := by
  have hfound : c.diagnostic number ∈ Note.findings (w.step symbols number line).2 := by
    rw [findings_step]
    exact List.mem_map_of_mem h
  have hdivided := (notesOn_step symbols w number line).divided.1 ⟨_, hfound, hmessage⟩
  simp only [Bool.and_eq_true] at hdivided
  exact hdivided.2.1

/-- The line of the handler prints a text and has no finding. -/
theorem complaints_handler (symbols : Symbols) (w : Walk) (number : Nat) :
    w.complaints symbols number (Script.lineOf Spot.handlerLine) = [] := by
  have hline : Script.lineOf Spot.handlerLine = "print(\"Error: Division by zero!\")".toList := by
    rw [Script.lineOf_of_short (by decide), String.toList_ofList]
    decide
  have hform : lineForm "print(\"Error: Division by zero!\")".toList = .call := by
    rw [String.toList_ofList]
    decide
  have hall : allCalls "print(\"Error: Division by zero!\")".toList =
      [⟨"print", ["\"Error: Division by zero!\"".toList]⟩] := by
    repeat rw [String.toList_ofList]
    rfl
  have hsilent : expressionComplaints ⟨number, none, symbols⟩
      "print(\"Error: Division by zero!\")".toList = [] := by
    rw [expressionComplaints, calls_eq, hall, List.take_cons Limit.callExtraction_pos, List.take_nil]
    rfl
  rw [hline, complaints_eq (by decide) (by decide), statementComplaints, hform]
  exact hsilent

/-- So the lines of the `try` have the findings of its body. -/
theorem findings_tryLines (symbols : Symbols) (w : Walk) (number : Nat) (body : List Char) :
    findings symbols (tryLines body (Script.lineOf Spot.handlerLine)) number w =
      complained (number + 1) ((w.pass "try \x7b".toList).complaints symbols (number + 1) body) := by
  have htry : ∀ w number, complaints symbols w number "try \x7b".toList = [] :=
    fun w => complaints_of_structural (by rw [TryTracker.observe_tryLine])
  have hturn : ∀ w number, complaints symbols w number (Bracing.catchLine ['e']) = [] :=
    fun w => complaints_of_structural (by rw [observe_turn])
  have hend : ∀ w number, complaints symbols w number ['\x7d'] = [] :=
    fun w => complaints_of_structural (by rw [TryTracker.observe_brace _ (.inr rfl)])
  unfold tryLines
  rw [findings_cons, findings_cons, findings_cons, findings_cons, findings_cons, htry, hturn, hend,
    complaints_handler]
  exact List.append_nil _

end Walk

/-! ## What is left of the findings -/

/-- The findings on a text and on the text with a `try` around line `n`: the line, now the second one of
the `try`, divides no more, the other four lines have no finding, the lines above have the findings that
they had, and so have the lines below, four lines further down. -/
structure Wrapped (n : Nat) (old new : List Diagnostic) : Prop where
  undivided : ∀ d ∈ new, d.line = n + 1 → d.message ≠ divisionMessage
  silent : ∀ d ∈ new, d.line ∉ [n, n + 2, n + 3, n + 4]
  above : new.filter (·.line < n) = old.filter (·.line < n)
  below : new.filter (n + 4 < ·.line) = (old.filter (n < ·.line)).map (·.lowered 4)

/-- So it is if the findings in the place of those on the line are complaints about the body. -/
theorem wrapped_of_body [Build] {before behind : List (List Char)} {line : List Char}
    {cs : List Complaint} (hundivided : ∀ c ∈ cs, c.message ≠ divisionMessage) :
    Wrapped (before.length + 1) (Script.findings ⟨before ++ line :: behind⟩)
      (Script.above before line behind ++ (complained (before.length + 1 + 1) cs ++
        (Script.below before line behind).map (·.lowered 4))) := by
  rw [Script.findings_parts]
  have habove : ∀ e ∈ Script.above before line behind, e.line < before.length + 1 :=
    fun e => Script.line_of_mem_above
  have honLine : ∀ e ∈ Script.onLine before line behind, e.line = before.length + 1 :=
    fun e => Script.line_of_mem_onLine
  have hbody : ∀ e ∈ complained (before.length + 1 + 1) cs, e.line = before.length + 1 + 1 :=
    List.forall_mem_map.2 fun c _ => rfl
  have hbelow : ∀ e ∈ Script.below before line behind, before.length + 1 < e.line :=
    fun e => Script.line_of_mem_below
  have hlowered : ∀ e ∈ (Script.below before line behind).map (·.lowered 4), before.length + 1 + 4 < e.line :=
    List.forall_mem_map.2 fun e he => Nat.add_lt_add_right (hbelow e he) 4
  generalize Script.above before line behind = above, Script.onLine before line behind = onLine,
    Script.below before line behind = below, before.length + 1 = n at *
  constructor
  · intro e he hline
    simp only [List.mem_append] at he
    rcases he with he | he | he
    · have := habove e he
      omega
    · obtain ⟨c, hc, rfl⟩ := List.mem_map.1 he
      exact hundivided c hc
    · have := hlowered e he
      omega
  · intro e he hline
    simp only [List.mem_append] at he
    simp only [List.mem_cons, List.not_mem_nil, or_false] at hline
    rcases he with he | he | he
    · have := habove e he
      omega
    · have := hbody e he
      omega
    · have := hlowered e he
      omega
  · have hnone : ∀ es : List Diagnostic, (∀ e ∈ es, n ≤ e.line) → es.filter (·.line < n) = [] :=
      fun es h => List.filter_eq_nil_iff.2 fun e he => by simpa using h e he
    simp only [List.filter_append]
    rw [hnone (complained _ _) fun e he => (hbody e he).symm ▸ Nat.le_succ _,
      hnone onLine fun e he => (honLine e he).ge, hnone below fun e he => (hbelow e he).le,
      hnone (below.map _) fun e he => by have := hlowered e he; omega]
  · have hnone : ∀ (k : Nat) (es : List Diagnostic), (∀ e ∈ es, e.line ≤ k) →
        es.filter (k < ·.line) = [] :=
      fun k es h => List.filter_eq_nil_iff.2 fun e he => by simpa using h e he
    have hall : ∀ {k : Nat} {es : List Diagnostic}, (∀ e ∈ es, k < e.line) →
        es.filter (k < ·.line) = es :=
      fun h => List.filter_eq_self.2 fun e he => decide_eq_true (h e he)
    simp only [List.filter_append]
    rw [hnone n above fun e he => (habove e he).le, hnone n onLine fun e he => (honLine e he).le,
      hall hbelow, hnone (n + 4) above fun e he => by have := habove e he; omega,
      hnone (n + 4) (complained _ _) fun e he => by have := hbody e he; omega, hall hlowered]
    rfl

namespace Spot

variable [Build] {source : List Char} {d : Diagnostic} {line : List Char} (s : Spot source d line)
  (hmessage : d.message = divisionMessage) (hopen : '\x7b' ∉ line) (hclose : '\x7d' ∉ line)
  (hfits : (FixSite.wrapIndent.toList ++ trim line).length ≤ Limit.lineChars)
include s hmessage

theorem topic_of_division : s.complaint.topic = .division := by
  have hnamed : Complaint.division.Named := trivial
  exact Complaint.topic_eq (Walk.named_of_mem_complaints s.mem) hnamed (s.message.trans hmessage)

include hfits

/-- The body declares what the line declares. -/
theorem declares?_bodyOf : Script.declares? (bodyOf line) = Script.declares? (statementOf line) := by
  have hlast : (FixSite.wrapIndent.toList ++ trim line).getLast? ≠ some '\r' := by
    intro h
    rw [List.getLast?_append] at h
    cases hend : (trim line).getLast? with
    | none =>
      rw [hend] at h
      exact absurd h (by decide)
    | some c =>
      rw [hend] at h
      cases h
      exact absurd (getLast?_trim line _ hend) (by decide)
  have hbody : bodyOf line = statementOf (trim line) := by
    have hended := Script.lineOf_ended (.inl rfl) (fun _ => hlast) (by rwa [List.append_nil])
    rw [List.append_nil] at hended
    rw [bodyOf, hended, statementOf_blanks_append (List.all_eq_true.1 (by decide))]
  obtain ⟨more, hmore, hchars⟩ := exists_statementOf_trim line
  have hslash : '/' ∈ statementOf line :=
    mem_of_divides (Walk.divides_of_mem_complaints s.mem (s.message.trans hmessage))
  rw [hmore] at hslash ⊢
  rw [hbody, declares?_append hslash hchars]

include hopen hclose

theorem stands_wrapped :
    s.walk.Stands (statementOf line) (Walk.tryLines (bodyOf line) (Script.lineOf handlerLine)) where
  declares := by
    have hhandler : Script.declares? (Script.lineOf handlerLine) = none := by
      rw [Script.lineOf_of_short (by decide)]
      decide
    unfold Walk.tryLines
    rw [List.filterMap_cons_none (by decide), List.filterMap_cons, s.declares?_bodyOf hmessage hfits,
      List.filterMap_cons_none (by decide), List.filterMap_cons_none hhandler,
      List.filterMap_cons_none (by decide), List.filterMap_nil]
    cases Script.declares? (statementOf line) <;> rfl
  tracker := by
    have ht := s.topic_of_division hmessage
    rw [s.tracker_of_division ht hopen hclose]
    exact (Walk.try_lines (Script.ofSource source).symbols (ht ▸ s.isAbout)
      ⟨not_mem_bodyOf (by decide) hopen, not_mem_handler (by decide)⟩
      ⟨not_mem_bodyOf (by decide) hclose, not_mem_handler (by decide)⟩ s.walk).1

theorem wrapped_of_division : Wrapped d.line (Script.ofSource source).findings
    (Script.ofSource (s.before ++ wrapped line ++ s.terminator ++ s.after)).findings := by
  have hm : IsAbout divisionMessage .division := hmessage ▸ s.topic_of_division hmessage ▸ s.isAbout
  have hundivided := (Walk.pass_in_try (Script.ofSource source).symbols hm s.walk.tracker_in_try
    (not_mem_bodyOf (by decide) hopen) (not_mem_bodyOf (by decide) hclose)).2
  have hlength : s.front.length = (s.front.map Script.lineOf).length := (List.length_map _).symm
  have hold : Script.ofSource source = ⟨_⟩ := congrArg Script.mk s.lines_eq
  have hnew : Script.ofSource (s.before ++ wrapped line ++ s.terminator ++ s.after) = ⟨_⟩ :=
    congrArg Script.mk s.script_wrapped
  have hfound := Script.findings_stands (s.back.map Script.lineOf) (k := 4)
    (s.stands_wrapped hmessage hopen hclose hfits) rfl
  rw [Walk.told, ← Walk.complaints_number ((s.front.map Script.lineOf).length + 1 + 1), hold,
    List.countP_eq_zero] at hundivided
  rw [hnew, hfound, Walk.findings_tryLines, hold, ← s.number, hlength]
  exact wrapped_of_body fun c hc h => hundivided c hc (decide_eq_true h)

end Spot

/-- A finding about a division has one fix. -/
theorem FixSite.fixes_of_division {s : FixSite} (h : s.diagnostic.message = divisionMessage) :
    s.fixes = s.wrapInTry := by
  have hcalls : Topic.division.Calls s.message := by
    rw [FixSite.message, h]
    exact Complaint.Worded.calls (c := .division) trivial
  rw [FixSite.fixes_eq, hcalls.offers_eq]
  exact List.append_nil _

/-- A `try` around a division by zero does away with its finding and with no other one of another line. Take
a finding of that message on a line without braces that is not too long for the indent. It has one fix,
which puts the line into the body of a `try`, and can be made. If neither analysis exceeds the limit on
findings, the line divides no more, the four new lines have no finding, and the findings on the lines
above and below are those that they were. -/
theorem wrap_removes_division [Build] {prefs : AnalysisPreferences} {source : String}
    {d : Diagnostic} (hd : d ∈ (analyze prefs source).1) (hmessage : d.message = divisionMessage)
    {line : List Char} (hline : line? source.toList d.line = some line) (hopen : '\x7b' ∉ line)
    (hclose : '\x7d' ∉ line)
    (hfits : (FixSite.wrapIndent.toList ++ trim line).length ≤ Limit.lineChars) (version : Nat) :
    ∃ a out, FixSite.fixes ⟨d, line, version⟩ = [a] ∧ a.title = "Wrap in try/catch block" ∧
      applyEdits source.toList a.edits = .ok out ∧
      ((Script.ofSource source.toList).findings.length ≤ Limit.semanticDiagnostics →
        (Script.ofSource out).findings.length ≤ Limit.semanticDiagnostics →
        Wrapped d.line (analyze prefs source).1 (analyze prefs (String.ofList out)).1) := by
  obtain ⟨s⟩ := nonempty_spot hd hline
  refine ⟨_, _, FixSite.fixes_of_division hmessage, rfl, applyEdits_wholeLine s.lineAt _ _, fun hroom hroom' => ?_⟩
  rw [String.toList_ofList] at hroom' ⊢
  rw [analyze_eq_take, analyze_eq_take, List.take_of_length_le hroom, String.toList_ofList,
    List.take_of_length_le hroom']
  exact s.wrapped_of_division hmessage hopen hclose hfits

/-- A division with a semicolon and a blank behind it, between other lines with findings, where lines end in
two characters. -/
theorem wrap_removes_division_returns :
    let source := "int y\r\n  x = 1 / 0 ; \r\nx = y / 0"
    let d := Diagnostic.error 2 "Division by zero detected"
    let line := "  x = 1 / 0 ; ".toList
    let out := "int y\r\ntry \x7b\n    x = 1 / 0 ;\n\x7d catch (e) \x7b\n    print(\"Error: Division by zero!\")\n\x7d\r\nx = y / 0"
    d ∈ (analyze {} source).1 ∧ line? source.toList d.line = some line ∧ '\x7b' ∉ line ∧ '\x7d' ∉ line ∧
      (FixSite.wrapIndent.toList ++ trim line).length ≤ Limit.lineChars ∧
      ∃ a, FixSite.fixes ⟨d, line, 1⟩ = [a] ∧ applyEdits source.toList a.edits = .ok out.toList ∧
        Wrapped 2 (analyze {} source).1 (analyze {} out).1 := by
  intro source d line out
  have hfound : (Script.ofSource source.toList).findings =
      [.warning 1 "Variable 'y' declared but never assigned", d, .error 3 "Division by zero detected"] := by
    rw [String.toList_ofList]
    decide
  have hroom : (Script.ofSource source.toList).findings.length ≤ Limit.semanticDiagnostics := by
    rw [hfound]
    decide
  have hd : d ∈ (analyze {} source).1 := by
    rw [analyze_eq_take, List.take_of_length_le hroom, hfound]
    exact .tail _ List.mem_cons_self
  have hat : LineAt source.toList 2 "int y\r\n".toList line "\r\n".toList "x = y / 0".toList := by
    rw [String.toList_ofList]
    exact ⟨by decide, by decide, .inr rfl, by decide, .inr (.inl rfl), fun _ => by decide⟩
  have hline : line? source.toList d.line = some line := by
    rw [String.toList_ofList]
    decide
  have hfits : (FixSite.wrapIndent.toList ++ trim line).length ≤ Limit.lineChars := by decide
  obtain ⟨a, result, ha, -, hresult, hwrapped⟩ :=
    wrap_removes_division hd rfl hline (by decide) (by decide) hfits 1
  obtain rfl : result = out.toList := by
    rw [FixSite.fixes_of_division (s := ⟨d, line, 1⟩) rfl] at ha
    cases ha
    have hmade := hresult.symm.trans (applyEdits_wholeLine hat _ _)
    rw [Except.ok.inj hmade]
    unfold FixSite.wrapIndent
    repeat rw [String.toList_ofList]
    decide
  have hroom' : (Script.ofSource out.toList).findings.length ≤ Limit.semanticDiagnostics := by
    rw [String.toList_ofList]
    decide
  refine ⟨hd, hline, by decide, by decide, hfits, a, ha, hresult, ?_⟩
  have hafter := hwrapped hroom hroom'
  rwa [String.ofList_toList] at hafter

end EvlCheck
