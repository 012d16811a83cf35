/-
Validation of a program that is laid out line by line. Validation reads the text of each line with
patterns and never sees the tree, so it may take a line for something else than the parser does. Of the
lines of a program that parses, these are told of an unknown function or of an unrecognized statement:
each that begins with `if` or `while`, each that begins another branch, and perhaps one with a comment
in front of other words or one that calls something inside a string. All others are told of neither.
-/
import EvlCheck.Proofs.Check.HeaderLine
import EvlCheck.Proofs.Check.LineOrder
import EvlCheck.Proofs.Check.Protection
import EvlCheck.Proofs.Parsing.Faultless

namespace EvlCheck

open Text Check Lexing

/-! ## Lines of a shape -/

theorem Signature.isSome_of_isFunctionName {name : String} (h : IsFunctionName name) :
    (Signature.find? name).isSome = true := by
  obtain ⟨k, hk, rfl⟩ := h
  cases k <;> first | rfl | cases hk

namespace LineShape

variable {shape : LineShape} {raw : List Char} {symbols : Symbols} {w : Walk} {number : Nat}

/-- Outside of its strings a statement without a block calls built-in functions only. -/
theorem names_simple {s : Stmt} (hs : s.isSimple = true) (h : LineReads raw s.terminals) :
    ∀ name ∈ namesCalled (normalizeLine raw),
      IsFunctionName name ∨ ∃ text, .string text ∈ s.terminals ∧ name ∈ namesCalled text.toList := by
  intro name hname
  have hline := (beforeComment_dropSuffix_starts raw)
  have hmem := namesCalled_isPrefix hline (namesCalled_normalizeLine raw hname)
  rw [namesCalled_eq] at hmem
  exact h.names (Stmt.joins hs (t := .symbol .comma) rfl) ⟨fun _ => rfl, nofun⟩ name hmem

/-- An unknown function is told of on a line with a condition, or for what stands in a string. -/
theorem of_unknownFunction [Build] (h : LineReads raw shape.terminals) {name : String}
    (hmem : .call (.unknownFunction name) ∈ w.complaints symbols number (normalizeLine raw)) :
    shape.condition?.isSome = true ∨
      ∃ text, .string text ∈ shape.terminals ∧ name ∈ namesCalled text.toList := by
  obtain ⟨hne, hstructure, hform, hname, hfind⟩ := Walk.unknownFunction_mem_complaints hmem
  cases shape with
  | blank => exact absurd (normalizeLine_nil h) hne
  | simple s hs =>
    refine .inr ((names_simple hs h name hname).resolve_left fun hfunction => ?_)
    have := Signature.isSome_of_isFunctionName hfunction
    rw [hfind] at this
    cases this
  | header header =>
    by_cases hbranch : header.isBranch = true
    · exact absurd (branch_header hbranch h).2.1 hform
    · cases hcondition : header.condition? with
      | some k => exact .inl (by rw [condition?, hcondition]; rfl)
      | none =>
        rw [isStructure_header hcondition ((Bool.not_eq_true _).mp hbranch) h] at hstructure
        cases hstructure
  | close =>
    rw [normalizeLine_brace (.inr rfl) h] at hstructure
    cases hstructure

/-- Only the header of another branch is not recognized. -/
theorem of_unrecognized [Build] (h : LineReads raw shape.terminals) {cs : List Char}
    (hmem : .unrecognized cs ∈ w.complaints symbols number (normalizeLine raw)) :
    shape.isBranch = true := by
  obtain ⟨hne, hstructure, hform, -⟩ := Walk.unrecognized_mem_complaints hmem
  cases shape with
  | blank => exact absurd (normalizeLine_nil h) hne
  | simple s hs => exact absurd hform (lineForm_simple hs h)
  | header header =>
    by_contra hbranch
    cases hcondition : header.condition? with
    | some k =>
      obtain ⟨-, -, -, -, hcall, -⟩ := condition_header hcondition h
      rw [hcall] at hform
      cases hform
    | none =>
      rw [isStructure_header hcondition ((Bool.not_eq_true _).mp hbranch) h] at hstructure
      cases hstructure
  | close =>
    rw [normalizeLine_brace (.inr rfl) h] at hstructure
    cases hstructure

theorem complaints_of_plain [Build] {line : List Char} (hne : line ≠ [])
    (hstructure : TryTracker.isStructure line = false) :
    w.complaints symbols number line =
      { w with tracker := (w.tracker.observe line).1 }.statementComplaints symbols number line := by
  unfold Walk.complaints
  rw [TryTracker.observe_snd, hstructure, List.isEmpty_eq_false_iff.2 hne]
  rfl

/-- Each line with a condition is told of its word as an unknown function. -/
theorem unknownFunction_mem [Build] (h : LineReads raw shape.terminals) {k : Keyword}
    (hcondition : shape.condition? = some k) :
    .call (.unknownFunction k.text) ∈ w.complaints symbols number (normalizeLine raw) := by
  cases shape with
  | header header =>
    obtain ⟨g, tail, hg, hline, hform, hstructure⟩ := condition_header hcondition h
    obtain ⟨c, word, hk, hc, hword⟩ := keyword_text_shape k
    have hne : normalizeLine raw ≠ [] := by
      rw [hline, hk]
      exact List.cons_ne_nil _ _
    obtain ⟨call, rest, hcalls, hname⟩ := exists_calls_of_word hc
      (fun d hd => isWord_of_isNamePart (hword d hd)) (isBlank_of_gap hg) tail
    rw [← hk, ← hline] at hcalls
    rw [← hk, String.ofList_toList] at hname
    rw [complaints_of_plain hne hstructure]
    unfold Walk.statementComplaints
    rw [hform]
    dsimp only
    unfold expressionComplaints
    rw [hcalls]
    refine List.mem_flatMap.2 ⟨call, List.mem_cons_self, List.mem_map.2 ⟨_, ?_, rfl⟩⟩
    have hunknown : ValueType.ofText? k.text = none ∧ Signature.find? k.text = none := by
      cases header <;> cases hcondition <;> exact ⟨by decide, by decide⟩
    unfold callComplaints
    rw [hname, hunknown.1, hunknown.2]
    exact List.mem_singleton_self _
  | _ => cases hcondition

/-- Each line that begins another branch is told of a division by zero, or not recognized. -/
theorem unrecognized_mem [Build] (h : LineReads raw shape.terminals)
    (hbranch : shape.isBranch = true) :
    .division ∈ w.complaints symbols number (normalizeLine raw) ∨
      .unrecognized (normalizeLine raw) ∈ w.complaints symbols number (normalizeLine raw) := by
  cases shape with
  | header header =>
    obtain ⟨hne, hform, hstructure⟩ := branch_header hbranch h
    rw [complaints_of_plain hne hstructure]
    unfold Walk.statementComplaints
    rw [hform]
    dsimp only
    split
    · exact .inl (List.mem_singleton_self _)
    · exact .inr (List.mem_singleton_self _)
  | _ => cases hbranch

end LineShape

/-! ## Sources that are laid out -/

/-- Every line of a source is of some shape, so each statement without a block, each header of a block
and each brace that closes one stands on a line of its own. -/
def LaidOut (tokens : List SpannedToken) : Prop :=
  ∀ n, ∃ shape : LineShape, visibleOn tokens n = shape.terminals

/-- A line of a shape with a property. -/
def HasLine (tokens : List SpannedToken) (n : Nat) (P : LineShape → Prop) : Prop :=
  ∃ shape : LineShape, visibleOn tokens n = shape.terminals ∧ P shape

theorem visibleOn_of_forall {tokens : List SpannedToken} {n : Nat}
    (h : ∀ t ∈ tokens, t.span.start.line ≠ n) : visibleOn tokens n = [] := by
  unfold visibleOn
  rw [List.map_eq_nil_iff, List.filter_eq_nil_iff]
  exact fun t ht => by simpa using h t (List.mem_of_mem_filter ht)

/-- Without comments every line is tidy. -/
theorem tidy_of_forall {tokens : List SpannedToken} (n : Nat)
    (h : ∀ t ∈ tokens, t.value.isTrivia = true → isWhitespace t.value = true) : Tidy tokens n where
  block t ht text hvalue := by
    have := h t ht (by rw [hvalue]; rfl)
    rw [hvalue] at this
    cases this
  last := by
    refine List.Pairwise.filter _ (List.pairwise_of_forall_mem_list fun t ht u _ hcomment => ?_)
    obtain ⟨text, hvalue⟩ : ∃ text, t.value = .lineComment text := by
      cases hvalue : t.value <;> rw [hvalue] at hcomment <;> first
        | exact ⟨_, rfl⟩
        | cases hcomment
    have := h t ht (by rw [hvalue]; rfl)
    rw [hvalue] at this
    cases this

/-- The words for a name that is no function. -/
def unknownMessage (name : String) : String := (CallComplaint.unknownFunction name).message

/-- The finding is that a statement was not recognized. -/
def Diagnostic.IsUnrecognized (d : Diagnostic) : Prop :=
  ∃ line, d.message = (Complaint.unrecognized line).message

namespace Script

/-- The findings on a line come from the complaints about it, at some place of the walk. -/
theorem exists_walk [Build] {s : Script} {k : Nat} {line : List Char}
    (h : s.lines[k]? = some line) :
    ∃ w : Walk, ∀ d, d ∈ s.findings ∧ d.line = k + 1 ↔
      d ∈ complained (k + 1) (w.complaints s.symbols (k + 1) line) := by
  obtain ⟨hk, rfl⟩ := List.getElem?_eq_some_iff.1 h
  have hsplit : s.lines = s.lines.take k ++ s.lines[k] :: s.lines.drop (k + 1) := by simp
  refine ⟨(s.lines.take k).foldl Walk.pass {}, fun d => ?_⟩
  have hlength : (s.lines.take k).length = k := List.length_take_of_le (by omega)
  have hmem := @Walk.mem_findings_on _ s.symbols (s.lines.take k) (s.lines.drop (k + 1)) s.lines[k] 1
    {} d
  rw [← hsplit, hlength, Nat.add_comm 1 k, Walk.findings_step] at hmem
  exact hmem

end Script

namespace Check

/-- A laid out source that parses, line by line. Where a line has comments at most at its end, an
analysis tells of an unknown function there only if the line begins with `if` or `while` or a string on
it calls the name, and of an unrecognized statement only if the line begins another branch. And it finds
an unknown function on each line of the first kind, and a division by zero or an unrecognized statement
on each of the second, unless the line is too long. -/
theorem analyze_laidOut [Build] (prefs : AnalysisPreferences) {lexical : LexicalPreferences}
    {preferences : ParserPreferences} {source : String} (hinvalid : lexical.reportInvalid = true)
    (hparse : (parse lexical preferences source).hasErrors = false)
    (hlaid : LaidOut (tokenize lexical source).tokens.toList) :
    let tokens := (tokenize lexical source).tokens.toList
    (∀ d ∈ (analyze prefs source).1, Tidy tokens d.line →
      (∀ name, d.message = unknownMessage name → HasLine tokens d.line (·.condition?.isSome = true) ∨
        ∃ text, .string text ∈ visibleOn tokens d.line ∧ name ∈ namesCalled text.toList) ∧
      (d.IsUnrecognized → HasLine tokens d.line (·.isBranch = true))) ∧
    ∀ k raw, (Text.lines source.toList)[k]? = some raw → raw.length ≤ Limit.lineChars →
      Tidy tokens (k + 1) →
      (∀ word, HasLine tokens (k + 1) (·.condition? = some word) →
        ∃ d ∈ (Script.ofSource source.toList).findings, d.line = k + 1 ∧
          d.message = unknownMessage word.text) ∧
      (HasLine tokens (k + 1) (·.isBranch = true) →
        ∃ d ∈ (Script.ofSource source.toList).findings, d.line = k + 1 ∧
          (d.message = divisionMessage ∨ d.IsUnrecognized)) := by
  intro tokens
  obtain ⟨hlimit, hgood⟩ := faultless_of_heard hinvalid (heard_eq_nil hparse)
  have hcut := cut_of_not_limited hlimit
  refine ⟨fun d hd htidy => ?_, fun k raw hraw hshort htidy => ?_⟩
  · -- A finding stands on a line that is not empty, and comes from a complaint about it.
    rw [analyze_eq_take] at hd
    have hd := List.mem_of_mem_take hd
    obtain ⟨k, line, hplace, hline, hne⟩ := Walk.exists_line_of_mem_findings hd
    have hplace : d.line = k + 1 := by omega
    obtain ⟨raw, hraw, -, rfl⟩ := Script.getElem?_ofSource hline hne
    obtain ⟨w, hw⟩ := Script.exists_walk hline
    obtain ⟨c, hc, rfl⟩ := List.mem_map.1 ((hw d).1 ⟨hd, hplace⟩)
    rw [Complaint.line_diagnostic] at htidy ⊢
    obtain ⟨shape, hshape⟩ := hlaid (k + 1)
    have hreads := hcut.lineReads_of_tidy hgood hraw htidy
    rw [hshape] at hreads ⊢
    refine ⟨fun name hname => ?_, fun ⟨cs, hcs⟩ => ?_⟩
    · obtain rfl := Complaint.eq_of_message_unknownFunction hname
      exact (LineShape.of_unknownFunction hreads hc).imp_left fun h => ⟨shape, hshape, h⟩
    · obtain ⟨cs, rfl⟩ := Complaint.exists_of_message_unrecognized hcs
      exact ⟨shape, hshape, LineShape.of_unrecognized hreads hc⟩
  · have hline : (Script.ofSource source.toList).lines[k]? = some (normalizeLine raw) := by
      unfold Script.ofSource
      rw [List.getElem?_map, hraw, Option.map_some, if_neg (by omega)]
    obtain ⟨w, hw⟩ := Script.exists_walk hline
    have hreads := hcut.lineReads_of_tidy hgood hraw htidy
    have hfound : ∀ c ∈ w.complaints (Script.ofSource source.toList).symbols (k + 1)
        (normalizeLine raw), c.diagnostic (k + 1) ∈ (Script.ofSource source.toList).findings :=
      fun c hc => ((hw _).2 (List.mem_map_of_mem hc)).1
    refine ⟨fun word ⟨shape, hshape, hcondition⟩ => ?_, fun ⟨shape, hshape, hbranch⟩ => ?_⟩
    · rw [hshape] at hreads
      exact ⟨_, hfound _ (LineShape.unknownFunction_mem hreads hcondition), rfl, rfl⟩
    · rw [hshape] at hreads
      have htold := @LineShape.unrecognized_mem shape raw (Script.ofSource source.toList).symbols w (k + 1)
        _ hreads hbranch
      rcases htold with hmem | hmem
      · exact ⟨_, hfound _ hmem, rfl, .inl rfl⟩
      · exact ⟨_, hfound _ hmem, rfl, .inr ⟨_, rfl⟩⟩

/-- A conditional with another branch: both of its headers have a finding. -/
theorem analyze_laidOut_branches :
    let source := "int x = 1\nif (x == 1) \x7b\n\x7d else \x7b\n\x7d"
    let tokens := (tokenize {} source).tokens.toList
    (parse {} {} source).hasErrors = false ∧ LaidOut tokens ∧
      (∃ d ∈ (Script.ofSource source.toList).findings, d.line = 2 ∧ d.message = unknownMessage "if") ∧
      ∃ d ∈ (Script.ofSource source.toList).findings, d.line = 3 ∧
        (d.message = divisionMessage ∨ d.IsUnrecognized) := by
  intro source tokens
  have hparse : (parse {} {} source).hasErrors = false := by decide +kernel
  let one : Expr := .integer "1" .dummy
  let condition : Expr := .binary .equal .dummy (.name "x" .dummy) one .dummy
  have hfirst : visibleOn tokens 1 =
      (LineShape.simple (.varDecl ⟨.int, "x", one, .dummy⟩) rfl).terminals := by decide +kernel
  have hsecond : visibleOn tokens 2 = (LineShape.header (.ifOpens condition)).terminals := by
    decide +kernel
  have hthird : visibleOn tokens 3 = (LineShape.header (.elseOpens true)).terminals := by
    decide +kernel
  have hfourth : visibleOn tokens 4 = LineShape.close.terminals := by decide +kernel
  have hlast : ∀ t ∈ tokens, t.span.start.line ≠ 0 ∧ t.span.start.line < 5 := by decide +kernel
  have hlaid : LaidOut tokens := by
    intro n
    match n with
    | 1 => exact ⟨_, hfirst⟩
    | 2 => exact ⟨_, hsecond⟩
    | 3 => exact ⟨_, hthird⟩
    | 4 => exact ⟨_, hfourth⟩
    | 0 => exact ⟨.blank, visibleOn_of_forall fun t ht => (hlast t ht).1⟩
    | n + 5 => exact ⟨.blank, visibleOn_of_forall fun t ht => by have := (hlast t ht).2; omega⟩
  have htidy : ∀ n, Tidy tokens n := fun n => tidy_of_forall n (by decide +kernel)
  obtain ⟨-, hfound⟩ := @analyze_laidOut _ {} {} {} source rfl hparse hlaid
  refine ⟨hparse, hlaid, ?_, ?_⟩
  · exact (hfound 1 "if (x == 1) \x7b".toList (by decide +kernel) (by decide) (htidy 2)).1 .if ⟨_, hsecond, rfl⟩
  · exact (hfound 2 "\x7d else \x7b".toList (by decide +kernel) (by decide) (htidy 3)).2 ⟨_, hthird, rfl⟩

/-- A source that is laid out and parses without any diagnostic is told of an unknown function `if`. -/
theorem analyze_laidOut_if :
    let source := "if (true) \x7b\n\x7d"
    let lexical : LexicalPreferences := {}
    let preferences : ParserPreferences := { reportAmbiguities := false }
    (parse lexical preferences source).diagnostics = [] ∧
      LaidOut (tokenize lexical source).tokens.toList ∧
      ∃ d ∈ (analyze {} source).1, d.message = unknownMessage "if" := by
  intro source lexical preferences
  have hfirst : visibleOn (tokenize lexical source).tokens.toList 1 =
      (LineShape.header (.ifOpens (.truth true .dummy))).terminals := by decide +kernel
  have hsecond : visibleOn (tokenize lexical source).tokens.toList 2 = LineShape.close.terminals := by
    decide +kernel
  have hlines : ∀ t ∈ (tokenize lexical source).tokens.toList,
      t.span.start.line ≠ 0 ∧ t.span.start.line < 3 := by decide +kernel
  refine ⟨by decide +kernel, fun n => ?_, by decide +kernel⟩
  match n with
  | 0 => exact ⟨.blank, visibleOn_of_forall fun t ht => (hlines t ht).1⟩
  | 1 => exact ⟨_, hfirst⟩
  | 2 => exact ⟨_, hsecond⟩
  | n + 3 => exact ⟨.blank, visibleOn_of_forall fun t ht => by have := (hlines t ht).2; omega⟩

end Check

end EvlCheck
