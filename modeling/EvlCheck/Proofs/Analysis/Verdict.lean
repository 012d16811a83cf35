/-
When an analysis says that a text has errors. Two lists decide, and each is cut off behind its limit:
the reports of lexer and parser, errors and warnings of ambiguities in one order, and the findings of
validation. An error counts if it stands within its limit, so an error behind as many warnings goes
unseen; without warnings of ambiguities no error of the syntax does.
-/
import EvlCheck.Analysis.Basic
import EvlCheck.Proofs.Check.Findings
import EvlCheck.Proofs.Lexing.Tiling
import EvlCheck.Proofs.Parsing.LoneStrings

namespace EvlCheck

/-! ## Reports without ambiguities -/

/-- Everything reported so far is an error. -/
def Reporter.ErrorsOnly [Build] (r : Reporter) : Prop := ∀ d ∈ r.reported, d.isError = true

namespace Reporter.ErrorsOnly

variable [Build] {r : Reporter} (h : r.ErrorsOnly)
include h

theorem log (e : Event) : (r.log e).ErrorsOnly := h

theorem syntaxError (offending : Option String) (line column : Nat) (message : String) :
    (r.syntaxError offending line column message).ErrorsOnly := by
  unfold Reporter.ErrorsOnly Reporter.syntaxError
  rw [reported_push, List.forall_mem_cons]
  exact ⟨rfl, h⟩

/-- The lexer reports errors only. -/
theorem report (p : LexicalPreferences) (source : String) (s : TokenizedSource) :
    (s.report p source r).ErrorsOnly := by
  have hfold : ∀ (reports : List LexReport) (out : Reporter), out.ErrorsOnly →
      (reports.foldl (TokenizedSource.reportFault p) out).ErrorsOnly := by
    intro reports
    induction reports with
    | nil => exact fun _ hout => hout
    | cons report rest ih =>
      intro out hout
      refine ih _ ?_
      unfold TokenizedSource.reportFault
      dsimp only
      split
      · exact (hout.log _).syntaxError _ _ _ _
      · exact hout.log _
  unfold TokenizedSource.report
  dsimp only
  rw [← Array.foldl_toList]
  exact (hfold s.reports.toList _ (h.log _)).log _

theorem warnings_eq_nil : r.warnings = [] := by
  refine List.filter_eq_nil_iff.2 fun d hd => ?_
  rw [h d hd]
  decide

end Reporter.ErrorsOnly

/-! ## What decides -/

namespace Analysis

/-- Everything that lexer and parser report on a text, in order. -/
def syntaxReports [Build] (lexical : LexicalPreferences) (preferences : ParserPreferences)
    (source : String) : List SyntaxDiagnostic :=
  (parseState lexical preferences source).2.reporter.reported.reverse

/-- All findings of validation on a text, in order. -/
def findings [Build] (source : String) : List Diagnostic := (Script.ofSource source.toList).findings

theorem syntactic_ofSource [Build] (lexical : LexicalPreferences) (prefs : Preferences)
    (source : String) : (ofSource lexical prefs source).syntactic =
      (syntaxReports lexical prefs.parser source).take Limit.syntaxDiagnostics := by
  have hkept := (parseState lexical prefs.parser source).2.reporter.kept_eq
  unfold ofSource
  dsimp only
  split <;> exact hkept

theorem semantic_ofSource [Build] (lexical : LexicalPreferences) (prefs : Preferences)
    (source : String) : (ofSource lexical prefs source).semantic =
      (findings source).take Limit.semanticDiagnostics := by
  have hkept := Check.analyze_eq_take prefs.analysis source
  unfold ofSource
  dsimp only
  split <;> exact hkept

theorem hasErrors_iff_exists (a : Analysis) :
    a.hasErrors = true ↔
      (∃ d ∈ a.syntactic, d.isError = true) ∨ ∃ d ∈ a.semantic, d.isError = true := by
  unfold hasErrors errorCount
  rw [decide_eq_true_iff, gt_iff_lt, Nat.add_pos_iff_pos_or_pos, List.countP_pos_iff,
    List.countP_pos_iff]

/-- Without warnings of ambiguities lexer and parser report errors only. -/
theorem isError_of_mem_syntaxReports [Build] {lexical : LexicalPreferences}
    {preferences : ParserPreferences} (h : preferences.reportAmbiguities = false) {source : String}
    {d : SyntaxDiagnostic} (hd : d ∈ syntaxReports lexical preferences source) :
    d.isError = true := by
  have hempty : ({} : Reporter).ErrorsOnly := by
    intro d hd
    cases hd
  have hend : (parseState lexical preferences source).2.Unwarned [] :=
    (Parsing.lasting_unwarned []).parseProgram
      ⟨h, Reporter.ErrorsOnly.warnings_eq_nil ((((hempty.log _).report _ _ _).log _).log _)⟩
  simpa using List.filter_eq_nil_iff.1 hend.warnings d (List.mem_reverse.1 hd)

/-! ## An error behind the limit -/

/-- The inside of a comment: lines that are no statement, and a declaration without a name. -/
def unseenBody (lines : Nat) : List Char :=
  '\n' :: ((List.replicate lines ['x', '\n']).flatten ++ "int=1\n".toList)

/-- A text that is one comment. Its lines are validated all the same, and the error on the last but
one stands behind warnings about those above it. -/
def unseenText (lines : Nat) : String :=
  String.ofList ('/' :: '*' :: (unseenBody lines ++ ['*', '/']))

theorem lines_unseenText (lines : Nat) :
    Text.lines (unseenText lines).toList =
      ['/', '*'] :: (List.replicate lines ['x'] ++ ["int=1".toList, ['*', '/']]) := by
  have hrest : ∀ n, Text.lines ((List.replicate n ['x', '\n']).flatten ++ "int=1\n*/".toList) =
      List.replicate n ['x'] ++ ["int=1".toList, ['*', '/']] := by
    intro n
    induction n with
    | zero => rfl
    | succ n ih =>
      have hfree : '\n' ∉ ['x'] := by decide
      exact (Text.splitOn_append_cons hfree _).trans (congrArg (['x'] :: ·) ih)
  have htext : (unseenText lines).toList = ['/', '*'] ++
      '\n' :: ((List.replicate lines ['x', '\n']).flatten ++ "int=1\n*/".toList) := by
    unfold unseenText unseenBody
    simp
  rw [htext, ← hrest lines]
  exact Text.splitOn_append_cons (by decide) _

theorem lines_ofSource_unseenText (lines : Nat) :
    (Script.ofSource (unseenText lines).toList).lines =
      ['/', '*'] :: (List.replicate lines ['x'] ++ ["int=1".toList, ['*', '/']]) := by
  unfold Script.ofSource
  rw [lines_unseenText]
  dsimp only
  rw [List.map_cons, List.map_append, List.map_replicate]
  rfl

/-- Lines that are no statement are warned of, and nothing else changes. -/
theorem findings_unrecognized (symbols : Symbols) (n number : Nat) (rest : List (List Char)) :
    ∃ warnings : List Diagnostic, warnings.length = n ∧ (∀ d ∈ warnings, d.isError = false) ∧
      Walk.findings symbols (List.replicate n ['x'] ++ rest) number {} =
        warnings ++ Walk.findings symbols rest (number + n) {} := by
  induction n generalizing number with
  | zero => exact ⟨[], rfl, by simp, rfl⟩
  | succ n ih =>
    obtain ⟨warnings, hlength, hwarnings, hrest⟩ := ih (number + 1)
    refine ⟨.warning number "Unrecognized statement: 'x'" :: warnings, ?_, ?_, ?_⟩
    · rw [List.length_cons, hlength]
    · rw [List.forall_mem_cons]
      exact ⟨rfl, hwarnings⟩
    · have hplace : number + (n + 1) = number + 1 + n := by omega
      rw [hplace, List.cons_append, ← hrest]
      rfl

/-- A declaration without a name is an error. -/
theorem findings_nameless (symbols : Symbols) (number : Nat) (rest : List (List Char)) :
    ∃ (error : Diagnostic) (others : List Diagnostic), error.isError = true ∧
      Walk.findings symbols ("int=1".toList :: rest) number {} = error :: others := by
  refine ⟨_, _, ?_, rfl⟩
  rfl

/-- The error of the text has only warnings before it, one for each line. -/
theorem findings_unseenText (lines : Nat) :
    ∃ (warnings : List Diagnostic) (error : Diagnostic) (others : List Diagnostic),
      findings (unseenText lines) = warnings ++ error :: others ∧
        warnings.length = lines + 1 ∧ (∀ d ∈ warnings, d.isError = false) ∧
        error.isError = true := by
  obtain ⟨warnings, hlength, hwarnings, hbefore⟩ := findings_unrecognized
    (Script.ofSource (unseenText lines).toList).symbols lines 2 ["int=1".toList, ['*', '/']]
  obtain ⟨error, others, herror, hbehind⟩ := findings_nameless
    (Script.ofSource (unseenText lines).toList).symbols (2 + lines) [['*', '/']]
  rw [hbehind] at hbefore
  refine ⟨.warning 1 "Unrecognized statement: '/*'" :: warnings, error, others, ?_, ?_, ?_, herror⟩
  · unfold findings Script.findings
    rw [lines_ofSource_unseenText]
    exact congrArg _ hbefore
  · rw [List.length_cons, hlength]
  · rw [List.forall_mem_cons]
    exact ⟨rfl, hwarnings⟩

theorem length_unseenText (lines : Nat) :
    ('/' :: '*' :: (unseenBody lines ++ ['*', '/'])).length = 2 * lines + 11 := by
  unfold unseenBody
  simp
  omega

/-- The scanner takes the text for one comment. -/
theorem scan_unseenText [Build] {lines : Nat} (h : 2 * lines + 11 ≤ Limit.commentChars) :
    Lexing.scan '/' ('*' :: (unseenBody lines ++ ['*', '/'])) =
      ⟨'/' :: '*' :: (unseenBody lines ++ ['*', '/']), [], .ok (.blockComment (unseenText lines))⟩ := by
  -- No slash stands before the end, so nothing closes the comment earlier.
  have hopen : ¬ ['*', '/'] <:+: unseenBody lines ++ ['*'] := by
    intro hmark
    have hslash : '/' ∈ unseenBody lines ++ ['*'] := hmark.subset (by decide)
    simp [unseenBody] at hslash
  have hclose : Lexing.closeComment ['*', '/'] (unseenBody lines ++ ['*', '/']) =
      ('/' :: '*' :: (unseenBody lines ++ ['*', '/']), some []) :=
    Lexing.closeComment_first hopen ['*', '/'] []
  have hshort : Lexing.commentOutcome .blockComment
      ('/' :: '*' :: (unseenBody lines ++ ['*', '/'])) = .ok (.blockComment (unseenText lines)) := by
    refine if_neg ?_
    rw [length_unseenText]
    omega
  unfold Lexing.scan
  rw [if_neg (by decide), if_neg (by simp), if_pos (by simp)]
  unfold Lexing.scanBlockComment
  rw [List.tail_cons, hclose]
  dsimp only
  rw [hshort]

/-- So the lexer finds that comment and the end. -/
theorem tokenize_unseenText {lines : Nat} (h : 2 * lines + 11 ≤ Limit.commentChars) :
    ∃ stop, Lexing.tokenize {} (unseenText lines) =
      ⟨#[⟨.blockComment (unseenText lines), ⟨.start, stop⟩⟩, ⟨.eof, .point stop⟩], #[]⟩ := by
  have hsize : (unseenText lines).utf8ByteSize ≤ Limit.sourceBytes := by
    have hbytes := Text.byteSize_le ('/' :: '*' :: (unseenBody lines ++ ['*', '/']))
    have hlimit : 4 * Limit.commentChars ≤ Limit.sourceBytes := by decide
    rw [length_unseenText] at hbytes
    unfold unseenText
    rw [Text.utf8ByteSize_ofList]
    omega
  have hchars : (unseenText lines).toList = '/' :: '*' :: (unseenBody lines ++ ['*', '/']) :=
    String.toList_ofList
  refine ⟨Position.start.advanceAll ('/' :: '*' :: (unseenBody lines ++ ['*', '/'])), ?_⟩
  unfold Lexing.tokenize
  dsimp only
  rw [if_neg (by omega), hchars, Lexing.tokenizeFrom, if_neg (by decide), scan_unseenText h]
  dsimp only
  rw [Lexing.tokenizeFrom]
  rfl

/-- A source that is one comment leaves nothing to report. -/
theorem reported_of_comment [Build] {lexical : LexicalPreferences} {preferences : ParserPreferences}
    {source comment : String} {place stop : Span}
    (h : Lexing.tokenize lexical source = ⟨#[⟨.blockComment comment, place⟩, ⟨.eof, stop⟩], #[]⟩) :
    (parseState lexical preferences source).2.reporter.reported = [] := by
  unfold parseState Parser.ofSource
  dsimp only
  rw [h]
  rfl

theorem syntaxReports_unseenText {lines : Nat} (h : 2 * lines + 11 ≤ Limit.commentChars) :
    syntaxReports {} {} (unseenText lines) = [] := by
  obtain ⟨stop, htokens⟩ := tokenize_unseenText h
  have hnone : (parseState {} {} (unseenText lines)).2.reporter.reported = [] :=
    reported_of_comment htokens
  unfold syntaxReports
  rw [hnone]
  rfl

/-! ## The verdict -/

/-- An analysis has errors if and only if one is among the first reports of lexer and parser, or among
the first findings of validation, as many as each list may hold. Where ambiguities are not reported,
an error among the reports never goes unseen. -/
theorem hasErrors_iff [Build] (lexical : LexicalPreferences) (prefs : Preferences)
    (source : String) :
    let reports := syntaxReports lexical prefs.parser source
    ((ofSource lexical prefs source).hasErrors = true ↔
      (∃ d ∈ reports.take Limit.syntaxDiagnostics, d.isError = true) ∨
        ∃ d ∈ (findings source).take Limit.semanticDiagnostics, d.isError = true) ∧
    (prefs.parser.reportAmbiguities = false →
      ((∃ d ∈ reports.take Limit.syntaxDiagnostics, d.isError = true) ↔
        ∃ d ∈ reports, d.isError = true)) := by
  intro reports
  refine ⟨?_, fun hsilent => ?_⟩
  · rw [hasErrors_iff_exists, syntactic_ofSource, semantic_ofSource]
  · constructor
    · rintro ⟨d, hd, herror⟩
      exact ⟨d, List.mem_of_mem_take hd, herror⟩
    · -- Each report is an error, so the first one is.
      rintro ⟨d, hd, -⟩
      cases hreports : reports with
      | nil =>
        rw [hreports] at hd
        cases hd
      | cons first rest =>
        have hfirst : first ∈ reports := by
          rw [hreports]
          exact List.mem_cons_self
        refine ⟨first, ?_, isError_of_mem_syntaxReports hsilent hfirst⟩
        rw [List.take_cons Limit.syntaxDiagnostics_pos]
        exact List.mem_cons_self

theorem hasErrors_iff_silent :
    let prefs : Preferences := { parser := { reportAmbiguities := false } }
    let source := "print(\"\", \"\""
    prefs.parser.reportAmbiguities = false ∧
      ((∃ d ∈ (syntaxReports {} prefs.parser source).take Limit.syntaxDiagnostics,
          d.isError = true) ↔
        ∃ d ∈ syntaxReports {} prefs.parser source, d.isError = true) := by
  intro prefs source
  exact ⟨rfl, (hasErrors_iff {} prefs source).2 rfl⟩

/-- The limits can hide an error: this text has one, and its analysis shows none. -/
theorem hasErrors_misses_error :
    ¬ ((ofSource {} {} (unseenText 1000)).hasErrors = true ↔
      (∃ d ∈ syntaxReports {} {} (unseenText 1000), d.isError = true) ∨
        ∃ d ∈ findings (unseenText 1000), d.isError = true) := by
  obtain ⟨warnings, error, others, hfindings, hlength, hwarnings, herror⟩ := findings_unseenText 1000
  have hreports : syntaxReports {} {} (unseenText 1000) = [] := syntaxReports_unseenText (by decide)
  intro h
  have hverdict := h.2 (.inr ⟨error, by rw [hfindings]; simp, herror⟩)
  have hmany : Limit.semanticDiagnostics ≤ warnings.length := by
    have hlimit : Limit.semanticDiagnostics ≤ 1000 := by decide
    omega
  rw [hasErrors_iff_exists, syntactic_ofSource, semantic_ofSource, hreports, hfindings,
    List.take_append_of_le_length hmany] at hverdict
  rcases hverdict with ⟨d, hd, -⟩ | ⟨d, hd, hd'⟩
  · cases hd
  · rw [hwarnings d (List.mem_of_mem_take hd)] at hd'
    cases hd'

end Analysis

end EvlCheck
