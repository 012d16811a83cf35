/-
A source without errors is lexed without faults. The lexer reports before the parser does and a parse
takes no report back, so what the lexer reports stands first among the diagnostics, where no limit
drops it; and whatever the lexer reports is an error.
-/
import EvlCheck.Parsing.Parse
import EvlCheck.Proofs.Lexing.LineReading
import EvlCheck.Proofs.Parsing.Steady

namespace EvlCheck

variable [Build]

/-! ## Reports stay -/

namespace Parsing

open EvlCheck.Parser

theorem lasting_reported (base : List SyntaxDiagnostic) :
    Lasting fun p => base <:+ p.reporter.reported where
  log _ hp := hp
  record _ hp := hp
  advance hp := hp
  reportLoneString {p} hp := by
    unfold Parser.reportLoneString
    split
    · exact hp
    · exact hp.trans (by simp [Reporter.ambiguity, Parser.log])
  reportError {p} e hp _ := by
    unfold Parser.reportError
    split
    · exact hp
    · exact hp.trans (by simp [Reporter.syntaxError, Parser.log])
  afterFailure {p} inBlock start e hp _ := by
    rw [reported_afterFailure]
    unfold Parser.reportError
    split
    · exact hp
    · exact hp.trans (by simp [Reporter.syntaxError, Parser.log])

end Parsing

/-- A parse begins with what the lexer reports; the journal of a reporter has no part in it. -/
theorem Parser.reported_ofSource (lexical : LexicalPreferences) (preferences : ParserPreferences)
    (source : String) {reporter : Reporter} (h : reporter.reported = []) :
    (Parser.ofSource lexical preferences source reporter).reporter.reported =
      (TokenizedSource.heard lexical source).reverse := by
  show ((Lexing.tokenize lexical source).report lexical source reporter).reported = _
  rw [← List.reverse_inj, List.reverse_reverse, TokenizedSource.heard,
    TokenizedSource.reported_report, TokenizedSource.reported_report, h, Reporter.reported_fresh]

/-- What the lexer reports comes first. -/
theorem heard_isPrefix (lexical : LexicalPreferences) (preferences : ParserPreferences)
    (source : String) :
    TokenizedSource.heard lexical source <+:
      (parseState lexical preferences source).2.reporter.reported.reverse := by
  have hlast := Parsing.lasting_reported (TokenizedSource.heard lexical source).reverse
  rw [← List.reverse_suffix, List.reverse_reverse]
  refine hlast.parseProgram ?_
  show _ <:+ (Parser.ofSource lexical preferences source _).reporter.reported
  rw [Parser.reported_ofSource lexical preferences source rfl]

/-- A source without errors gives the lexer nothing to report. -/
theorem heard_eq_nil {lexical : LexicalPreferences} {preferences : ParserPreferences}
    {source : String} (h : (parse lexical preferences source).hasErrors = false) :
    TokenizedSource.heard lexical source = [] := by
  by_contra hne
  obtain ⟨d, rest, hheard⟩ := List.exists_cons_of_ne_nil hne
  obtain ⟨more, hreported⟩ := heard_isPrefix lexical preferences source
  rw [hheard, List.cons_append] at hreported
  have hkept : d ∈ (parse lexical preferences source).diagnostics := by
    have hlist : (parse lexical preferences source).diagnostics = _ :=
      (parseState lexical preferences source).2.reporter.kept_eq
    rw [hlist, ← hreported, List.take_cons Limit.syntaxDiagnostics_pos]
    exact List.mem_cons_self
  have herror : d.isError = true := by
    have hd : d ∈ TokenizedSource.heard lexical source := by
      rw [hheard]
      exact List.mem_cons_self
    unfold TokenizedSource.heard at hd
    rw [TokenizedSource.reported_report, Reporter.reported_fresh, List.reverse_nil,
      List.nil_append] at hd
    obtain ⟨r, -, rfl⟩ := List.mem_map.1 hd
    rfl
  unfold ParseOutcome.hasErrors at h
  rw [List.any_eq_false] at h
  exact h d hkept herror

namespace Lexing

/-- Where nothing is reported, no limit stops the lexing and no text is at fault. -/
theorem faultless_of_heard {p : LexicalPreferences} (hinvalid : p.reportInvalid = true)
    {source : String} (h : TokenizedSource.heard p source = []) :
    ¬ (tokenize p source).Limited ∧ AllGood (tokenize p source).tokens.toList := by
  have hreaches : ∀ fault, TokenizedSource.reaches p fault = true := by
    intro fault
    cases fault <;> first | rfl | exact hinvalid
  have hnone : (tokenize p source).reports.toList = [] := by
    unfold TokenizedSource.heard at h
    rw [TokenizedSource.reported_report] at h
    simpa [hreaches] using h
  have hlimit : ¬ (tokenize p source).Limited := by
    rintro ⟨r, hr, -⟩
    rw [← Array.mem_toList_iff, hnone] at hr
    cases hr
  refine ⟨hlimit, fun t ht => ?_⟩
  rw [reports_tokenize hlimit, List.map_eq_nil_iff, List.filter_eq_nil_iff] at hnone
  simpa using hnone t ht

end Lexing

end EvlCheck
