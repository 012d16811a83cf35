/-
A source without errors is made of the terminals of its tree. Each error that the parser remembers was
reported, so a parse whose reports are all shown and are no errors took all that it saw. The source of one
statement then is a line that is read as the terminals of the statement.
-/
import EvlCheck.Proofs.Parsing.Faultless
import EvlCheck.Proofs.Parsing.Spans

namespace EvlCheck

variable [Build]

namespace Parsing

open EvlCheck.Parser

/-- No error is remembered that was not reported. -/
def Told (p : Parser) : Prop := p.errors = [] → p.Clean

theorem told_reportError {p : Parser} (hp : Told p) (e : SyntaxError) : Told (p.reportError e) := by
  intro h
  unfold Parser.reportError at h ⊢
  split at h
  · next hhalted =>
    rw [if_pos hhalted]
    exact hp h
  · exact absurd ((Reporter.errors_syntaxError _ _ _ _ _).symm.trans h) (List.cons_ne_nil _ _)

theorem told_reportLoneString {p : Parser} (hp : Told p) : Told p.reportLoneString := by
  intro h
  rw [errors_reportLoneString] at h
  have hclean := hp h
  unfold Parser.reportLoneString
  split <;> exact hclean

theorem lasting_told : Lasting Told where
  log _ hp := hp
  record _ hp := hp
  advance hp := hp
  reportLoneString := told_reportLoneString
  reportError e hp _ := told_reportError hp e
  afterFailure {p} inBlock start e hp _ := by
    intro h
    rw [errors_afterFailure] at h
    unfold Clean
    rw [(afterFailure_ahead inBlock start e p).2]
    exact told_reportError hp e h

end Parsing

section

variable {lexical : LexicalPreferences} {preferences : ParserPreferences} {source : String}
  (herrors : (parse lexical preferences source).hasErrors = false)
  (hshown : (parse lexical preferences source).diagnostics.length < Limit.syntaxDiagnostics)
include herrors hshown

/-- Below the limit every report is shown. -/
theorem errors_parseState : (parseState lexical preferences source).2.errors = [] := by
  have hkept : (parse lexical preferences source).diagnostics = _ :=
    (parseState lexical preferences source).2.reporter.kept_eq
  rw [hkept, List.length_take, List.length_reverse] at hshown
  rw [List.take_of_length_le (by rw [List.length_reverse]; omega)] at hkept
  unfold ParseOutcome.hasErrors at herrors
  rw [hkept, List.any_reverse, List.any_eq_false] at herrors
  exact List.filter_eq_nil_iff.2 herrors

theorem clean_parseState : (parseState lexical preferences source).2.Clean :=
  Parsing.lasting_told.parseProgram (fun _ => rfl) (errors_parseState herrors hshown)

/-- The tree of a source without errors is one of the grammar, and what the parser sees of the source are
its terminals. -/
theorem grammatical_of_parse :
    (parse lexical preferences source).tree.Grammatical ∧
      (parse lexical preferences source).tree.terminals =
        (Lexing.tokenize lexical source).visible.map (·.value) := by
  obtain ⟨-, front, place, htokens, hvisible⟩ := Lexing.tokenize_visible lexical source
  obtain ⟨reporter, hstart⟩ : ∃ reporter, parseState lexical preferences source =
      (Parser.start (.ofTokens (Lexing.tokenize lexical source).tokens) preferences reporter).parseProgram :=
    ⟨_, rfl⟩
  have hclean := clean_parseState herrors hshown
  obtain ⟨p, hready, -, -, hpending, htree, hhistory⟩ :=
    Parser.exists_program_of_start htokens preferences reporter
  rw [hvisible] at hpending
  have heof : Token.eof ∉ (Lexing.tokenize lexical source).visible.map (·.value) := by
    intro hmem
    obtain ⟨t, ht, hvalue⟩ := List.mem_map.1 hmem
    have hseen := (List.mem_filter.1 ht).2
    rw [hvalue] at hseen
    cases hseen
  obtain ⟨tree, q, hprogram⟩ : ∃ tree q, Parsing.program p = (tree, q) := ⟨_, _, rfl⟩
  rw [hprogram] at htree hhistory
  have hq : q.Clean := by
    unfold Parser.Clean at hclean ⊢
    rw [← hhistory, ← hstart]
    exact hclean
  rw [← hstart] at htree
  have htree : (parse lexical preferences source).tree = tree := htree
  obtain ⟨hgood, -, hterminals⟩ := Parsing.terminals_of_clean hready hpending heof hprogram hq
  rw [htree]
  exact ⟨hgood, hterminals⟩

theorem terminals_of_parse :
    (parse lexical preferences source).tree.terminals =
      (Lexing.tokenize lexical source).visible.map (·.value) := (grammatical_of_parse herrors hshown).2

open Lexing in
/-- A source without errors and block comments, in which nothing stands behind a comment, is a line that is
read as the terminals of its tree. -/
theorem lineReads_of_parse (hinvalid : lexical.reportInvalid = true)
    (hblock : ∀ t ∈ (tokenize lexical source).tokens, ∀ text, t.value ≠ .blockComment text)
    (hlast : (tokenize lexical source).tokens.toList.Pairwise fun t u =>
      isLineComment t.value = true → seen u = false) :
    LineReads source.toList (parse lexical preferences source).tree.terminals := by
  obtain ⟨hlimit, hgood⟩ := faultless_of_heard hinvalid (heard_eq_nil herrors)
  rw [terminals_of_parse herrors hshown]
  exact (cut_of_not_limited hlimit).lineReads hgood (fun t ht => hblock t (Array.mem_toList_iff.1 ht)) hlast

end

end EvlCheck
