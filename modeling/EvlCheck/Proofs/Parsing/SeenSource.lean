/-
Sources that show a program. Where the parser sees the terminals of a program of the grammar, and the lexer
leaves no text at fault, nothing is reported as an error: the parser reports none without remembering one
(`Mute`), and remembers none here.
-/
import EvlCheck.Proofs.Lexing.Sees
import EvlCheck.Proofs.Parsing.CleanSource

namespace EvlCheck

variable [Build]

namespace Parsing

open EvlCheck.Parser

/-- No error is reported that was never remembered. -/
def Mute (p : Parser) : Prop := p.Clean → p.errors = []

theorem mute_reportError {p : Parser} (hp : Mute p) (e : SyntaxError) : Mute (p.reportError e) := by
  intro h
  unfold Parser.reportError at h ⊢
  split at h
  · next hhalted =>
    rw [if_pos hhalted]
    exact hp h
  · exfalso
    unfold Clean ErrorHistory.record at h
    dsimp only at h
    split at h <;> exact List.append_ne_nil_of_right_ne_nil _ (List.cons_ne_nil _ _) h

theorem mute_reportLoneString {p : Parser} (hp : Mute p) : Mute p.reportLoneString := by
  intro h
  rw [errors_reportLoneString]
  refine hp ?_
  unfold Parser.reportLoneString at h
  split at h <;> exact h

theorem lasting_mute : Lasting Mute where
  log _ hp := hp
  record _ hp := hp
  advance hp := hp
  reportLoneString := mute_reportLoneString
  reportError e hp _ := mute_reportError hp e
  afterFailure {p} inBlock start e hp _ := by
    intro h
    rw [errors_afterFailure]
    refine mute_reportError hp e ?_
    unfold Clean at h
    rwa [(afterFailure_ahead inBlock start e p).2] at h

end Parsing

section

variable {lexical : LexicalPreferences} {preferences : ParserPreferences}

/-- The lexer has nothing to report of a source without text at fault. -/
theorem Lexing.heard_of_allGood {source : String} (hlimit : ¬ (tokenize lexical source).Limited)
    (hgood : AllGood (tokenize lexical source).tokens.toList) : TokenizedSource.heard lexical source = [] := by
  have hnone : (tokenize lexical source).reports.toList = [] := by
    rw [reports_tokenize hlimit, List.map_eq_nil_iff, List.filter_eq_nil_iff]
    intro t ht
    rw [hgood t ht]
    exact Bool.false_ne_true
  unfold TokenizedSource.heard
  rw [TokenizedSource.reported_report, hnone]
  rfl

theorem hasErrors_of_terminals {source : String} {tree : Program} (htree : tree.Grammatical)
    (hnesting : tree.nesting ≤ Limit.parseDepth) (hlimit : ¬ (Lexing.tokenize lexical source).Limited)
    (hgood : Lexing.AllGood (Lexing.tokenize lexical source).tokens.toList)
    (hterminals : (Lexing.tokenize lexical source).visible.map (·.value) = tree.terminals) :
    (parse lexical preferences source).hasErrors = false := by
  obtain ⟨-, front, place, htokens, hvisible⟩ := Lexing.tokenize_visible lexical source
  obtain ⟨reporter, hstart⟩ : ∃ reporter, parseState lexical preferences source =
      (Parser.start (.ofTokens (Lexing.tokenize lexical source).tokens) preferences reporter).parseProgram :=
    ⟨_, rfl⟩
  obtain ⟨p, hready, hclean, -, hpending, -, hhistory⟩ :=
    Parser.exists_program_of_start htokens preferences reporter
  rw [hvisible, hterminals] at hpending
  obtain ⟨tree', q, hprogram, -, hq⟩ := Parsing.program_accepts htree hnesting hready hpending
  have hend : (parseState lexical preferences source).2.Clean := by
    unfold Parser.Clean at hclean ⊢
    rw [hstart, hhistory, hprogram, hq]
    exact hclean
  have hnone : (parseState lexical preferences source).2.errors = [] := by
    refine Parsing.lasting_mute.parseProgram (fun _ => ?_) hend
    unfold Parser.errors Reporter.errors
    rw [Parser.reported_ofSource lexical preferences source rfl, Lexing.heard_of_allGood hlimit hgood]
    rfl
  have hkept : (parse lexical preferences source).diagnostics = _ :=
    (parseState lexical preferences source).2.reporter.kept_eq
  unfold ParseOutcome.hasErrors
  rw [hkept, List.any_eq_false]
  intro d hd
  exact List.filter_eq_nil_iff.1 hnone d (List.mem_reverse.1 (List.mem_of_mem_take hd))

/-- A text that shows the terminals of a program is parsed without an error, unless it is too long for the
lexer. -/
theorem hasErrors_of_sees {cs : List Char} {tree : Program} (htree : tree.Grammatical)
    (hnesting : tree.nesting ≤ Limit.parseDepth) (h : Lexing.Sees cs tree.terminals)
    (hlimit : ¬ (Lexing.tokenize lexical (String.ofList cs)).Limited) :
    (parse lexical preferences (String.ofList cs)).hasErrors = false := by
  obtain ⟨all, hall, hgood, hseen⟩ := h .start
  have hcut := Lexing.cut_of_not_limited hlimit
  rw [String.toList_ofList] at hcut
  obtain rfl := hcut.unique hall
  exact hasErrors_of_terminals htree hnesting hlimit hgood hseen

end

end EvlCheck
