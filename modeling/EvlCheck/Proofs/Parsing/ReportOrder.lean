/-
Reports come in the order of the source. The lexer reports where its error tokens start, and the parser
at the token under the cursor; the tokens stand in the order of the source, and neither goes back. So
what each of them reports is in that order (`heard_inOrder`, `lasting_inOrder`), and what is shown is the
beginning of the lexer's reports followed by the parser's, while the parser remembers its last errors.
-/
import EvlCheck.Proofs.Lexing.Figures
import EvlCheck.Proofs.Parsing.Faultless
import EvlCheck.Proofs.Parsing.Halting
import EvlCheck.Proofs.Parsing.LoneStrings
import EvlCheck.Proofs.Parsing.Spans

namespace EvlCheck

/-! ## Places -/

namespace Position

theorem place_le_advance (p : Position) (c : Char) : p.place ≤ (p.advance c).place := by
  unfold place advance charInLine
  rw [Prod.Lex.toLex_le_toLex]
  split
  · exact .inl (Nat.lt_succ_self _)
  · exact .inr ⟨rfl, Nat.sub_le_sub_right (Nat.le_succ _) 1⟩

theorem place_le_advanceAll (p : Position) (cs : List Char) : p.place ≤ (p.advanceAll cs).place := by
  induction cs generalizing p with
  | nil => exact le_refl _
  | cons c cs ih => exact (p.place_le_advance c).trans (ih (p.advance c))

end Position

namespace Lexing

/-- Tokens in the order in which they start. -/
def InOrder (tokens : List SpannedToken) : Prop :=
  tokens.Pairwise fun t u => t.span.start.place ≤ u.span.start.place

theorem Cut.inOrder {Ok : PieceProp} {place : Position} {cs : List Char}
    {tokens : List SpannedToken} (h : Cut Ok place cs tokens) :
    InOrder tokens ∧ ∀ t ∈ tokens, place.place ≤ t.span.start.place := by
  induction h with
  | done place => exact ⟨List.pairwise_singleton _ _, by simp [Span.point]⟩
  | @piece place taken rest t tokens nonempty inside text ok next ih =>
    have hbehind : ∀ u ∈ tokens, place.place ≤ u.span.start.place :=
      fun u hu => (place.place_le_advanceAll taken).trans (ih.2 u hu)
    exact ⟨List.pairwise_cons.2 ⟨hbehind, ih.1⟩, List.forall_mem_cons.2 ⟨le_refl _, hbehind⟩⟩

/-- Lexing goes through the source. -/
theorem tokenize_inOrder [Build] (p : LexicalPreferences) (source : String) :
    InOrder (tokenize p source).tokens.toList := by
  by_cases hsize : source.utf8ByteSize ≤ Limit.sourceBytes
  · exact (cut_tokenize hsize).inOrder.1
  · rw [tokenize_of_large (Nat.lt_of_not_le hsize)]
    refine List.pairwise_pair.2 ?_
    exact Position.start.place_le_advanceAll _

theorem map_place_of_concerns {reports : List LexReport} {tokens : List SpannedToken}
    (h : List.Forall₂ Concerns reports tokens) :
    reports.map (·.place.place) = tokens.map (·.span.start.place) := by
  induction h with
  | nil => rfl
  | cons hr _ ih => rw [List.map_cons, List.map_cons, hr.place, ih]

end Lexing

/-- The lexer reports in the order of the source. -/
theorem heard_inOrder [Build] (p : LexicalPreferences) (source : String) :
    (TokenizedSource.heard p source).Pairwise (·.place ≤ ·.place) := by
  have herrors : Lexing.InOrder (Lexing.errorTokens (Lexing.tokenize p source).tokens) :=
    (Lexing.tokenize_inOrder p source).sublist List.filter_sublist
  have hplaces := Lexing.map_place_of_concerns (Lexing.faultByToken_tokenize p source)
  have hreports : (Lexing.tokenize p source).reports.toList.Pairwise
      fun r s => r.place.place ≤ s.place.place := by
    rw [Lexing.InOrder, ← List.pairwise_map (f := fun t : SpannedToken => t.span.start.place)
      (R := (· ≤ ·)), ← hplaces, List.pairwise_map] at herrors
    exact herrors
  unfold TokenizedSource.heard
  rw [TokenizedSource.reported_report, Reporter.reported_fresh, List.reverse_nil, List.nil_append,
    List.pairwise_map]
  exact hreports.filter _

/-! ## The cursor -/

namespace TokenStream

/-- The place of the token under the cursor. -/
def place (s : TokenStream) : Nat ×ₗ Nat := s.current.span.start.place

/-- The tokens that the parser sees are in the order of the source. -/
def Rising (s : TokenStream) : Prop :=
  Lexing.InOrder (s.significant.toList.map StreamToken.spanned)

/-- The cursor moves on in the source. -/
theorem Rising.place_le {s s' : TokenStream} (h : s.Rising)
    (hrow : s'.significant = s.significant) (hle : s.position ≤ s'.position) :
    s.place ≤ s'.place := by
  have hget := s.getElem?_position
  have hget' := s'.getElem?_position
  rw [hrow] at hget'
  rcases Nat.lt_or_eq_of_le hle with hlt | heq
  · rw [← Array.getElem?_toList, List.getElem?_eq_some_iff] at hget hget'
    obtain ⟨hbound, hcurrent⟩ := hget
    obtain ⟨hbound', hcurrent'⟩ := hget'
    have hpair := List.pairwise_iff_getElem.1 (List.pairwise_map.1 h) _ _ hbound hbound' hlt
    rw [hcurrent, hcurrent'] at hpair
    exact hpair
  · rw [← heq, hget, Option.some.injEq] at hget'
    exact (congrArg (·.span.start.place) hget').le

theorem rising_ofTokens [Build] (p : LexicalPreferences) (source : String) :
    (ofTokens (Lexing.tokenize p source).tokens).Rising := by
  obtain ⟨-, front, place, htokens, -⟩ := Lexing.tokenize_visible p source
  have horder := Lexing.tokenize_inOrder p source
  unfold Rising
  rw [map_spanned_ofTokens htokens]
  rw [htokens] at horder
  exact horder.sublist (List.filter_sublist.append_right _)

end TokenStream

/-! ## What the parser reports -/

/-- The report of an error at its own place. -/
def SyntaxError.diagnostic (e : SyntaxError) : SyntaxDiagnostic := e.report (e.span?.getD .dummy)

/-- Behind some earlier reports there are those of the parser, in order and none of them at a place
behind `place`; the errors among them are the errors that were met, and the last of these are
remembered. All three lists have the last entry first. -/
def ReportedInOrder [Build] (earlier reported : List SyntaxDiagnostic) (history : ErrorHistory)
    (place : Nat ×ₗ Nat) : Prop :=
  ∃ (told : List SyntaxDiagnostic) (met : List SyntaxError), reported = told ++ earlier ∧
    told.Pairwise (fun d d' => d'.place ≤ d.place) ∧ (∀ d ∈ told, d.place ≤ place) ∧
    told.filter (·.isError) = met.map SyntaxError.diagnostic ∧
    history.errors = (met.take Limit.errorHistory).reverse

/-- The last errors are remembered. -/
theorem ErrorHistory.record_take [Build] {h : ErrorHistory} {met : List SyntaxError}
    (hmet : h.errors = (met.take Limit.errorHistory).reverse) (e : SyntaxError) :
    (h.record e).errors = ((e :: met).take Limit.errorHistory).reverse := by
  have hlimit : Limit.errorHistory = (Limit.errorHistory - 1) + 1 :=
    (Nat.sub_add_cancel Limit.errorHistory_pos).symm
  have hnew : ((e :: met).take Limit.errorHistory).reverse =
      (met.take (Limit.errorHistory - 1)).reverse ++ [e] := by
    rw [hlimit, List.take_succ_cons, List.reverse_cons, Nat.add_sub_cancel]
  rw [hnew]
  unfold record
  split
  · next hfull =>
    rw [hmet, List.length_reverse, List.length_take] at hfull
    dsimp only
    rw [hmet, List.tail_reverse, List.dropLast_eq_take, List.take_take, List.length_take]
    congr 3
    omega
  · next hroom =>
    rw [hmet, List.length_reverse, List.length_take] at hroom
    dsimp only
    rw [hmet, List.take_of_length_le (by omega), List.take_of_length_le (by omega)]

namespace ReportedInOrder

variable [Build] {earlier reported : List SyntaxDiagnostic} {history : ErrorHistory}
  {place : Nat ×ₗ Nat}

theorem start (earlier : List SyntaxDiagnostic) (place : Nat ×ₗ Nat) :
    ReportedInOrder earlier earlier {} place :=
  ⟨[], [], rfl, .nil, fun _ hd => (nomatch hd), rfl, by rw [List.take_nil]; rfl⟩

/-- The cursor may move on. -/
theorem mono (h : ReportedInOrder earlier reported history place) {place' : Nat ×ₗ Nat}
    (hle : place ≤ place') : ReportedInOrder earlier reported history place' := by
  obtain ⟨told, met, hreported, horder, hplace, herrors, hhistory⟩ := h
  exact ⟨told, met, hreported, horder, fun d hd => (hplace d hd).trans hle, herrors, hhistory⟩

theorem warning (h : ReportedInOrder earlier reported history place) {d : SyntaxDiagnostic}
    (hd : d.isError = false) (hplace : d.place = place) :
    ReportedInOrder earlier (d :: reported) history place := by
  obtain ⟨told, met, rfl, horder, hbefore, herrors, hhistory⟩ := h
  refine ⟨d :: told, met, rfl, List.pairwise_cons.2 ⟨fun d' hd' => ?_, horder⟩, ?_, ?_, hhistory⟩
  · rw [hplace]
    exact hbefore d' hd'
  · exact List.forall_mem_cons.2 ⟨hplace.le, hbefore⟩
  · rw [List.filter_cons_of_neg (by simp [hd]), herrors]

theorem error (h : ReportedInOrder earlier reported history place) {e : SyntaxError}
    (hplace : e.diagnostic.place = place) :
    ReportedInOrder earlier (e.diagnostic :: reported) (history.record e) place := by
  obtain ⟨told, met, rfl, horder, hbefore, herrors, hhistory⟩ := h
  refine ⟨e.diagnostic :: told, e :: met, rfl, List.pairwise_cons.2 ⟨fun d' hd' => ?_, horder⟩, ?_,
    ?_, ErrorHistory.record_take hhistory e⟩
  · rw [hplace]
    exact hbefore d' hd'
  · exact List.forall_mem_cons.2 ⟨hplace.le, hbefore⟩
  · rw [List.filter_cons_of_pos rfl, herrors, List.map_cons]

end ReportedInOrder

namespace Parsing

open EvlCheck.Parser

variable [Build]

/-- From a state on, the parser reports in order. -/
structure InOrder (p₀ p : Parser) : Prop where
  onward : Onward p₀ p
  reports : ReportedInOrder p₀.reporter.reported p.reporter.reported p.history p.stream.place

variable {p₀ p : Parser}

/-- Where the cursor moves on and nothing is reported, the reports stay in order. -/
theorem InOrder.move (hrow : p₀.stream.Rising) {q : Parser} (h : InOrder p₀ p) (hq : Onward p₀ q)
    (hposition : p.position ≤ q.position) (hreported : q.reporter.reported = p.reporter.reported)
    (hhistory : q.history = p.history) : InOrder p₀ q := by
  have hrowp : p.stream.Rising := by
    unfold TokenStream.Rising
    rw [h.onward.tokens]
    exact hrow
  have hplace : p.stream.place ≤ q.stream.place :=
    hrowp.place_le (hq.tokens.trans h.onward.tokens.symm) hposition
  refine ⟨hq, ?_⟩
  rw [hreported, hhistory]
  exact h.reports.mono hplace

theorem InOrder.advance (hrow : p₀.stream.Rising) (h : InOrder p₀ p) : InOrder p₀ p.advance :=
  h.move hrow (h.onward.trans (onward_advance p)) (onward_advance p).position rfl rfl

/-- A string alone is reported where it stands. -/
theorem InOrder.reportLoneString (hindexed : p₀.stream.Indexed) (h : InOrder p₀ p) :
    InOrder p₀ p.reportLoneString := by
  have honward := h.onward.trans (onward_reportLoneString p)
  rcases reported_reportLoneString (hindexed.congr h.onward.all h.onward.tokens) with
    ⟨hsame, -⟩ | ⟨d, hd, hplace, hreported, -⟩
  · rw [hsame]
    exact h
  · refine ⟨honward, ?_⟩
    rw [hreported, history_reportLoneString, stream_reportLoneString]
    exact h.reports.warning hd hplace

/-- An error is reported at the token under the cursor. -/
theorem InOrder.reportError {e : SyntaxError} (h : InOrder p₀ p)
    (he : e.span? = some p.stream.current.span) : InOrder p₀ (p.reportError e) := by
  refine ⟨h.onward.trans (onward_reportError p e), ?_⟩
  have hreports := h.reports
  have hdiagnostic : e.diagnostic = e.report p.stream.current.span := by
    unfold SyntaxError.diagnostic
    rw [he]
    rfl
  unfold Parser.reportError
  split
  · exact hreports
  · dsimp only [Parser.log, Reporter.syntaxError]
    rw [Reporter.reported_push, he]
    have hplace : e.diagnostic.place = p.stream.place := by
      rw [hdiagnostic]
      rfl
    have herror := hreports.error hplace
    rw [hdiagnostic] at herror
    exact herror

/-- What follows a failure is reported in order. -/
theorem InOrder.afterFailure (hrow : p₀.stream.Rising) (inBlock : Bool) (start : Nat)
    {e : SyntaxError} (h : InOrder p₀ p) (he : e.span? = some p.stream.current.span) :
    InOrder p₀ (afterFailure inBlock start e p) := by
  obtain ⟨hahead, hhistory⟩ := afterFailure_ahead inBlock start e p
  refine (h.reportError he).move hrow (h.onward.trans (onward_afterFailure inBlock start e p)) ?_
    (reported_afterFailure inBlock start e p) hhistory
  unfold Parser.position
  rw [stream_reportError]
  exact hahead.position

/-- The parser reports in the order of the source. -/
theorem lasting_inOrder (hrow : p₀.stream.Rising) (hindexed : p₀.stream.Indexed) :
    Lasting (InOrder p₀) where
  log e h := ⟨(unbroken_onward p₀).log e h.onward, h.reports⟩
  record s h := ⟨(unbroken_onward p₀).record s h.onward, h.reports⟩
  advance h := h.advance hrow
  reportLoneString h := h.reportLoneString hindexed
  reportError _ h he := h.reportError he
  afterFailure inBlock start _ h he := h.afterFailure hrow inBlock start he

end Parsing

/-- Whatever is not kept is dropped. -/
theorem Reporter.dropped_eq [Build] (r : Reporter) :
    r.dropped = r.reported.length - Limit.syntaxDiagnostics := by
  have hkept := congrArg List.length r.kept_eq
  have hcounted := r.counted
  rw [List.length_take, List.length_reverse, Array.length_toList] at hkept
  omega

theorem reportedInOrder_parseProgram [Build] (lexical : LexicalPreferences)
    (preferences : ParserPreferences) (source : String) {out : Reporter}
    (hout : out.reported = []) :
    let p := (Parser.ofSource lexical preferences source out).parseProgram.2
    ReportedInOrder (TokenizedSource.heard lexical source).reverse p.reporter.reported p.history
      p.stream.place := by
  let p₀ := Parser.ofSource lexical preferences source out
  have hrow : p₀.stream.Rising := TokenStream.rising_ofTokens lexical source
  have hindexed : p₀.stream.Indexed := TokenStream.indexed_ofTokens _
  have hstart : Parsing.InOrder p₀ p₀ := ⟨.refl p₀, .start _ _⟩
  have hend := ((Parsing.lasting_inOrder hrow hindexed).parseProgram hstart).reports
  rw [Parser.reported_ofSource lexical preferences source hout] at hend
  exact hend

/-- What is shown of a source is the beginning of the lexer's reports followed by the parser's, each in
the order of the source, and the others are counted. The errors among the parser's reports are those
that it met, the last of which it remembers. -/
theorem parse_reports_inOrder [Build] (lexical : LexicalPreferences)
    (preferences : ParserPreferences) (source : String) :
    let heard := TokenizedSource.heard lexical source
    let p := (parseState lexical preferences source).2
    ∃ (told : List SyntaxDiagnostic) (met : List SyntaxError),
      p.reporter.reported.reverse = heard ++ told ∧
      (parse lexical preferences source).diagnostics =
        (heard ++ told).take Limit.syntaxDiagnostics ∧
      p.reporter.dropped = (heard ++ told).length - Limit.syntaxDiagnostics ∧
      heard.Pairwise (·.place ≤ ·.place) ∧ told.Pairwise (·.place ≤ ·.place) ∧
      told.filter (·.isError) = met.map SyntaxError.diagnostic ∧
      p.history.errors = met.drop (met.length - Limit.errorHistory) := by
  intro heard p
  have hend : ReportedInOrder heard.reverse p.reporter.reported p.history p.stream.place :=
    reportedInOrder_parseProgram lexical preferences source (Reporter.reported_log .fresh _)
  obtain ⟨told, met, hreported, horder, -, herrors, hhistory⟩ := hend
  -- The invariant has the last report first.
  have hall : p.reporter.reported.reverse = heard ++ told.reverse := by
    rw [hreported, List.reverse_append, List.reverse_reverse]
  refine ⟨told.reverse, met.reverse, hall, ?_, ?_, heard_inOrder lexical source,
    List.pairwise_reverse.2 horder, ?_, ?_⟩
  · rw [← hall]
    exact p.reporter.kept_eq
  · rw [← hall, List.length_reverse]
    exact p.reporter.dropped_eq
  · rw [List.filter_reverse, herrors, List.map_reverse]
  · rw [hhistory, List.reverse_take, List.length_reverse]

end EvlCheck
