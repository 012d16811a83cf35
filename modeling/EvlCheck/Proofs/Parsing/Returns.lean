/-
Parsing does not depend on carriage returns in front of line feeds. The two streams hold the same
tokens at the same indices, in the same lines and columns; only byte offsets differ, and the texts of
blanks, which no rule looks at. Offsets are compared where two spans are merged, but the tokens of each
stream are in order, so that the merged span runs from the first to the last in both.
-/
import EvlCheck.Proofs.Lexing.Returns
import EvlCheck.Proofs.Parsing.Faultless
import EvlCheck.Proofs.Parsing.Lockstep
import EvlCheck.Proofs.Parsing.Spans

namespace EvlCheck

/-! ## Streams -/

namespace TokenStream

/-- The tokens before the last stand one behind the other. -/
def InOrder (s : TokenStream) : Prop :=
  ∃ tokens last, s.significant.toList.map StreamToken.spanned = tokens ++ [last] ∧ Ordered tokens

theorem InOrder.congr {s s' : TokenStream} (h : s.InOrder) (hrow : s'.significant = s.significant) :
    s'.InOrder := by
  unfold InOrder
  rw [hrow]
  exact h

/-- From an earlier token the span runs to the last token before the cursor. -/
theorem InOrder.spanFrom_of_lt {s : TokenStream} (h : s.InOrder) {first : Nat}
    (hlt : first < s.position) :
    ∃ t u, s.significant[first]? = some t ∧ s.significant[s.position - 1]? = some u ∧
      s.spanFrom first = ⟨t.span.start, u.span.stop⟩ := by
  obtain ⟨tokens, last, hrow, hordered⟩ := h
  have hsize := congrArg List.length hrow
  rw [List.length_map, Array.length_toList, List.length_append, List.length_singleton] at hsize
  have hp := s.position_lt
  have hfirst : first < s.significant.size := by omega
  have hlast : s.position - 1 < s.significant.size := by omega
  have ht : s.significant[first]? = some s.significant[first] := Array.getElem?_eq_getElem hfirst
  have hu : s.significant[s.position - 1]? = some s.significant[s.position - 1] :=
    Array.getElem?_eq_getElem hlast
  refine ⟨_, _, ht, hu, ?_⟩
  unfold spanFrom spanAt?
  rw [ht, hu, Option.map_some, Option.map_some]
  dsimp only
  rw [if_pos hlt]
  exact hordered.merge_eq (Node.getElem?_of_row hrow (by omega) ht)
    (Node.getElem?_of_row hrow (by omega) hu) (by omega)

/-- From the cursor on it is a point, at the token or, beyond the last one, at the cursor. -/
theorem spanFrom_of_le {s : TokenStream} {first : Nat} (hle : s.position ≤ first) :
    s.spanFrom first = .point (s.significant[first]?.getD s.current).span.start := by
  unfold spanFrom spanAt?
  cases s.significant[first]? with
  | none => rfl
  | some t =>
    dsimp only [Option.map_some, Option.getD_some]
    rw [if_neg (Nat.not_lt.2 hle)]

/-- Two streams at the same place, with the same tokens in the same lines and columns. -/
structure Abreast (s s' : TokenStream) : Prop where
  all : s.all.toList.map SpannedToken.seen = s'.all.toList.map SpannedToken.seen
  row : s.significant.toList.map (StreamToken.mapSpan Span.onGrid) =
    s'.significant.toList.map (StreamToken.mapSpan Span.onGrid)
  position : s.position = s'.position
  inOrder : s.InOrder
  inOrder' : s'.InOrder

namespace Abreast

variable {s s' : TokenStream} (h : Abreast s s')
include h

theorem size : s.size = s'.size := by
  have hlength := congrArg List.length h.row
  rwa [List.length_map, List.length_map, Array.length_toList, Array.length_toList] at hlength

theorem getElem? (i : Nat) :
    s.significant[i]?.map (StreamToken.mapSpan Span.onGrid) =
      s'.significant[i]?.map (StreamToken.mapSpan Span.onGrid) := by
  have hrow := congrArg (·[i]?) h.row
  simpa only [List.getElem?_map, Array.getElem?_toList] using hrow

theorem current : s.current.mapSpan Span.onGrid = s'.current.mapSpan Span.onGrid := by
  have hcurrent := h.getElem? s.position
  rw [s.getElem?_position, h.position, s'.getElem?_position] at hcurrent
  exact Option.some.inj hcurrent

theorem peek (n : Nat) :
    (s.peek n).mapSpan Span.onGrid = (s'.peek n).mapSpan Span.onGrid := by
  have hclamped : ∀ s : TokenStream,
      s.significant[min (s.position + n) (s.size - 1)]? = some (s.peek n) := by
    intro s
    have hsize := s.size_pos
    unfold TokenStream.peek clamped
    rw [Array.getElem?_eq_getElem]
  have hpeek := h.getElem? (min (s.position + n) (s.size - 1))
  rw [hclamped s, h.position, h.size, hclamped s'] at hpeek
  exact Option.some.inj hpeek

theorem spanFrom (first : Nat) : (s.spanFrom first).onGrid = (s'.spanFrom first).onGrid := by
  have hfirst := h.getElem? first
  by_cases hlt : first < s.position
  · have hlast := h.getElem? (s.position - 1)
    rw [h.position] at hlast
    obtain ⟨t, u, ht, hu, hspan⟩ := h.inOrder.spanFrom_of_lt hlt
    obtain ⟨t', u', ht', hu', hspan'⟩ := h.inOrder'.spanFrom_of_lt (h.position ▸ hlt)
    rw [ht, ht'] at hfirst
    rw [← h.position] at hlast hu'
    rw [hu, hu'] at hlast
    have hstart := congrArg (·.span.start) (Option.some.inj hfirst)
    have hstop := congrArg (·.span.stop) (Option.some.inj hlast)
    rw [hspan, hspan']
    exact congrArg₂ Span.mk hstart hstop
  · have hle := Nat.not_lt.1 hlt
    have hat : (s.significant[first]?.getD s.current).mapSpan Span.onGrid =
        (s'.significant[first]?.getD s'.current).mapSpan Span.onGrid := by
      rw [← Option.getD_map (StreamToken.mapSpan Span.onGrid), hfirst, h.current, Option.getD_map]
    rw [spanFrom_of_le hle, spanFrom_of_le (h.position ▸ hle)]
    exact congrArg (fun t : StreamToken => Span.point t.span.start) hat

end Abreast

/-! ## Moves -/

theorem position_advance_eq (s : TokenStream) :
    s.advance.position =
      if s.atEnd then s.position else if s.position + 1 < s.size then s.position + 1 else s.position := by
  unfold TokenStream.advance
  split
  · rfl
  · unfold TokenStream.size
    split <;> rfl

namespace Abreast

variable {s s' : TokenStream} (h : Abreast s s')
include h

theorem value : s.current.value = s'.current.value :=
  (congrArg StreamToken.value h.current :)

theorem span : s.current.span.onGrid = s'.current.span.onGrid :=
  (congrArg StreamToken.span h.current :)

theorem next : (s.peek 1).value = (s'.peek 1).value :=
  (congrArg StreamToken.value (h.peek 1) :)

theorem atEnd : s.atEnd = s'.atEnd := congrArg Token.isEof h.value

/-- The places of all tokens are the same, not only of those that the parser sees. -/
theorem placeAt? (i : Nat) :
    s.all[i]?.map (·.span.start.onGrid) = s'.all[i]?.map (·.span.start.onGrid) := by
  have hall := congrArg (·[i]?.map (·.span.start)) h.all
  simp only [List.getElem?_map, Array.getElem?_toList, Option.map_map] at hall
  exact hall

theorem lineAt? (i : Nat) : s.lineAt? i = s'.lineAt? i := by
  have hplace := congrArg (Option.map Position.line) (h.placeAt? i)
  rwa [Option.map_map, Option.map_map] at hplace

theorem columnAt? (i : Nat) : s.columnAt? i = s'.columnAt? i := by
  have hplace := congrArg (Option.map Position.charInLine) (h.placeAt? i)
  rwa [Option.map_map, Option.map_map] at hplace

theorem advance : Abreast s.advance s'.advance where
  all := by rw [all_advance, all_advance, h.all]
  row := by rw [significant_advance, significant_advance, h.row]
  position := by rw [position_advance_eq, position_advance_eq, h.atEnd, h.position, h.size]
  inOrder := h.inOrder.congr s.significant_advance
  inOrder' := h.inOrder'.congr s'.significant_advance

theorem skipToEnd : Abreast (Parser.skipToEnd s) (Parser.skipToEnd s') := by
  have hgo : ∀ (n : Nat) {s s' : TokenStream}, Abreast s s' →
      Abreast (Parser.skipToEnd.go n s) (Parser.skipToEnd.go n s') := by
    intro n
    induction n with
    | zero => exact fun h => h
    | succ n ih =>
      intro s s' h
      unfold Parser.skipToEnd.go
      rw [h.atEnd]
      split
      · exact h
      · exact ih h.advance
  unfold Parser.skipToEnd
  rw [h.size]
  exact hgo _ h

theorem canResume [Build] (inBlock : Bool) :
    Parser.canResume inBlock s = Parser.canResume inBlock s' := by
  have hcheck : s.check (.symbol .rightBrace) = s'.check (.symbol .rightBrace) :=
    congrArg (Token.sameKind · (.symbol .rightBrace)) h.value
  unfold Parser.canResume Parser.atStatementStart
  rw [Parser.tokenAhead_one, Parser.tokenAhead_one, h.atEnd, h.value, hcheck, h.next]

/-- Recovery finds a place in both streams or in neither. -/
theorem resume? [Build] (inBlock : Bool) (reach : Nat) :
    (Parser.resume? inBlock reach s = none ∧ Parser.resume? inBlock reach s' = none) ∨
      ∃ t t', Parser.resume? inBlock reach s = some t ∧ Parser.resume? inBlock reach s' = some t' ∧
        Abreast t t' := by
  induction reach generalizing s s' with
  | zero =>
    unfold Parser.resume?
    rw [h.canResume]
    split
    · exact .inr ⟨s, s', rfl, rfl, h⟩
    · exact .inl ⟨rfl, rfl⟩
  | succ reach ih =>
    unfold Parser.resume?
    rw [h.canResume]
    split
    · exact .inr ⟨s, s', rfl, rfl, h⟩
    · exact ih h.advance

end Abreast

end TokenStream

/-! ## Parses -/

namespace Parser

/-- Two parses with the same preferences, at the same place of streams that run abreast, of which the
same was reported. -/
structure Abreast [Build] (p q : Parser) : Prop where
  stream : p.stream.Abreast q.stream
  preferences : p.preferences = q.preferences
  halted : p.halted = q.halted
  reported : p.reporter.reported = q.reporter.reported

namespace Abreast

variable [Build] {p q : Parser} (h : Abreast p q)
include h

theorem reportError {e e' : SyntaxError} (he : e.mapSpan Span.onGrid = e'.mapSpan Span.onGrid) :
    Abreast (p.reportError e) (q.reportError e') := by
  have hspan : (e.span?.getD p.stream.current.span).onGrid =
      (e'.span?.getD q.stream.current.span).onGrid := by
    have hown := congrArg SyntaxError.span? he
    rw [SyntaxError.span?_mapSpan, SyntaxError.span?_mapSpan] at hown
    rw [← Option.getD_map Span.onGrid, hown, h.stream.span, Option.getD_map]
  have hmessage := congrArg SyntaxError.message he
  have hoffending := congrArg SyntaxError.offending? he
  rw [SyntaxError.message_mapSpan, SyntaxError.message_mapSpan] at hmessage
  rw [SyntaxError.offending?_mapSpan, SyntaxError.offending?_mapSpan] at hoffending
  have hline := congrArg (·.start.line) hspan
  have hcolumn := congrArg (·.start.charInLine) hspan
  unfold Parser.reportError
  rw [h.halted]
  split
  · exact h
  · refine ⟨h.stream, h.preferences, h.halted, ?_⟩
    have hreport : Reporter.errorReport e.offending? (e.span?.getD p.stream.current.span).start.line
        (e.span?.getD p.stream.current.span).start.charInLine e.message =
        Reporter.errorReport e'.offending? (e'.span?.getD q.stream.current.span).start.line
        (e'.span?.getD q.stream.current.span).start.charInLine e'.message := by
      rw [hoffending, hmessage]
      exact congrArg₂ (fun line column => Reporter.errorReport _ line column _) hline hcolumn
    dsimp only [Reporter.syntaxError, Parser.log]
    rw [Reporter.reported_push, Reporter.reported_push, Reporter.reported_log, Reporter.reported_log,
      h.reported, hreport]

theorem recover (inBlock : Bool) : Abreast (p.recover inBlock) (q.recover inBlock) := by
  have hrecovery := congrArg ParserPreferences.recovery h.preferences
  unfold Parser.recover
  rw [hrecovery]
  split
  · exact ⟨h.stream.skipToEnd, h.preferences, rfl, h.reported⟩
  · rcases h.stream.resume? inBlock Limit.recoveryScan with ⟨hs, hs'⟩ | ⟨t, t', hs, hs', htt⟩
    · rw [hs, hs']
      exact ⟨h.stream.skipToEnd, h.preferences, h.halted, h.reported⟩
    · rw [hs, hs']
      exact ⟨htt, h.preferences, h.halted, h.reported⟩

theorem reportLoneString : Abreast p.reportLoneString q.reportLoneString := by
  have hstart : p.stream.current.index = q.stream.current.index :=
    (congrArg StreamToken.index h.stream.current :)
  have hstop : (p.stream.peek 1).index = (q.stream.peek 1).index :=
    (congrArg StreamToken.index (h.stream.peek 1) :)
  have hpreference := congrArg ParserPreferences.reportAmbiguities h.preferences
  unfold Parser.reportLoneString
  rw [hpreference, h.halted]
  split
  · exact h
  · refine ⟨h.stream, h.preferences, h.halted, ?_⟩
    dsimp only [Reporter.ambiguity, Parser.log]
    rw [Reporter.reported_push, Reporter.reported_push, Reporter.reported_log, Reporter.reported_log,
      Reporter.reported_log, Reporter.reported_log, h.reported, hstart, hstop, h.stream.lineAt?,
      h.stream.columnAt?]

end Abreast

/-- Whatever the parses do, they stay abreast. -/
theorem lockstep_abreast [Build] : Lockstep Span.onGrid Abreast where
  value h := h.stream.value
  span h := h.stream.span
  next h := h.stream.next
  position h := h.stream.position
  size h := h.stream.size
  spanFrom first h := h.stream.spanFrom first
  log _ _ h := ⟨h.stream, h.preferences, h.halted, h.reported⟩
  record _ _ h := ⟨h.stream, h.preferences, h.halted, h.reported⟩
  advance h := ⟨h.stream.advance, h.preferences, h.halted, h.reported⟩
  reportLoneString h := h.reportLoneString
  reportError h he := h.reportError he
  recover inBlock h := h.recover inBlock

end Parser

/-! ## The two sources -/

namespace TokenStream

/-- What the parser sees of tokens depends on what is seen of them in lines and columns. -/
theorem map_significantTokens (tokens : Array SpannedToken) :
    (significantTokens tokens).toList.map (StreamToken.mapSpan Span.onGrid) =
      (significantTokens (tokens.map SpannedToken.seen)).toList := by
  have hlist : ∀ (l : List SpannedToken) (k : Nat),
      ((l.zipIdx k).filterMap fun x =>
        if x.1.value.isSignificant then some (StreamToken.mk x.2 x.1.value x.1.span) else none).map
          (StreamToken.mapSpan Span.onGrid) =
        ((l.map SpannedToken.seen).zipIdx k).filterMap fun x =>
          if x.1.value.isSignificant then some (StreamToken.mk x.2 x.1.value x.1.span) else none := by
    intro l
    induction l with
    | nil => intro k; rfl
    | cons t l ih =>
      intro k
      obtain ⟨value, span⟩ := t
      have hnext := ih (k + 1)
      cases value with
      | whitespace | lineComment | blockComment | error => exact hnext
      | _ => exact congrArg (List.cons _) hnext
  simpa [significantTokens] using hlist tokens.toList 0

theorem abreast_ofTokens {tokens tokens' : Array SpannedToken} {front front' : List SpannedToken}
    {place place' : Span} (h : tokens.toList = front ++ [⟨.eof, place⟩])
    (h' : tokens'.toList = front' ++ [⟨.eof, place'⟩])
    (hseen : tokens.toList.map SpannedToken.seen = tokens'.toList.map SpannedToken.seen)
    (hordered : Ordered (front.filter (·.value.isSignificant)))
    (hordered' : Ordered (front'.filter (·.value.isSignificant))) :
    Abreast (ofTokens tokens) (ofTokens tokens') := by
  have hall := hseen
  rw [h, h', List.map_append, List.map_append] at hseen
  obtain ⟨hfront, hplace⟩ := List.append_inj' hseen rfl
  have hlast : place.onGrid = place'.onGrid :=
    congrArg Spanned.span (List.singleton_inj.1 hplace)
  have hlength : front.length = front'.length := by
    simpa only [List.length_map] using congrArg List.length hfront
  refine ⟨?_, ?_, ?_, ⟨_, _, map_spanned_ofTokens h, hordered⟩, ⟨_, _, map_spanned_ofTokens h', hordered'⟩⟩
  · rw [ofTokens_eq h, ofTokens_eq h']
    simpa [ofFront, h, h'] using hall
  · have hsignificant := map_significantTokens front.toArray
    have hsignificant' := map_significantTokens front'.toArray
    rw [List.map_toArray, hfront, ← List.map_toArray, ← hsignificant'] at hsignificant
    rw [ofTokens_eq h, ofTokens_eq h']
    simp only [ofFront, Array.toList_push, List.map_append, hsignificant, List.map_singleton,
      StreamToken.mapSpan, hlast, List.size_toArray, hlength]
  · rw [position_ofTokens, position_ofTokens]

end TokenStream

/-- Parses of two sources begin abreast if their streams do and the lexer reports the same. -/
theorem Parser.abreast_ofSource [Build] {lexical : LexicalPreferences}
    {preferences : ParserPreferences} {source source' : String} {out out' : Reporter}
    (hstream : (TokenStream.ofTokens (Lexing.tokenize lexical source).tokens).Abreast
      (.ofTokens (Lexing.tokenize lexical source').tokens))
    (hheard : TokenizedSource.heard lexical source = TokenizedSource.heard lexical source')
    (hout : out.reported = []) (hout' : out'.reported = []) :
    Parser.Abreast (.ofSource lexical preferences source out)
      (.ofSource lexical preferences source' out') where
  stream := hstream
  preferences := Eq.refl preferences
  halted := Eq.refl false
  reported := by rw [reported_ofSource _ _ _ hout, reported_ofSource _ _ _ hout', hheard]

theorem exists_parseState [Build] (lexical : LexicalPreferences) (preferences : ParserPreferences)
    (source : String) :
    ∃ out : Reporter, out.reported = [] ∧ parseState lexical preferences source =
      (Parser.ofSource lexical preferences source out).parseProgram :=
  ⟨_, Reporter.reported_log _ _, rfl⟩

theorem parse_eq [Build] (lexical : LexicalPreferences) (preferences : ParserPreferences)
    (source : String) :
    parse lexical preferences source =
      ⟨(parseState lexical preferences source).1,
        (parseState lexical preferences source).2.reporter.kept.toList,
        (parseState lexical preferences source).2.stream.size,
        (parseState lexical preferences source).2.reporter.journal⟩ := by
  unfold parse
  generalize parseState lexical preferences source = ended
  rfl

/-- Where no limit stops the lexing and there is no block comment, closed or not, parsing is not
sensitive to carriage returns: with one in front of each line feed a source has the same diagnostics,
in the same order, and the same number of tokens, and its tree is the same but for byte offsets. -/
theorem parse_withReturns [Build] (lexical : LexicalPreferences) (preferences : ParserPreferences)
    (source : String) (hlimit : ¬ (Lexing.tokenize lexical source).Limited)
    (hlimit' : ¬ (Lexing.tokenize lexical (Lexing.sourceWithReturns source)).Limited)
    (hclosed : ∀ t ∈ (Lexing.tokenize lexical source).tokens, ∀ text, t.value ≠ .blockComment text)
    (hopen : ∀ r ∈ (Lexing.tokenize lexical source).reports, r.fault ≠ .unterminatedComment) :
    let plain := parse lexical preferences source
    let returned := parse lexical preferences (Lexing.sourceWithReturns source)
    returned.diagnostics = plain.diagnostics ∧ returned.tokenCount = plain.tokenCount ∧
      returned.tree.mapSpan Span.onGrid = plain.tree.mapSpan Span.onGrid := by
  dsimp only
  have hcomment := Lexing.commentless_tokenize hlimit hclosed hopen
  obtain ⟨hordered, front, place, htokens, hvisible⟩ := Lexing.tokenize_visible lexical source
  obtain ⟨hordered', front', place', htokens', hvisible'⟩ :=
    Lexing.tokenize_visible lexical (Lexing.sourceWithReturns source)
  rw [← hvisible] at hordered
  rw [← hvisible'] at hordered'
  -- The two streams are abreast and the lexer reports the same, so the parsers run in lockstep.
  have hstream := TokenStream.abreast_ofTokens htokens htokens'
    (Lexing.seen_tokenize hlimit hlimit' hcomment) hordered hordered'
  have hheard := Lexing.heard_tokenize hlimit hlimit' hcomment
  obtain ⟨out, hout, hplain⟩ := exists_parseState lexical preferences source
  obtain ⟨out', hout', hreturned⟩ :=
    exists_parseState lexical preferences (Lexing.sourceWithReturns source)
  have hstart : (Parser.ofSource lexical preferences source out).Abreast
      (.ofSource lexical preferences (Lexing.sourceWithReturns source) out') :=
    Parser.abreast_ofSource hstream hheard hout hout'
  have hrun := Parser.lockstep_abreast.parseProgram hstart
  rw [← hplain, ← hreturned] at hrun
  obtain ⟨htree, hend⟩ := hrun
  rw [parse_eq, parse_eq]
  dsimp only
  rw [Reporter.kept_eq, Reporter.kept_eq, hend.reported]
  exact ⟨rfl, hend.stream.size.symm, htree.symm⟩

/-- A text with a character that begins no word, an expression that is not closed, an open string that
ends in a backslash, and strings that are printed alone. -/
theorem parse_withReturns_open_string :
    let source := "float é = 1.5 * (x\nint y = ; # \"a\\\nprint(\"b\",\t\"c\")\n\n// d"
    ¬ (Lexing.tokenize {} source).Limited ∧
    ¬ (Lexing.tokenize {} (Lexing.sourceWithReturns source)).Limited ∧
    (∀ t ∈ (Lexing.tokenize {} source).tokens, ∀ text, t.value ≠ .blockComment text) ∧
    (∀ r ∈ (Lexing.tokenize {} source).reports, r.fault ≠ .unterminatedComment) ∧
    let plain := parse {} {} source
    let returned := parse {} {} (Lexing.sourceWithReturns source)
    returned.diagnostics = plain.diagnostics ∧ returned.tokenCount = plain.tokenCount ∧
      returned.tree.mapSpan Span.onGrid = plain.tree.mapSpan Span.onGrid := by
  intro source
  have hlimit : ¬ (Lexing.tokenize {} source).Limited := by
    unfold TokenizedSource.Limited
    decide +kernel
  have hlimit' : ¬ (Lexing.tokenize {} (Lexing.sourceWithReturns source)).Limited := by
    unfold TokenizedSource.Limited
    decide +kernel
  have hclosed : ∀ t ∈ (Lexing.tokenize {} source).tokens, ∀ text, t.value ≠ .blockComment text := by
    have hkinds : ∀ t ∈ (Lexing.tokenize {} source).tokens,
        t.value.sameKind (.blockComment "") = false := by decide +kernel
    intro t ht text hvalue
    have hkind := hkinds t ht
    rw [hvalue] at hkind
    cases hkind
  have hopen : ∀ r ∈ (Lexing.tokenize {} source).reports, r.fault ≠ .unterminatedComment := by
    decide +kernel
  exact ⟨hlimit, hlimit', hclosed, hopen, parse_withReturns {} {} source hlimit hlimit' hclosed hopen⟩

end EvlCheck
