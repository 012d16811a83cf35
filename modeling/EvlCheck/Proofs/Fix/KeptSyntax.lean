/-
Fixes keep the syntax. A text is parsed without an error when it shows the terminals of a program, and the
place of a statement on a line of its own can be filled with other statements. So it is enough to know what
each fix leaves in the place of such a line: a statement again, a declaration in front of it, a `try` around
it, or nothing. The fixes search the raw line without a look at nesting, strings and comments. Where this
takes a piece out of the middle of an expression, the line that is left is none of the language.
-/
import EvlCheck.Proofs.Check.MentionedNames
import EvlCheck.Proofs.Fix.KeptStatement
import EvlCheck.Proofs.Parsing.SeenSource
import EvlCheck.Proofs.Tree.Slot

namespace EvlCheck

open Text Check Lexing

/-! ## When a fix keeps the syntax -/

/-- When the line is one that the fixes on a topic read as it is meant: a text that is searched for has no
quotes, the arguments of a call have no parentheses, and behind a value that is changed there is no
comment. -/
def Check.Topic.Spares (line : List Char) : Topic → Prop
  | .undeclared | .castMismatch => '"' ∉ line
  | .invalidTarget => '"' ∉ line ∧ line.count '(' ≤ 1
  | .mixedTypes => '"' ∉ line ∧ line.count '(' ≤ 1 ∧ line.count ')' ≤ 1
  | .intLiteral | .floatLiteral | .floatVariable | .conversion => beforeComment line = line
  | .alwaysFloat | .floatFromArguments | .division | .repeated | .valueless | .nameless | .tooFew | .tooMany
  | .unknownFunction | .unrecognized => True

/-- On its line a statement without a block stands alone: the other tokens of the program are on lines above
and below, and no comment is on the line. -/
structure Stmt.AloneOn (st : Stmt) (tokens : List SpannedToken) (program : Program) (n : Nat) (slot : Slot) :
    Prop where
  simple : st.isSimple = true
  statements_eq : program.statements = slot.fill [st]
  above : visibleAbove tokens n = slot.front
  on : visibleOn tokens n = st.terminals
  comments : CommentFree tokens n

/-! ## Texts of lines -/

/-- A text without faults shows what the parser sees of it. -/
theorem Lexing.sees_of_heard [Build] {cs : List Char} {ts : List Token}
    (h : TokenizedSource.heard {} (String.ofList cs) = [] ∧
      (tokenize {} (String.ofList cs)).visible.map (·.value) = ts) : Sees cs ts := by
  obtain ⟨hlimit, hgood⟩ := faultless_of_heard rfl h.1
  have hcut := cut_of_not_limited hlimit
  rw [String.toList_ofList] at hcut
  rw [← h.2]
  exact hcut.sees hgood

/-- The statement that a division is wrapped in. -/
def Stmt.guarded (st : Stmt) : Stmt :=
  .tryCatch (.mk [st] .dummy) (some "e")
    (.mk [.print [.string "\"Error: Division by zero!\"" .dummy] .dummy] .dummy) .dummy

theorem Stmt.one_le_nesting (st : Stmt) : 1 ≤ st.nesting := by
  cases st <;> simp [Stmt.nesting]

theorem Stmt.nesting_guarded (st : Stmt) : st.guarded.nesting = st.nesting + 2 := by
  have := st.one_le_nesting
  simp only [guarded, Stmt.nesting, Block.nesting, Stmt.listNesting, PrintArg.listNesting, PrintArg.nesting,
    List.foldr]
  omega

theorem Stmt.grammatical_guarded {st : Stmt} (h : st.Grammatical) : st.guarded.Grammatical := by
  simp only [guarded, Stmt.Grammatical, Block.Grammatical, Stmt.ListGrammatical]
  refine ⟨⟨h, trivial⟩, ⟨List.cons_ne_nil _ _, ?_⟩, trivial⟩
  rw [List.forall_mem_singleton]
  trivial

/-- A line in the body of a `try`. -/
theorem Lexing.Run.sees_wrapped {line g : List Char} {st : Stmt} (h : Run none line st.terminals)
    (hg : ∀ c ∈ g, isGap c = true) : Sees (Spot.wrapped line ++ g) st.guarded.terminals := by
  have htry : Sees "try \x7b".toList [.keyword .try, .symbol .leftBrace] := sees_of_heard (by decide +kernel)
  have hturn : Sees (Bracing.catchLine ['e'])
      (.symbol .rightBrace :: (catchTerminals (some "e") ++ [.symbol .leftBrace])) :=
    sees_of_heard (by decide +kernel)
  have hprint : Sees Spot.handlerLine [.keyword .print, .symbol .leftParen,
      .string "\"Error: Division by zero!\"", .symbol .rightParen] := sees_of_heard (by decide +kernel)
  have hbody : Sees (FixSite.wrapIndent.toList ++ trim line) st.terminals :=
    (Run.blanks (List.all_iff_forall_prop.1 (by decide)) h.of_trim).sees
  have hend : Sees (['\x7d'] ++ g) [.symbol .rightBrace] :=
    (Run.blanks_behind hg (@Run.single none _ _ (.symbol .rightBrace) rfl (by simp))).sees
  rw [Spot.wrapped_append]
  have hall := htry.line (hbody.line (hturn.line (hprint.line hend)))
  rw [Stmt.guarded, Stmt.terminals_tryCatch]
  simpa [Block.terminals, Stmt.listTerminals, Stmt.terminals, PrintArg.listTerminals, PrintArg.moreTerminals,
    PrintArg.terminals] using hall

/-- A declaration of a name with a value. -/
theorem run_declarationText {type : ValueType} {name : String} {literal : List Char} {value : Expr}
    (hname : Spells name.toList (.identifier name)) (hvalue : Run none literal value.terminals) :
    Run none (declarationText type name.toList literal) (Stmt.varDecl ⟨type, name, value, .dummy⟩).terminals := by
  obtain ⟨c, cs, htext, -, htype⟩ := spells_type type
  have hparts : ∀ {w rest : List Char} {t : Token}, Spells w t → t.isSignificant = true →
      ∀ d ∈ (' ' :: rest).head?.or none, Parts w d := by
    intro w rest t hw ht d hd
    cases hd
    exact separates_gap rfl w t hw ht
  have hassign : " = ".toList ++ literal = ' ' :: (['='] ++ ' ' :: literal) := by
    rw [String.toList_ofList]
    rfl
  unfold declarationText
  rw [htext, hassign]
  exact .word htype rfl (hparts htype rfl) (.blank rfl (.word hname rfl (hparts hname rfl) (.blank rfl
    (.word (.symbol .assign) rfl (hparts (.symbol .assign) rfl) (.blank rfl hvalue)))))

theorem Expr.mem_terminals_of_mem_names {e : Expr} {name : String} (h : name ∈ e.names) :
    .identifier name ∈ e.terminals := by
  induction e with
  | unaryMinus e s ih => exact .tail _ (ih h)
  | paren e s ih => exact .tail _ (List.mem_append_left _ (ih h))
  | cast e t s ih | unaryCall f e s ih => exact .tail _ (.tail _ (List.mem_append_left _ (ih h)))
  | binaryCall f a b s iha ihb =>
    refine .tail _ (.tail _ ?_)
    rcases List.mem_append.1 h with h | h
    · exact List.mem_append_left _ (iha h)
    · exact List.mem_append_right _ (.tail _ (List.mem_append_left _ (ihb h)))
  | binary op opSpan a b s iha ihb =>
    rcases List.mem_append.1 h with h | h
    · exact List.mem_append_left _ (iha h)
    · exact List.mem_append_right _ (.tail _ (ihb h))
  | name n s =>
    cases List.mem_singleton.1 h
    exact List.mem_cons_self
  | _ => cases h

namespace Spot

variable [Build] {source : List Char} {d : Diagnostic} {line : List Char} (s : Spot source d line)

/-- A name that is not declared is one of the language. -/
theorem spells_undeclared {st : Stmt} (hsimple : st.isSimple = true) (h : Run none line st.terminals)
    (hquote : '"' ∉ line) {name : String} (hname : s.complaint = .undeclared name) :
    Spells name.toList (.identifier name) := by
  have hstring := h.ne_string hquote
  obtain ⟨e, form, mem⟩ : ∃ e, lineForm (statementOf line) = .declaration e ∧
      name ∈ undeclaredNames (Script.ofSource source).symbols e.name (trim e.value) := by
    obtain ⟨e, name, mem, form, heq⟩ := Walk.exists_undeclared s.mem (by rw [hname]; rfl)
    cases hname.symm.trans heq
    exact ⟨e, form, mem⟩
  obtain ⟨constant, declared, hdeclared⟩ : ∃ constant declared, st.declared? = some (constant, declared) := by
    rcases s.lineForm_cases hsimple h with ⟨constant, declared, -, hdeclared, -⟩ | hform | ⟨value, hform⟩
    · exact ⟨constant, declared, hdeclared⟩
    · rw [form] at hform
      cases hform
    · rw [form] at hform
      cases hform
  have hwords : Words [] (statementOf line) st.terminals := by
    rw [← normalizeLine_ended s.around.ending_eq s.bare]
    exact words_normalizeLine (h.blanks_behind s.gap_ending).lineReads st.terminals_ne_nil
      fun t ht text htext => absurd htext (hstring t ht text)
  obtain ⟨⟨value, hdeclaration, hvalue⟩, -⟩ := declaration?_words hdeclared hwords
  obtain rfl := Option.some.inj ((declaration?_of_lineForm form).symm.trans hdeclaration)
  dsimp only at mem
  rw [hvalue.tight.trim, undeclaredNames_words hvalue
    fun t ht => hstring t (Stmt.mem_terminals_of_declared? hdeclared ht)] at mem
  have hterminal := Expr.mem_terminals_of_mem_names (List.mem_of_mem_filter mem)
  obtain ⟨w, hw, -⟩ := h.exists_word (Stmt.mem_terminals_of_declared? hdeclared hterminal)
  have htext : name = String.ofList w := hw.text_eq
  rw [htext, String.toList_ofList]
  exact htext ▸ hw

/-! ## What a fix leaves -/

/-- The edits can be made, and leave lines of statements in the place of the line, or nothing. -/
inductive Leaves (edits : List Edit) (depth : Nat) : Prop
  | lines {new : List Char} {ss : List Stmt}
      (made : applyEdits source edits = .ok (s.before ++ new ++ s.terminator ++ s.after))
      (sees : ∀ g, (∀ c ∈ g, isGap c = true) → Sees (new ++ g) (Stmt.listTerminals ss))
      (good : Stmt.ListGrammatical ss) (nesting : Stmt.listNesting ss ≤ depth)
  | nothing (made : applyEdits source edits = .ok (s.before ++ s.after))

namespace Leaves

variable {s} {depth : Nat} {version : Nat}

/-- One statement in the place of the line. -/
theorem of_sees {title : String} {new : List Char} {preferred : Bool} {st : Stmt}
    (hsees : ∀ g, (∀ c ∈ g, isGap c = true) → Sees (new ++ g) st.terminals) (hgood : st.Grammatical)
    (hnesting : st.nesting ≤ depth) :
    s.Leaves (FixSite.replaceLine ⟨d, line, version⟩ title new preferred).edits depth := by
  refine @lines _ _ _ _ _ _ _ new [st] ?_ (fun g hg => ?_) ⟨hgood, trivial⟩
    (Nat.max_le.2 ⟨hnesting, Nat.zero_le _⟩)
  · rw [FixSite.replaceLine, CodeAction.quickFix, applyEdits_wholeLine s.lineAt, String.toList_ofList]
  · rw [Stmt.listTerminals_single]
    exact hsees g hg

theorem of_rewrites {a : CodeAction} (h : FixSite.Rewrites ⟨d, line, version⟩ a depth) :
    s.Leaves a.edits (depth + 1) := by
  obtain ⟨title, text, preferred, rfl, st, hrun, hgood, hnesting⟩ := h
  exact of_sees (fun g hg => (hrun.blanks_behind hg).sees) hgood (Nat.le_succ_of_le hnesting)

end Leaves

section

variable {version : Nat} {a : CodeAction} {st : Stmt} (hsimple : st.isSimple = true)
  (hgood : st.Grammatical) (h : Run none line st.terminals)
include hsimple hgood h

/-- A declaration in front of the line. -/
theorem leaves_declareIdentifier (ht : s.complaint.topic = .undeclared) (hquote : '"' ∉ line)
    (ha : a ∈ FixSite.declareIdentifier ⟨d, line, version⟩) : s.Leaves a.edits (st.nesting + 2) := by
  obtain ⟨name, hname, hmention⟩ := s.exists_undeclared ht
  have hspells := s.spells_undeclared hsimple h hquote hname
  unfold FixSite.declareIdentifier at ha
  rw [FixSite.message, hmention] at ha
  simp only [List.map_cons, List.map_nil, List.mem_pair, String.ofList_toList] at ha
  obtain ⟨type, literal, value, text, hvalue, hfits, hnesting, htext, hedits⟩ :
      ∃ (type : ValueType) (literal : List Char) (value : Expr) (text : String), Run none literal value.terminals ∧
        value.FitsAt 0 ∧ value.nesting = 0 ∧ text.toList = declarationText type name.toList literal ++ ['\n'] ∧
        a.edits = [⟨.lineStart d.line, text, version⟩] := by
    have hzero : ∀ c ∈ ['0'], c.isDigit = true := List.forall_mem_singleton.2 (by decide)
    rcases ha with rfl | rfl
    · refine ⟨.int, ['0'], .integer "0" .dummy, _, .single (.integer (by decide) hzero) rfl (by simp), trivial, rfl, ?_,
        rfl⟩
      simp [declarationText, ValueType.text, toString]
    · refine ⟨.float, ['0', '.', '0'], .real "0.0" .dummy, _,
        .single (@Spells.real ['0'] _ (by decide) (by decide) hzero hzero) rfl (by simp), trivial, rfl, ?_, rfl⟩
      simp [declarationText, ValueType.text, toString]
  have hdeclaration := (@run_declarationText type _ _ _ hspells hvalue).sees
  refine @Leaves.lines _ _ _ _ _ _ _ (declarationText type name.toList literal ++ '\n' :: line)
    [.varDecl ⟨type, name, value, .dummy⟩, st] ?_ (fun g hg => ?_) ⟨hfits, hgood, trivial⟩ ?_
  · rw [hedits, applyEdits_lineStart s.lineAt, htext]
    simp
  · have hline := hdeclaration.line (h.blanks_behind hg).sees
    rw [List.append_assoc, List.cons_append]
    simpa [Stmt.listTerminals] using hline
  · simp only [Stmt.listNesting, Stmt.nesting, hnesting]
    omega

/-- What the rule on the topic offers leaves statements, if it edits anything. -/
theorem leaves_of_offer {offer : FixSite → List CodeAction} (hoffer : s.complaint.topic.offer? = some offer)
    (ha : a ∈ offer ⟨d, line, version⟩) {e : Edit} (he : e ∈ a.edits)
    (hspares : s.complaint.topic.Spares line) : s.Leaves a.edits (st.nesting + 2) := by
  generalize ht : s.complaint.topic = t at hoffer hspares
  cases t with
  | valueless => exact absurd ht (s.topic_ne hsimple h).1
  | nameless => exact absurd ht (s.topic_ne hsimple h).2
  | intLiteral =>
    cases hoffer
    exact .of_rewrites (s.rewrites_useFloatLiteral hsimple hgood h ht hspares ha)
  | floatLiteral =>
    cases hoffer
    exact .of_rewrites (s.rewrites_castToInt hsimple hgood h (.inl ht) hspares ha)
  | floatVariable =>
    cases hoffer
    exact .of_rewrites (s.rewrites_castToInt hsimple hgood h (.inr (.inl ht)) hspares ha)
  | conversion =>
    cases hoffer
    exact .of_rewrites (s.rewrites_castToInt hsimple hgood h (.inr (.inr ht)) hspares ha)
  | castMismatch =>
    cases hoffer
    exact .of_rewrites (s.rewrites_fixCastMismatch hsimple hgood h ht hspares ha)
  | alwaysFloat =>
    cases hoffer
    exact .of_rewrites (s.rewrites_fixReturnMismatch hsimple hgood h (.inl ht) ha)
  | floatFromArguments =>
    cases hoffer
    exact .of_rewrites (s.rewrites_fixReturnMismatch hsimple hgood h (.inr ht) ha)
  | mixedTypes =>
    cases hoffer
    exact .of_rewrites (s.rewrites_castAllArguments hsimple hgood h ht hspares.1 hspares.2.1 hspares.2.2 ha)
  | invalidTarget =>
    cases hoffer
    exact .of_rewrites (Spot.rewrites_replaceCastTarget hsimple hgood h hspares.1 hspares.2 ha)
  | undeclared =>
    cases hoffer
    exact s.leaves_declareIdentifier hsimple hgood h ht hspares ha
  | division =>
    cases hoffer
    rw [List.mem_singleton.1 ha]
    exact .of_sees (fun g hg => h.sees_wrapped hg) (Stmt.grammatical_guarded hgood) (Nat.le_of_eq st.nesting_guarded)
  | repeated =>
    cases hoffer
    rw [List.mem_singleton.1 ha]
    exact .nothing (applyEdits_lineWithBreak s.lineAt _)
  | tooFew =>
    cases hoffer
    rw [FixSite.edits_showSignature ha] at he
    cases he
  | tooMany =>
    cases hoffer
    rw [FixSite.edits_showSignature ha] at he
    cases he
  | unknownFunction => cases hoffer
  | unrecognized => cases hoffer

end

end Spot

/-! ## The syntax of the new text -/

namespace Stmt.AloneOn

variable {st : Stmt} {tokens : List SpannedToken} {program : Program} {n : Nat} {slot : Slot}
  (h : st.AloneOn tokens program n slot) {cs line before terminator after : List Char}
  (hcut : Cut (Reading False) .start cs tokens) (hgood : AllGood tokens)
include h hcut hgood

/-- The line is the words of the statement. -/
theorem run (hat : LineAt cs n before line terminator after) : Run none line st.terminals := by
  obtain ⟨ending, place, above, on, below, hsorted, hending, hon, hgoodon, -, -⟩ :=
    hcut.sorted hgood hat h.comments
  have hcomment : ∀ t ∈ on, t.value.isComment = false := by
    refine fun t ht => Bool.eq_false_iff.2 fun hcomment => ?_
    have hdense := List.mem_filter.2 ⟨ht, dense_of_isComment hcomment⟩
    have hmem : t ∈ tokens := by
      refine List.mem_of_mem_filter (p := dense) ?_
      rw [hsorted.tokens_eq]
      exact List.mem_append_right _ (List.mem_append_left _ hdense)
    have hline := hsorted.on_line t hdense
    exact h.comments t hmem hcomment (Nat.le_of_eq hline) (hline ▸ hcut.line_le hmem)
  have hrun := hon.run hgoodon hcomment
  rw [← hsorted.visibleOn_eq, h.on] at hrun
  exact (hrun.of_blanks_behind fun c hc => isBlank_of_isGap (hending c hc)).alone

/-- Where the parser sees the program, it sees below the line what stands behind the statement. -/
theorem below (hat : LineAt cs n before line terminator after)
    (hterminals : program.terminals = (tokens.filter seen).map (·.value)) : visibleBelow tokens n = slot.back := by
  obtain ⟨ending, place, above, on, below, hsorted, -⟩ := hcut.sorted hgood hat h.comments
  rw [Program.terminals, h.statements_eq, slot.terminals_fill, hsorted.map_value_seen, h.above, h.on,
    listTerminals_single] at hterminals
  exact (List.append_cancel_left (List.append_cancel_left hterminals)).symm

/-- With other statements for the one, the text shows a program again. -/
theorem exists_program [Build] {d : Diagnostic} (s : Spot cs d line) (hn : d.line = n)
    (hprogram : program.Grammatical)
    (hterminals : program.terminals = (tokens.filter seen).map (·.value)) {edits : List Edit}
    {k : Nat} (hleaves : s.Leaves edits (st.nesting + k)) :
    ∃ (out : List Char) (tree : Program), applyEdits cs edits = .ok out ∧ Sees out tree.terminals ∧ tree.Grammatical ∧
      tree.nesting ≤ program.nesting + k := by
  subst hn
  have hbelow := h.below hcut hgood s.lineAt hterminals
  obtain ⟨ending, -, -, -, -, -, hending, -, -, hseen, hseen'⟩ := hcut.sorted hgood s.lineAt h.comments
  rw [h.above, hbelow] at hseen hseen'
  rw [Program.Grammatical, h.statements_eq] at hprogram
  have hfilled : ∀ {ss : List Stmt}, ListGrammatical ss → listNesting ss ≤ st.nesting + k →
      (⟨slot.fill ss, .dummy⟩ : Program).Grammatical ∧
        (⟨slot.fill ss, .dummy⟩ : Program).nesting ≤ program.nesting + k := by
    intro ss hss hnesting
    refine ⟨slot.grammatical_fill hprogram hss, ?_⟩
    rw [Program.nesting, Program.nesting, h.statements_eq]
    refine slot.nesting_fill (Nat.le_trans hnesting (Nat.add_le_add_right ?_ k))
    exact Nat.le_max_left _ _
  cases hleaves with
  | @lines new ss made sees good nesting =>
    obtain ⟨htree, hdepth⟩ := hfilled good nesting
    refine ⟨_, ⟨_, .dummy⟩, made, ?_, htree, hdepth⟩
    rw [Program.terminals, slot.terminals_fill]
    exact hseen new _ (sees ending hending)
  | nothing made =>
    obtain ⟨htree, hdepth⟩ := @hfilled [] trivial (Nat.zero_le _)
    refine ⟨_, ⟨_, .dummy⟩, made, ?_, htree, hdepth⟩
    rw [Program.terminals, slot.terminals_fill]
    exact hseen'

end Stmt.AloneOn

/-- A fix keeps the syntax. Take a text without syntax errors, a finding on it on whose line a statement
without a block stands alone, and an action with an edit that is offered for the finding, preferred or not.
The action can be applied. Let the message quote no text with the words of another rule, and let the line be
one that the fix reads as it is meant (`Topic.Spares`). Then the new text has no syntax error, if it is not
too long for the lexer, nor the old one within two levels of being too deep for the parser. -/
theorem fix_keeps_validity [Build] {prefs : AnalysisPreferences} {lexical : LexicalPreferences}
    {preferences : ParserPreferences} {source : String} (hinvalid : lexical.reportInvalid = true)
    (herrors : (parse lexical preferences source).hasErrors = false)
    (hshown : (parse lexical preferences source).diagnostics.length < Limit.syntaxDiagnostics)
    (hdepth : (parse lexical preferences source).tree.nesting + 2 ≤ Limit.parseDepth)
    {d : Diagnostic} (hd : d ∈ (analyze prefs source).1) {line : List Char}
    (hline : line? source.toList d.line = some line) {st : Stmt} {slot : Slot}
    (halone : st.AloneOn (tokenize lexical source).tokens.toList (parse lexical preferences source).tree d.line slot)
    {version : Nat} {a : CodeAction} (ha : a ∈ FixSite.fixes ⟨d, line, version⟩) {e : Edit} (he : e ∈ a.edits)
    (hspares : ∀ t, Topic.of? d.message.toList = some t →
      (t.quotes = true → t.Calls d.message.toList) ∧ t.Spares line) :
    ∃ out, applyEdits source.toList a.edits = .ok out ∧
      (¬ (tokenize lexical (String.ofList out)).Limited →
        (parse lexical preferences (String.ofList out)).hasErrors = false) := by
  obtain ⟨s⟩ := nonempty_spot hd hline
  obtain ⟨hlimit, hallgood⟩ := faultless_of_heard hinvalid (heard_eq_nil herrors)
  obtain ⟨hprogram, hterminals⟩ := grammatical_of_parse herrors hshown
  have hcut := cut_of_not_limited hlimit
  have hrun := halone.run hcut hallgood s.lineAt
  have hgood : st.Grammatical := by
    have hfilled := hprogram
    rw [Program.Grammatical, halone.statements_eq] at hfilled
    exact (Slot.listGrammatical_of_fill hfilled).1
  obtain ⟨hquotes, hspares⟩ := hspares s.complaint.topic s.of?_message
  obtain ⟨offer, hoffer, ha⟩ := s.exists_offer hquotes ha
  -- The line is left with the terminals of statements, which fit where the statement stood.
  have hleaves := s.leaves_of_offer halone.simple hgood hrun hoffer ha he hspares
  obtain ⟨out, tree, hout, hsees, htree, hnesting⟩ :=
    halone.exists_program hcut hallgood s rfl hprogram hterminals hleaves
  exact ⟨out, hout, hasErrors_of_sees htree (Nat.le_trans hnesting hdepth) hsees⟩

/-- A cast around a number in a block. -/
theorem fix_keeps_validity_block :
    let source := "\x7b\nint x = 1.5\n\x7d"
    let d := Diagnostic.warning 2 "Assigning float literal to 'int' variable 'x' — implicit conversion"
    let a := CodeAction.quickFix "Add explicit cast to int" d
      ⟨.wholeLine 2 "int x = 1.5".toList, "int x = cast(1.5, int)", 1⟩ true
    d ∈ (analyze {} source).1 ∧ a ∈ FixSite.fixes ⟨d, "int x = 1.5".toList, 1⟩ ∧
      ∃ out, applyEdits source.toList a.edits = .ok out ∧
        (parse {} {} (String.ofList out)).hasErrors = false := by
  intro source d a
  have hd : d ∈ (analyze {} source).1 := by decide +kernel
  have ha : a ∈ FixSite.fixes ⟨d, "int x = 1.5".toList, 1⟩ := by decide +kernel
  have htopic : Topic.of? d.message.toList = some .floatLiteral := by decide +kernel
  obtain ⟨outer, houter⟩ : ∃ outer, (parse {} {} source).tree.statements = [outer] :=
    List.length_eq_one_iff.1 (by decide +kernel)
  have hshape : (parse {} {} source).tree.statements.map
      (fun s => s.only?.map fun inner => (inner.1.isSimple, inner.1.terminals)) =
        [some (true, visibleOn (tokenize {} source).tokens.toList 2)] := by decide +kernel
  rw [houter] at hshape
  obtain ⟨⟨st, span⟩, honly, hinner⟩ := Option.map_eq_some_iff.1 (List.singleton_inj.1 hshape)
  obtain ⟨hsimple, hon⟩ := Prod.mk.inj hinner
  have hstatements : (parse {} {} source).tree.statements = [.block (.mk [st] span)] := by
    rw [houter, Stmt.eq_block_of_only? honly]
  have habove : visibleAbove (tokenize {} source).tokens.toList 2 = [.symbol .leftBrace] := by decide +kernel
  have halone : st.AloneOn (tokenize {} source).tokens.toList (parse {} {} source).tree d.line
      (.inside [] (.block span) (.here [] []) []) :=
    ⟨hsimple, hstatements, habove, hon.symm, by unfold CommentFree; decide +kernel⟩
  obtain ⟨out, hout, hkeeps⟩ := @fix_keeps_validity _ {} {} {} source rfl (by decide +kernel) (by decide +kernel)
    (by decide +kernel) d hd _ (by decide +kernel) _ _ halone 1 a ha _ (List.mem_singleton_self _) fun t ht => by
      rw [htopic] at ht
      cases ht
      exact ⟨fun hquotes => absurd hquotes (by decide), by unfold Topic.Spares; decide +kernel⟩
  refine ⟨hd, ha, out, hout, hkeeps ?_⟩
  have hmade : applyEdits source.toList a.edits = .ok "\x7b\nint x = cast(1.5, int)\n\x7d".toList := by
    decide +kernel
  obtain rfl := Except.ok.inj (hout.symm.trans hmade)
  unfold TokenizedSource.Limited
  decide +kernel

/-- The arguments are cut at the first parenthesis that closes: a fix for a call with a call in it leaves a
line that is none of the language. -/
theorem fix_breaks_nested_call :
    let source := "int x = max(abs(1), 2.0)"
    let d := Diagnostic.error 1 ("Function 'max' requires all arguments to be the same type, but received " ++
      "mixed types: 'abs(1)' (int), '2.0' (float). Use cast() to convert arguments to a common type.")
    let a := CodeAction.quickFix "Cast all arguments to 'float'" d
      ⟨.wholeLine 1 source.toList, "int x = max(cast(abs(1, float)), 2.0)", 1⟩ true
    (parse {} {} source).diagnostics = [] ∧ (analyze {} source).1 = [d] ∧
      a ∈ FixSite.fixes ⟨d, source.toList, 1⟩ ∧
      applyEdits source.toList a.edits = .ok "int x = max(cast(abs(1, float)), 2.0)".toList ∧
      (parse {} {} "int x = max(cast(abs(1, float)), 2.0)").hasErrors = true := by
  decide +kernel

end EvlCheck
