/-
Expressions go through their written form unharmed. The text of an expression that was parsed is lexed
to the terminals of that expression and parsed to the same expression, up to its places, with nothing
left over; so no two expressions that were parsed share a text unless they are the same.

Lexing gives the terminals back because each of them was cut from a source, so that its text spells it
(`Parsed.spelled`). Parsing gives the expression back because it stands in a tree of the grammar, so
that it is one of the grammar by itself and needs fewer rules than there are (`Parsed.regular`).
-/
import EvlCheck.Proofs.Lexing.Written
import EvlCheck.Proofs.Parsing.Regular
import EvlCheck.Proofs.Parsing.Spans

namespace EvlCheck

theorem Node.Every.under {P : Expr → Prop} {root n : Node} (h : root.Every P) (hn : root.Under n) :
    n.Every P := by
  induction hn with
  | self => exact h
  | child _ hm ih => exact ih.child hm

/-! ## Expressions of a source -/

/-- The tokens that the parser sees are spelled by their texts. -/
theorem Lexing.spells_of_mem_visible [Build] {p : LexicalPreferences} {source : String}
    {t : SpannedToken} (ht : t ∈ (tokenize p source).visible) :
    Spells t.value.text.toList t.value := by
  obtain ⟨hmem, hseen⟩ := List.mem_filter.1 ht
  obtain ⟨hsignificant, heof⟩ := Bool.and_eq_true_iff.1 hseen
  by_cases hsize : source.utf8ByteSize ≤ Limit.sourceBytes
  · have hne : t.value ≠ .eof := by
      intro h
      rw [h] at heof
      cases heof
    obtain ⟨before, taken, after, -, -, htext, -, hreading⟩ :=
      (cut_tokenize hsize).exists_piece hmem hne
    rw [htext, String.toList_ofList]
    generalize t.value = token at hreading hsignificant
    cases hreading with
    | word longest => exact longest.spells
    | fault => cases hsignificant
    | stopped => cases hsignificant
  -- A source that is too large has no visible token.
  · rw [tokenize_of_large (Nat.lt_of_not_le hsize)] at hmem
    rcases List.mem_cons.1 hmem with rfl | hmem
    · cases hsignificant
    · rcases List.mem_singleton.1 hmem with rfl
      cases heof

/-- The tokens from one index up to another, where the end of the source is not among them. -/
theorem mem_of_mem_valuesFrom {row : Array StreamToken} {tokens : List SpannedToken}
    {last : SpannedToken} (hrow : row.toList.map StreamToken.spanned = tokens ++ [last]) {a b : Nat}
    (hb : b ≤ tokens.length) {t : Token} (ht : t ∈ valuesFrom row a b) :
    ∃ u ∈ tokens, u.value = t := by
  obtain ⟨v, hv, rfl⟩ := List.mem_map.1 ht
  obtain ⟨i, hi⟩ := List.mem_iff_getElem?.1 hv
  rw [List.getElem?_take] at hi
  split at hi
  · next hlt =>
    rw [List.getElem?_drop, Array.getElem?_toList] at hi
    have hmem := Node.getElem?_of_row hrow (by omega) hi
    exact ⟨v.spanned, List.mem_of_getElem? hmem, rfl⟩
  · cases hi

/-- The parse of a source is that of a program from its visible tokens. -/
theorem exists_program_of_parse [Build] (lexical : LexicalPreferences)
    (preferences : ParserPreferences) (source : String) :
    let tokens := (Lexing.tokenize lexical source).visible
    ∃ (p : Parser) (last : SpannedToken), p.Ready ∧
      p.stream.significant.toList.map StreamToken.spanned = tokens ++ [last] ∧
      p.pending = tokens.map (·.value) ++ [.eof] ∧
      (parse lexical preferences source).tree = (Parsing.program p).1 := by
  intro tokens
  obtain ⟨-, front, place, htokens, hvisible⟩ := Lexing.tokenize_visible lexical source
  obtain ⟨reporter, hstart⟩ : ∃ reporter, (parse lexical preferences source).tree =
      (Parser.start (.ofTokens (Lexing.tokenize lexical source).tokens) preferences
        reporter).parseProgram.1 := ⟨_, rfl⟩
  obtain ⟨p, hready, -, hrow, hpending, htree, -⟩ :=
    Parser.exists_program_of_start htokens preferences reporter
  rw [hvisible] at hrow hpending
  exact ⟨p, _, hready, hrow, hpending, hstart.trans htree⟩

/-- The tree of a source is one of the grammar, and the nodes below its root are placed over the
tokens that the parser sees. -/
theorem parse_reads [Build] (lexical : LexicalPreferences) (preferences : ParserPreferences)
    (source : String) :
    let tree := (parse lexical preferences source).tree
    let tokens := (Lexing.tokenize lexical source).visible
    tree.Grammatical ∧ tree.nesting ≤ Limit.parseDepth ∧
      ∃ (row : Array StreamToken) (last : SpannedToken) (a b : Nat),
        row.toList.map StreamToken.spanned = tokens ++ [last] ∧ b ≤ tokens.length ∧
          Node.AllPlaced row tree.toNode.children a b := by
  intro tree tokens
  obtain ⟨p, last, hready, hrow, -, htree⟩ :=
    exists_program_of_parse lexical preferences source
  rcases hprogram : Parsing.program p with ⟨tree', q⟩
  have hsame : tree = tree' := htree.trans (congrArg Prod.fst hprogram)
  have hread := Parsing.program_read hready hprogram
  obtain ⟨hgood, hnesting, -⟩ := hread.good
  have hb : q.position ≤ tokens.length := by
    have hq := q.stream.position_lt
    have hsize := congrArg List.length hrow
    rw [List.length_map, Array.length_toList, List.length_append, List.length_singleton] at hsize
    rw [hread.onward.tokens, hsize] at hq
    exact Nat.le_of_lt_succ hq
  have hchildren : tree'.toNode.children = tree'.statements.map Stmt.toNode := by
    simp [Program.toNode, Node.children, Stmt.toNodes_eq]
  rw [hsame]
  refine ⟨hgood, hnesting, _, last, p.position, q.position, hrow, hb, ?_⟩
  rw [hchildren]
  exact hread.placed

namespace Expr

/-- The expression stands in the tree of some source. -/
def Parsed [Build] (e : Expr) : Prop :=
  ∃ (lexical : LexicalPreferences) (preferences : ParserPreferences) (source : String) (n : Node),
    (parse lexical preferences source).tree.toNode.Under n ∧ n.kind = .expression e

variable {e : Expr}

theorem Parsed.regular [Build] (h : e.Parsed) : e.Regular Limit.parseDepth := by
  obtain ⟨lexical, preferences, source, n, hn, he⟩ := h
  obtain ⟨hgood, hnesting, -⟩ := parse_reads lexical preferences source
  exact ((Program.every_toNode hgood hnesting).under hn).expression he

theorem Parsed.spelled [Build] (h : e.Parsed) : e.Spelled := by
  obtain ⟨lexical, preferences, source, n, hn, he⟩ := h
  obtain ⟨-, -, row, last, a, b, hrow, hb, hplaced⟩ := parse_reads lexical preferences source
  rcases hn.placed hplaced with rfl | ⟨k, l, hplaced, hl⟩
  · cases he
  · obtain ⟨kind, span, children⟩ := n
    obtain ⟨-, hterminals, -⟩ := hplaced
    intro t ht
    rw [← hterminals e he] at ht
    obtain ⟨u, hu, rfl⟩ := mem_of_mem_valuesFrom hrow (Nat.le_trans hl hb) ht
    exact Lexing.spells_of_mem_visible hu

end Expr

/-! ## Reading a row of terminals -/

theorem TokenStream.atEnd_of_current {s : TokenStream} (h : s.current.value = .eof) :
    s.atEnd = true := by
  unfold atEnd
  rw [h]
  rfl

/-- At the start of a row of tokens these lie ahead. -/
theorem Parser.ready_start [Build] {tokens : Array SpannedToken} {front : List SpannedToken}
    {place : Span} (h : tokens.toList = front ++ [⟨.eof, place⟩]) (preferences : ParserPreferences)
    (reporter : Reporter) :
    let p := start (.ofTokens tokens) preferences reporter
    p.Ready ∧ p.pending = (front.filter (·.value.isSignificant)).map (·.value) ++ [.eof] := by
  intro p
  refine ⟨⟨TokenStream.ended_ofTokens h, fun _ => rfl⟩, ?_⟩
  have hrow := TokenStream.map_spanned_ofTokens h
  have hzero : p.position = 0 := TokenStream.position_ofTokens tokens
  have hahead := pending_of_row (p := p) (show _ = [] ++ (_ ++ _) from hrow) hzero
  rw [hahead, List.map_append]
  rfl

/-- A regular expression is read from its terminals, and from nothing else in front of the end. -/
theorem Expr.Regular.reads [Build] {e : Expr} (h : e.Regular Limit.parseDepth) {p : Parser}
    (hp : p.Ready) (hpending : p.pending = e.terminals ++ [.eof]) :
    ∃ e' q, Parsing.expression Limit.parseDepth p = (.ok e', q) ∧ q.stream.atEnd = true ∧
      e'.bare = e.bare := by
  have hend : Parsing.Follows 0 [.eof] := by
    rintro t ⟨⟩ op hop
    cases hop
  obtain ⟨e', q, hq, hbare, hleft⟩ := Parsing.expression_accepts h.fits h.nesting hp hpending hend
  exact ⟨e', q, hq, TokenStream.atEnd_of_current (Parser.current_eq hleft.pending), hbare⟩

/-- Regular expressions with the same terminals are the same up to their places. -/
theorem Expr.Regular.bare_eq [Build] {a b : Expr} (ha : a.Regular Limit.parseDepth)
    (hb : b.Regular Limit.parseDepth) (h : a.terminals = b.terminals) : a.bare = b.bare := by
  -- Both are what is read from a row of their terminals.
  obtain ⟨front, hfront⟩ : ∃ front : List SpannedToken, front = a.terminals.map (⟨·, .dummy⟩) :=
    ⟨_, rfl⟩
  have hseen : (front.filter (·.value.isSignificant)).map (·.value) = a.terminals := by
    rw [hfront, ← a.filter_written]
    simp [List.filter_map, Function.comp_def]
  obtain ⟨hready, hpending⟩ := Parser.ready_start
    (show (front ++ [⟨.eof, .dummy⟩] : List SpannedToken).toArray.toList = _ from rfl) {} {}
  rw [hseen] at hpending
  obtain ⟨a', q, hq, -, ha'⟩ := ha.reads hready hpending
  obtain ⟨b', r, hr, -, hb'⟩ := hb.reads hready (by rw [hpending, h])
  rw [hq] at hr
  cases hr
  rw [← ha', hb']

/-! ## The round trip -/

/-- The written form of a parsed expression is read as its tokens. -/
theorem Expr.Parsed.readAs [Build] {e : Expr} (h : e.Parsed) :
    Lexing.ReadAs e.text.toList e.written := by
  have hend : ∀ d ∈ Lexing.headChar? [], d ∈ Lexing.delimiters := by
    rintro d ⟨⟩
  have hread := Lexing.readsBack_written h.spelled hend .nil
  rw [List.append_nil] at hread
  rw [e.toList_text]
  exact hread

/-- Expressions go through their written form unharmed. Where the text of an expression that was
parsed exceeds no limit of the lexer, it is lexed to the tokens of its written form, of which only the
terminals of the expression are visible, and the rule for expressions reads from them the expression,
up to its places, and all tokens up to the end. In any case parsed expressions with the same text are
the same up to their places. -/
theorem expression_roundtrip [Build] {e : Expr} (h : e.Parsed) :
    (∀ lexical : LexicalPreferences, ¬ (Lexing.tokenize lexical e.text).Limited →
      let lexed := Lexing.tokenize lexical e.text
      lexed.tokens.toList.map (·.value) = e.written ++ [.eof] ∧
      lexed.visible.map (·.value) = e.terminals ∧
      ∀ (preferences : ParserPreferences) (reporter : Reporter), ∃ e' q,
        Parsing.expression Limit.parseDepth
          (.start (.ofTokens lexed.tokens) preferences reporter) = (.ok e', q) ∧
        q.stream.atEnd = true ∧ e'.bare = e.bare) ∧
    ∀ e₂ : Expr, e₂.Parsed → e₂.text = e.text → e₂.bare = e.bare := by
  refine ⟨?_, fun e₂ h₂ htext => ?_⟩
  · intro lexical hlimit lexed
    -- What is written between the tokens is fixed by them, so the text is lexed as it was written.
    obtain ⟨ts, hts, hvalues⟩ := Lexing.readAs_tokenize hlimit
    rw [← h.readAs.unique hts] at hvalues
    obtain ⟨-, front, place, htokens, hvisible⟩ := Lexing.tokenize_visible lexical e.text
    have hfront : front.map (·.value) = e.written := by
      rw [htokens, List.map_append] at hvalues
      exact List.append_cancel_right hvalues
    have hterminals : lexed.visible.map (·.value) = e.terminals := by
      rw [← hvisible, ← e.filter_written, ← hfront, List.filter_map]
      rfl
    refine ⟨hvalues, hterminals, fun preferences reporter => ?_⟩
    -- The parser starts before the terminals of the tree, and the grammar has no other tree for them.
    obtain ⟨hready, hpending⟩ := Parser.ready_start htokens preferences reporter
    rw [hvisible, hterminals] at hpending
    exact h.regular.reads hready hpending
  · have hread := h₂.readAs
    rw [htext] at hread
    have hwritten := hread.unique h.readAs
    refine h₂.regular.bare_eq h.regular ?_
    rw [← e₂.filter_written, ← e.filter_written, hwritten]

/-- The value of a declaration at the head of a program. -/
def Program.firstValue? (p : Program) : Option Expr :=
  match p.statements with
  | .varDecl d :: _ => some d.value
  | _ => none

theorem Expr.parsed_of_firstValue? [Build] {lexical : LexicalPreferences}
    {preferences : ParserPreferences} {source : String} {e : Expr}
    (h : (parse lexical preferences source).tree.firstValue? = some e) : e.Parsed := by
  refine ⟨lexical, preferences, source, e.toNode, ?_, by cases e <;> rfl⟩
  generalize (parse lexical preferences source).tree = tree at h
  obtain ⟨statements, span⟩ := tree
  unfold Program.firstValue? at h
  split at h
  · next d rest hstatements =>
    cases h
    dsimp only at hstatements
    subst hstatements
    have hroot : (Stmt.varDecl d).toNode ∈ (Program.mk (.varDecl d :: rest) span).toNode.children := by
      simp [Program.toNode, Node.children, Stmt.toNodes_eq]
    exact .child (.child (.child .self hroot) (.head _)) (.head _)
  · cases h

/-- A difference with a minus sign behind the operator, where it stands in a declaration. -/
def differenceExpr : Expr :=
  .binary .subtract ⟨⟨10, 1, 11⟩, ⟨11, 1, 12⟩⟩ (.name "a" ⟨⟨8, 1, 9⟩, ⟨9, 1, 10⟩⟩)
    (.unaryMinus (.name "b" ⟨⟨13, 1, 14⟩, ⟨14, 1, 15⟩⟩) ⟨⟨12, 1, 13⟩, ⟨14, 1, 15⟩⟩)
    ⟨⟨8, 1, 9⟩, ⟨14, 1, 15⟩⟩

theorem expression_roundtrip_difference :
    let lexed := Lexing.tokenize {} differenceExpr.text
    differenceExpr.Parsed ∧ differenceExpr.text = "[a - -b]" ∧ ¬ lexed.Limited ∧
      lexed.visible.map (·.value) = differenceExpr.terminals ∧
      ∃ e q, Parsing.expression Limit.parseDepth (.start (.ofTokens lexed.tokens) {} {}) = (.ok e, q) ∧
        q.stream.atEnd = true ∧ e.bare = differenceExpr.bare := by
  intro lexed
  have hparsed : differenceExpr.Parsed := by
    have hfirst : (parse {} {} "int x = a - -b").tree.firstValue? = some differenceExpr := by
      decide +kernel
    exact Expr.parsed_of_firstValue? hfirst
  have hlimit : ¬ lexed.Limited := by
    unfold TokenizedSource.Limited
    decide +kernel
  obtain ⟨-, hterminals, hread⟩ := (expression_roundtrip hparsed).1 {} hlimit
  exact ⟨hparsed, by decide +kernel, hlimit, hterminals, hread {} {}⟩

end EvlCheck
