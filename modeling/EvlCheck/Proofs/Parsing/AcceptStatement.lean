/-
What the grammar derives, the statement rules accept. Nothing stands between two statements, so the
parser has to see from the next token where one ends: no statement begins with a binary operator or
with the word that continues a conditional (`Separate`). Blocks and print statements end with a token
of their own and ask for nothing behind them.

The induction is over statements, blocks and branches together; the loops over arguments, branches
and statements have one turn for each of these, and at least as many turns as tokens.
-/
import EvlCheck.Proofs.Parsing.AcceptExpression
import EvlCheck.Proofs.Parsing.ReadStatement

namespace EvlCheck

/-! ## Where statements begin and end -/

/-- A token that a statement can begin with: it goes on with no statement before it, and ends no list
of statements. -/
structure Token.Opening (t : Token) : Prop where
  yields : Yields 0 t
  ne_else : t ≠ .keyword .else
  ne_eof : t ≠ .eof
  ne_rightBrace : t ≠ .symbol .rightBrace

theorem Token.opening_keyword {k : Keyword} (hk : k ≠ .else) : Opening (.keyword k) :=
  ⟨(fun _ h => nomatch h), by simpa using hk, by simp, by simp⟩

theorem Token.opening_identifier (n : String) : Opening (.identifier n) :=
  ⟨(fun _ h => nomatch h), by simp, by simp, by simp⟩

theorem Block.exists_terminals (b : Block) : ∃ ts, b.terminals = .symbol .leftBrace :: ts := by
  cases b; exact ⟨_, rfl⟩

theorem Stmt.exists_terminals (s : Stmt) : ∃ t ts, s.terminals = t :: ts ∧ t.Opening := by
  cases s with
  | varDecl d =>
    exact ⟨_, _, rfl, Token.opening_keyword (by cases d.type <;> simp [ValueType.keyword])⟩
  | constDecl d s => exact ⟨_, _, rfl, Token.opening_keyword (by simp)⟩
  | assignment target op e s => exact ⟨_, _, rfl, Token.opening_identifier target⟩
  | print args s => exact ⟨_, _, rfl, Token.opening_keyword (by simp)⟩
  | ifElse c body others s => exact ⟨_, _, rfl, Token.opening_keyword (by simp)⟩
  | whileLoop c body s => exact ⟨_, _, rfl, Token.opening_keyword (by simp)⟩
  | tryCatch body binding handler s =>
    cases binding <;> exact ⟨_, _, rfl, Token.opening_keyword (by simp)⟩
  | block b =>
    obtain ⟨ts, hts⟩ := b.exists_terminals
    refine ⟨_, ts, hts, ⟨fun op h => ?_, by simp, by simp, by simp⟩⟩
    cases h

/-- The first of some tokens goes on with no statement before it. -/
def Separate (rest : List Token) : Prop := ∀ t ∈ rest.head?, Yields 0 t ∧ t ≠ .keyword .else

theorem Separate.follows {rest : List Token} (h : Separate rest) : Parsing.Follows 0 rest :=
  fun t ht => (h t ht).1

theorem Stmt.separate (s : Stmt) (rest : List Token) : Separate (s.terminals ++ rest) := by
  obtain ⟨t, ts, hts, ht⟩ := s.exists_terminals
  rintro u hu
  rw [hts] at hu
  cases hu
  exact ⟨ht.yields, ht.ne_else⟩

namespace Parsing

open EvlCheck.Parser ParseM

theorem peek_eq [Build] {p : Parser} {t u : Token} {rest : List Token} (hp : p.Ready)
    (h : p.pending = t :: u :: rest) (ht : t ≠ .eof) : (p.stream.peek 1).value = u := by
  have hpos : p.advance.position = p.position + 1 :=
    TokenStream.position_advance hp.ended (current_eq h ▸ ht)
  have hpeek := TokenStream.peek_one p.stream.significant_advance hpos
  rw [hpeek]
  exact current_eq (pending_advance hp h ht)

theorem left_reportLoneString [Build] {p : Parser} {rest : List Token} (hp : p.Ready)
    (h : p.pending = rest) : Left p rest p.reportLoneString := by
  refine ⟨(onward_reportLoneString p).ready hp, ?_, history_reportLoneString p,
    errors_reportLoneString p⟩
  rw [← h]
  unfold pending position
  rw [stream_reportLoneString]

/-! ## Statements without blocks -/

/-- A string that does not make up a whole expression is the first operand of an operator. -/
theorem Expr.exists_operator {e : Expr} {text : String} {ts : List Token}
    (h : e.terminals = .string text :: ts) :
    (∃ s, e = .string text s) ∨ ∃ op ts', ts = .symbol (BinaryOp.symbol op) :: ts' := by
  induction e generalizing ts with
  | string t s => cases h; exact .inl ⟨s, rfl⟩
  | truth b s => cases b <;> cases h
  | binary op opSpan a b s iha ihb =>
    refine .inr ?_
    obtain ⟨t, ts', ha⟩ := List.exists_cons_of_ne_nil a.terminals_ne_nil
    simp only [EvlCheck.Expr.terminals, ha, List.cons_append, List.cons.injEq] at h
    obtain ⟨rfl, rfl⟩ := h
    rcases iha ha with ⟨s', rfl⟩ | ⟨op', ts'', rfl⟩
    · cases ha
      exact ⟨op, b.terminals, rfl⟩
    · exact ⟨op', _, rfl⟩
  | _ => cases h

theorem endsArg_operator (op : BinaryOp) : endsArg (.symbol op.symbol) = false := by
  cases op <;> rfl

theorem exists_endsArg (more : List PrintArg) (rest : List Token) :
    ∃ t ts, PrintArg.moreTerminals more ++ .symbol .rightParen :: rest = t :: ts ∧
      endsArg t = true := by
  cases more with
  | nil => exact ⟨_, _, rfl, rfl⟩
  | cons b more => exact ⟨_, _, rfl, rfl⟩

section

variable [Build] {n : Nat} {value : ParseM Expr}
  (hvalue : ∀ {e : Expr}, e.FitsAt 0 → e.nesting < n → ReadsWhole value e)
  {p : Parser} {rest : List Token}

include hvalue

theorem varDecl_accepts {d : VarDecl} (hfits : d.value.FitsAt 0) (hn : d.value.nesting < n)
    (hp : p.Ready) (h : p.pending = d.terminals ++ rest) (hrest : Follows 0 rest) :
    Accepts (varDecl value) p (·.bare = d.bare) rest := by
  refine .place <| (Accepts.type hp h).bind fun t p1 ht h1 => ?_
  refine (Accepts.name h1.ready h1.pending).bind fun name p2 hname h2 => ?_
  refine (Accepts.symbol h2.ready h2.pending).bind fun _ p3 _ h3 => ?_
  refine (hvalue hfits hn h3.ready h3.pending hrest).bind fun e p4 he h4 => ?_
  exact .spanFrom <| .pure h4.ready h4.pending (by simp [VarDecl.bare, ht, hname, he])

theorem constDecl_accepts {d : VarDecl} {s : Span} (hfits : d.value.FitsAt 0)
    (hn : d.value.nesting < n) (hp : p.Ready)
    (h : p.pending = (Stmt.constDecl d s).terminals ++ rest) (hrest : Follows 0 rest) :
    Accepts (constDecl value) p (·.bare = (Stmt.constDecl d s).bare) rest := by
  refine .place <| (Accepts.keyword hp h).bind fun _ p1 _ h1 => ?_
  refine (varDecl_accepts hvalue hfits hn h1.ready h1.pending hrest).bind fun d' p2 hd h2 => ?_
  exact .spanFrom <| .pure h2.ready h2.pending (by simp [Stmt.bare, hd])

theorem assignment_accepts {target : String} {op : AssignOp} {e : Expr} {s : Span}
    (hfits : e.FitsAt 0) (hn : e.nesting < n) (hp : p.Ready)
    (h : p.pending = (Stmt.assignment target op e s).terminals ++ rest) (hrest : Follows 0 rest) :
    Accepts (assignment value) p (·.bare = (Stmt.assignment target op e s).bare) rest := by
  refine .place <| (Accepts.name hp h).bind fun name p1 hname h1 => ?_
  have hop : AssignOp.ofToken? p1.stream.current.value = some op := by
    rw [current_eq h1.pending]; exact AssignOp.ofSymbol?_symbol op
  refine .of_eq (ParseM.advance >>= fun _ => value >>= fun e =>
    ParseM.spanFrom p.position >>= fun span => pure (.assignment name op e span)) ?_ ?_
  · rw [current_bind]
    simp only [hop]
  · refine .advance h1.ready h1.pending (by simp) fun h2 => ?_
    refine (hvalue hfits hn h2.ready h2.pending hrest).bind fun e' p3 he h3 => ?_
    exact .spanFrom <| .pure h3.ready h3.pending (by simp [Stmt.bare, hname, he])

omit hvalue in
theorem printArg_of_lone {text : String} (hv : p.stream.current.value = .string text)
    (hends : endsArg (p.stream.peek 1).value = true) :
    printArg value p = (.ok (.string text p.reportLoneString.stream.current.span),
      p.reportLoneString.advance) := by
  have htext : stringText? p.stream.current.value = some text := by rw [hv]; rfl
  unfold printArg
  rw [get_bind]
  simp only [htext, Parser.tokenAhead_one]
  exact congrFun (if_pos hends) p

omit hvalue in
theorem printArg_of_expr
    (h : ∀ text, p.stream.current.value = .string text → endsArg (p.stream.peek 1).value = false) :
    printArg value p = (value >>= fun e => pure (.expr e) : ParseM PrintArg) p := by
  unfold printArg
  rw [get_bind]
  cases htext : stringText? p.stream.current.value with
  | none => rfl
  | some text =>
    have hends := h text (stringText?_eq_some htext)
    refine congrFun (if_neg ?_) p
    simpa [endsArg, Parser.tokenAhead_one] using hends

/-- An argument is accepted before a comma or a closing parenthesis. -/
theorem printArg_accepts {a : PrintArg} {t : Token} (hgood : a.Grammatical) (hn : a.nesting ≤ n)
    (ht : endsArg t = true) (hp : p.Ready) (h : p.pending = a.terminals ++ t :: rest) :
    Accepts (printArg value) p (·.bare = a.bare) (t :: rest) := by
  cases a with
  | string text s =>
    have hends : endsArg (p.stream.peek 1).value = true := by rw [peek_eq hp h (by simp)]; exact ht
    have hreport := left_reportLoneString hp h
    exact ⟨_, _, printArg_of_lone (current_eq h) hends, rfl,
      hreport.trans (left_advance hreport.ready hreport.pending (by simp))⟩
  | expr e =>
    obtain ⟨hfits, hlone⟩ := hgood
    have hfollow : Follows 0 (t :: rest) := by
      rintro u hu op hop
      cases hu
      rw [BinaryOp.symbol_of_ofToken? hop, endsArg_operator] at ht
      cases ht
    refine .of_eq _ (printArg_of_expr fun text hv => ?_) ?_
    -- A string at the head is not taken for the whole argument, since an operator follows it.
    · obtain ⟨u, us, hus⟩ := List.exists_cons_of_ne_nil e.terminals_ne_nil
      have h' : p.pending = u :: (us ++ t :: rest) := by
        rw [h, PrintArg.terminals, hus]; rfl
      have hu : u = .string text := (current_eq h').symm.trans hv
      subst hu
      rcases Expr.exists_operator hus with ⟨s, rfl⟩ | ⟨op, ts, rfl⟩
      · exact absurd rfl (hlone text s)
      · rw [peek_eq hp h' (by simp)]
        exact endsArg_operator op
    · refine (hvalue hfits hn hp h hfollow).bind fun e' q he hq => ?_
      exact .pure hq.ready hq.pending (by simp [PrintArg.bare, he])

/-- As many turns as there are tokens are enough for the arguments behind commas. -/
theorem printArgs_accepts {tokens : Nat} (args : List PrintArg) {more : List PrintArg}
    (hgood : ∀ a ∈ more, a.Grammatical) (hn : PrintArg.listNesting more ≤ n)
    (htokens : (PrintArg.moreTerminals more).length ≤ tokens) (hp : p.Ready)
    (h : p.pending = PrintArg.moreTerminals more ++ .symbol .rightParen :: rest) :
    Accepts (printArgs value tokens args) p
      (fun all => all.map PrintArg.bare = args.reverse.map PrintArg.bare ++ more.map PrintArg.bare)
      (.symbol .rightParen :: rest) := by
  induction more generalizing tokens args p with
  | nil =>
    -- No comma follows, so the loop ends if it still may turn.
    refine .of_eq (pure args.reverse) ?_ (.pure hp h (by simp))
    cases tokens with
    | zero => rfl
    | succ tokens =>
      have hc : p.stream.check (.symbol .comma) = false := by
        unfold TokenStream.check; rw [current_eq h]; rfl
      unfold printArgs
      rw [check_bind, hc]
      rfl
  | cons a more ih =>
    obtain ⟨hna, hnmore⟩ := Nat.max_le.1 hn
    obtain ⟨tokens, rfl⟩ : ∃ m, tokens = m + 1 :=
      ⟨tokens - 1, by simp [PrintArg.moreTerminals] at htokens; omega⟩
    have h' : p.pending = .symbol .comma :: (a.terminals ++
        (PrintArg.moreTerminals more ++ .symbol .rightParen :: rest)) := by
      rw [h]; simp [PrintArg.moreTerminals]
    have hlength : (PrintArg.moreTerminals more).length ≤ tokens := by
      simp only [PrintArg.moreTerminals, List.flatMap_cons, List.length_append,
        List.length_cons] at htokens ⊢
      omega
    obtain ⟨t, ts, hts, ht⟩ := exists_endsArg more rest
    refine .of_eq (ParseM.advance >>= fun _ => printArg value >>= fun a =>
      printArgs value tokens (a :: args)) ?_ ?_
    · have hc : p.stream.check (.symbol .comma) = true := by
        unfold TokenStream.check; rw [current_eq h']; rfl
      conv_lhs => unfold printArgs
      rw [check_bind, hc]
      rfl
    · refine .advance hp h' (by simp) fun h1 => ?_
      refine (printArg_accepts hvalue (hgood a (.head _)) hna ht h1.ready
        (by rw [h1.pending, hts])).bind fun a' p2 ha h2 => ?_
      obtain ⟨all, q, hq, hall, hleft⟩ := ih (a' :: args) (fun b hb => hgood b (.tail _ hb))
        hnmore hlength h2.ready (by rw [h2.pending, hts])
      exact ⟨all, q, hq, by simp [hall, ha], hleft⟩

theorem printStmt_accepts {args : List PrintArg} {s : Span}
    (hgood : (Stmt.print args s).Grammatical) (hn : PrintArg.listNesting args ≤ n) (hp : p.Ready)
    (h : p.pending = (Stmt.print args s).terminals ++ rest) :
    Accepts (printStmt value) p (·.bare = (Stmt.print args s).bare) rest := by
  obtain ⟨hne, hgood⟩ := hgood
  obtain ⟨a, more, rfl⟩ := List.exists_cons_of_ne_nil hne
  obtain ⟨hna, hnmore⟩ := Nat.max_le.1 hn
  have h : p.pending = .keyword .print :: .symbol .leftParen :: (a.terminals ++
      (PrintArg.moreTerminals more ++ .symbol .rightParen :: rest)) := by
    rw [h]; simp [Stmt.terminals, PrintArg.listTerminals]
  obtain ⟨t, ts, hts, ht⟩ := exists_endsArg more rest
  refine .place <| (Accepts.keyword hp h).bind fun _ p1 _ h1 => ?_
  refine (Accepts.symbol h1.ready h1.pending).bind fun _ p2 _ h2 => ?_
  refine (printArg_accepts hvalue (hgood a (.head _)) hna ht h2.ready
    (by rw [h2.pending, hts])).bind fun a' p3 ha h3 => ?_
  have hlength : (PrintArg.moreTerminals more).length ≤ p3.stream.size := by
    have := p3.length_pending_le
    rw [h3.pending, ← hts, List.length_append] at this
    omega
  have hargs := printArgs_accepts hvalue [a'] (fun b hb => hgood b (.tail _ hb)) hnmore
    hlength h3.ready (h3.pending.trans hts.symm)
  refine .of_eq (printArgs value p3.stream.size [a'] >>= fun args =>
    ParseM.expect (.symbol .rightParen) >>= fun _ => ParseM.spanFrom p.position >>= fun span =>
      pure (.print args span)) (by rw [get_bind]) ?_
  refine hargs.bind fun all p4 hall h4 => ?_
  refine (Accepts.symbol h4.ready h4.pending).bind fun _ p5 _ h5 => ?_
  exact .spanFrom <| .pure h5.ready h5.pending (by simp [Stmt.bare, hall, ha])

omit hvalue in
/-- An expression in parentheses without a node of its own. -/
theorem condition_accepts {e : Expr} (he : ReadsWhole value e) (hp : p.Ready)
    (h : p.pending = .symbol .leftParen :: (e.terminals ++ .symbol .rightParen :: rest)) :
    Accepts (condition value) p (·.bare = e.bare) rest := by
  refine (Accepts.symbol hp h).bind fun _ p1 _ h1 => ?_
  refine (he h1.ready h1.pending (follows_symbol rfl)).bind fun e' p2 he' h2 => ?_
  refine (Accepts.symbol h2.ready h2.pending).bind fun _ p3 _ h3 => ?_
  exact .pure h3.ready h3.pending he'

end

/-! ## Statements with blocks -/

/-- The step accepts the block, whatever follows. -/
def ReadsBlock [Build] (block : ParseM Block) (b : Block) : Prop :=
  ∀ ⦃p rest⦄, p.Ready → p.pending = b.terminals ++ rest → Accepts block p (·.bare = b.bare) rest

/-- The loop over branches accepts the branches, behind whatever branches it is given. -/
def ReadsChain [Build] (value : ParseM Expr) (block : ParseM Block) (chain : ElseChain) : Prop :=
  ∀ ⦃tokens branches p rest⦄, chain.terminals.length ≤ tokens → p.Ready →
    p.pending = chain.terminals ++ rest → (∀ t ∈ rest.head?, t ≠ .keyword .else) →
    Accepts (elseChain value block tokens branches) p
      (fun all => ∃ chain', all = chainOf branches chain' ∧ chain'.bare = chain.bare) rest

section

variable [Build] {value : ParseM Expr} {block : ParseM Block} {p : Parser} {rest : List Token}

theorem check_keyword {k : Keyword} (h : p.pending = .keyword k :: rest) :
    p.stream.check (.keyword k) = true := by
  unfold TokenStream.check
  rw [current_eq h]
  exact Token.sameKind_refl _

theorem check_keyword_ne {k : Keyword} (h : ∀ t ∈ p.pending.head?, t ≠ .keyword k) :
    p.stream.check (.keyword k) = false := by
  obtain ⟨ts, hts⟩ := p.pending_eq_cons
  cases hc : p.stream.check (.keyword k) with
  | false => rfl
  | true => exact absurd (Token.eq_of_sameKind_keyword hc) (h _ (by rw [hts]; rfl))

theorem readsChain_done : ReadsChain value block .done := by
  intro tokens branches p rest htokens hp h hrest
  refine .of_eq (pure (chainOf branches .done)) ?_ (.pure hp h ⟨.done, rfl, rfl⟩)
  cases tokens with
  | zero => rfl
  | succ tokens =>
    have hc : p.stream.check (.keyword .else) = false := check_keyword_ne (by rw [h]; exact hrest)
    unfold elseChain
    rw [check_bind, hc]
    rfl

theorem readsChain_otherwise {body : Block} (hbody : ReadsBlock block body) :
    ReadsChain value block (.otherwise body) := by
  intro tokens branches p rest htokens hp h hrest
  obtain ⟨tokens, rfl⟩ : ∃ m, tokens = m + 1 :=
    ⟨tokens - 1, by simp [ElseChain.terminals] at htokens; omega⟩
  have h : p.pending = .keyword .else :: (body.terminals ++ rest) := h
  have hpending := pending_advance hp h (by simp)
  refine .of_eq (ParseM.advance >>= fun _ => block >>= fun body =>
    pure (chainOf branches (.otherwise body))) ?_ ?_
  · have hif : p.advance.stream.check (.keyword .if) = false := by
      obtain ⟨ts, hts⟩ := body.exists_terminals
      refine check_keyword_ne fun t ht => ?_
      rw [hpending, hts] at ht
      cases ht
      simp
    unfold elseChain
    rw [check_bind, check_keyword h, advance_bind]
    simp only [if_true]
    rw [place_bind, advance_bind, check_bind, hif]
    rfl
  · refine .advance hp h (by simp) fun h1 => ?_
    refine (hbody h1.ready h1.pending).bind fun body' p2 hbody' h2 => ?_
    exact .pure h2.ready h2.pending ⟨.otherwise body', rfl, by simp [ElseChain.bare, hbody']⟩

theorem readsChain_elseIf {c : Expr} {body : Block} {s : Span} {others : ElseChain}
    (hc : ReadsWhole value c) (hbody : ReadsBlock block body)
    (hothers : ReadsChain value block others) :
    ReadsChain value block (.elseIf c body s others) := by
  intro tokens branches p rest htokens hp h hrest
  obtain ⟨tokens, rfl⟩ : ∃ m, tokens = m + 1 :=
    ⟨tokens - 1, by simp [ElseChain.terminals] at htokens; omega⟩
  have h : p.pending = .keyword .else :: .keyword .if :: .symbol .leftParen :: (c.terminals ++
      .symbol .rightParen :: (body.terminals ++ (others.terminals ++ rest))) := by
    rw [h]; simp [ElseChain.terminals]
  have hlength : others.terminals.length ≤ tokens := by
    simp [ElseChain.terminals] at htokens; omega
  have hpending := pending_advance hp h (by simp)
  refine .of_eq (ParseM.advance >>= fun _ => ParseM.advance >>= fun _ =>
    condition value >>= fun c => block >>= fun body => ParseM.spanFrom p.position >>= fun span =>
      elseChain value block tokens ((c, body, span) :: branches)) ?_ ?_
  · conv_lhs => unfold elseChain
    rw [check_bind, check_keyword h, advance_bind]
    simp only [if_true]
    rw [place_bind, advance_bind, check_bind, check_keyword hpending]
    rfl
  · refine .advance hp h (by simp) fun h1 => ?_
    refine .advance h1.ready h1.pending (by simp) fun h2 => ?_
    refine (condition_accepts hc h2.ready h2.pending).bind fun c' p3 hc' h3 => ?_
    refine (hbody h3.ready h3.pending).bind fun body' p4 hbody' h4 => ?_
    refine .spanFrom ?_
    obtain ⟨all, q, hq, ⟨chain, rfl, hchain⟩, hleft⟩ := hothers hlength h4.ready h4.pending hrest
    exact ⟨_, q, hq, ⟨_, rfl, by simp [ElseChain.bare, hc', hbody', hchain]⟩, hleft⟩

theorem ifStmt_accepts {c : Expr} {body : Block} {others : ElseChain} {s : Span}
    (hc : ReadsWhole value c) (hbody : ReadsBlock block body)
    (hothers : ReadsChain value block others) (hp : p.Ready)
    (h : p.pending = (Stmt.ifElse c body others s).terminals ++ rest)
    (hrest : ∀ t ∈ rest.head?, t ≠ .keyword .else) :
    Accepts (ifStmt value block) p (·.bare = (Stmt.ifElse c body others s).bare) rest := by
  have h : p.pending = .keyword .if :: .symbol .leftParen :: (c.terminals ++
      .symbol .rightParen :: (body.terminals ++ (others.terminals ++ rest))) := by
    rw [h]; simp [Stmt.terminals]
  refine .place <| (Accepts.keyword hp h).bind fun _ p1 _ h1 => ?_
  refine (condition_accepts hc h1.ready h1.pending).bind fun c' p2 hc' h2 => ?_
  refine (hbody h2.ready h2.pending).bind fun body' p3 hbody' h3 => ?_
  have hlength : others.terminals.length ≤ p3.stream.size := by
    have := p3.length_pending_le
    rw [h3.pending, List.length_append] at this
    omega
  refine .of_eq (elseChain value block p3.stream.size [] >>= fun others =>
    ParseM.spanFrom p.position >>= fun span => pure (.ifElse c' body' others span))
    (by rw [get_bind]) ?_
  refine (hothers hlength h3.ready h3.pending hrest).bind fun all p4 hall h4 => ?_
  obtain ⟨chain, rfl, hchain⟩ := hall
  exact .spanFrom <| .pure h4.ready h4.pending (by simp [Stmt.bare, hc', hbody', hchain])

theorem whileStmt_accepts {c : Expr} {body : Block} {s : Span} (hc : ReadsWhole value c)
    (hbody : ReadsBlock block body) (hp : p.Ready)
    (h : p.pending = (Stmt.whileLoop c body s).terminals ++ rest) :
    Accepts (whileStmt value block) p (·.bare = (Stmt.whileLoop c body s).bare) rest := by
  have h : p.pending = .keyword .while :: .symbol .leftParen :: (c.terminals ++
      .symbol .rightParen :: (body.terminals ++ rest)) := by
    rw [h]; simp [Stmt.terminals]
  refine .place <| (Accepts.keyword hp h).bind fun _ p1 _ h1 => ?_
  refine (condition_accepts hc h1.ready h1.pending).bind fun c' p2 hc' h2 => ?_
  refine (hbody h2.ready h2.pending).bind fun body' p3 hbody' h3 => ?_
  exact .spanFrom <| .pure h3.ready h3.pending (by simp [Stmt.bare, hc', hbody'])

theorem catchBinding_accepts {binding : Option String} {b : Block} (hp : p.Ready)
    (h : p.pending = bindingTerminals binding ++ (b.terminals ++ rest)) :
    Accepts catchBinding p (· = binding) (b.terminals ++ rest) := by
  obtain ⟨ts, hts⟩ := b.exists_terminals
  cases binding with
  | none =>
    have hc : p.stream.check (.symbol .leftParen) = false := by
      have hv : p.pending = .symbol .leftBrace :: (ts ++ rest) := by rw [h, hts]; rfl
      unfold TokenStream.check; rw [current_eq hv]; rfl
    refine .of_eq (pure none) ?_ (.pure hp h rfl)
    unfold catchBinding
    rw [check_bind, hc]
    rfl
  | some name =>
    have h : p.pending = .symbol .leftParen :: .identifier name :: .symbol .rightParen ::
      (b.terminals ++ rest) := h
    have hc : p.stream.check (.symbol .leftParen) = true := by
      unfold TokenStream.check; rw [current_eq h]; rfl
    refine .of_eq (ParseM.advance >>= fun _ => expectName >>= fun name =>
      ParseM.expect (.symbol .rightParen) >>= fun _ => pure (some name)) ?_ ?_
    · unfold catchBinding
      rw [check_bind, hc]
      rfl
    · refine .advance hp h (by simp) fun h1 => ?_
      refine (Accepts.name h1.ready h1.pending).bind fun name' p2 hname h2 => ?_
      refine (Accepts.symbol h2.ready h2.pending).bind fun _ p3 _ h3 => ?_
      exact .pure h3.ready h3.pending (by rw [hname])

theorem tryStmt_accepts {body handler : Block} {binding : Option String} {s : Span}
    (hbody : ReadsBlock block body) (hhandler : ReadsBlock block handler) (hp : p.Ready)
    (h : p.pending = (Stmt.tryCatch body binding handler s).terminals ++ rest) :
    Accepts (tryStmt block) p (·.bare = (Stmt.tryCatch body binding handler s).bare) rest := by
  have h : p.pending = .keyword .try :: (body.terminals ++ .keyword .catch ::
      (bindingTerminals binding ++ (handler.terminals ++ rest))) := by
    rw [h]; cases binding <;> simp [Stmt.terminals, bindingTerminals]
  refine .place <| (Accepts.keyword hp h).bind fun _ p1 _ h1 => ?_
  refine (hbody h1.ready h1.pending).bind fun body' p2 hbody' h2 => ?_
  refine (Accepts.keyword h2.ready h2.pending).bind fun _ p3 _ h3 => ?_
  refine (catchBinding_accepts h3.ready h3.pending).bind fun binding' p4 hbinding h4 => ?_
  refine (hhandler h4.ready h4.pending).bind fun handler' p5 hhandler' h5 => ?_
  exact .spanFrom <| .pure h5.ready h5.pending (by simp [Stmt.bare, hbody', hbinding, hhandler'])

end

/-! ## Lists of statements -/

/-- The step accepts the statement before what may follow one. -/
def ReadsStatement [Build] (statement : ParseM Stmt) (s : Stmt) : Prop :=
  ∀ ⦃p rest⦄, p.Ready → p.pending = s.terminals ++ rest → Separate rest →
    Accepts statement p (·.bare = s.bare) rest

/-- A token that a list of statements ends before. -/
def Closes (inBlock : Bool) (t : Token) : Prop :=
  t = .eof ∨ inBlock = true ∧ t = .symbol .rightBrace

theorem Closes.separate {inBlock : Bool} {t : Token} (h : Closes inBlock t) (rest : List Token) : Separate (t :: rest) := by
  rintro u hu
  cases hu
  rcases h with rfl | ⟨-, rfl⟩
  · exact ⟨(fun _ h => nomatch h), by simp⟩
  · exact ⟨(fun _ h => nomatch h), by simp⟩

section

variable [Build] {statement : ParseM Stmt} {inBlock : Bool} {p : Parser} {t : Token}
  {rest : List Token}

theorem listEnds_of_closes (h : Closes inBlock t) (hp : p.pending = t :: rest) :
    listEnds inBlock p.stream = true := by
  have hv := current_eq hp
  unfold listEnds TokenStream.atEnd TokenStream.check
  rw [hv]
  rcases h with rfl | ⟨rfl, rfl⟩ <;> rfl

theorem listEnds_of_opening (h : t.Opening) (hp : p.pending = t :: rest) :
    listEnds inBlock p.stream = false := by
  have hv := current_eq hp
  have heof : t.isEof = false := by
    cases ht : t with
    | eof => exact absurd ht h.ne_eof
    | _ => rfl
  have hbrace : t.sameKind (.symbol .rightBrace) = false := by
    cases hk : t.sameKind (.symbol .rightBrace) with
    | false => rfl
    | true => exact absurd (Token.eq_of_sameKind_symbol hk) h.ne_rightBrace
  unfold listEnds TokenStream.atEnd TokenStream.check
  rw [hv, heof, hbrace, Bool.and_false]
  rfl

/-- As many turns as there are tokens are enough for the statements of a list. -/
theorem statementsFrom_accepts {statements : List Stmt} {tokens : Nat} (done : Array Stmt)
    (hall : ∀ s ∈ statements, ReadsStatement statement s) (ht : Closes inBlock t)
    (htokens : (Stmt.listTerminals statements).length ≤ tokens) (hp : p.Ready)
    (h : p.pending = Stmt.listTerminals statements ++ t :: rest) :
    ∃ more q, statementsFrom statement inBlock tokens done p = (done.toList ++ more, q) ∧
      Stmt.listBare more = Stmt.listBare statements ∧ Left p (t :: rest) q := by
  induction statements generalizing tokens done p with
  | nil =>
    refine ⟨[], p, ?_, rfl, hp, h, rfl, rfl⟩
    rw [List.append_nil]
    cases tokens with
    | zero => rfl
    | succ tokens =>
      unfold statementsFrom
      rw [if_pos (listEnds_of_closes ht h)]
  | cons s statements ih =>
    obtain ⟨u, us, hus, hu⟩ := s.exists_terminals
    have h' : p.pending = s.terminals ++ (Stmt.listTerminals statements ++ t :: rest) := by
      rw [h]; simp [Stmt.listTerminals]
    have hopen : listEnds inBlock p.stream = false := by
      rw [hus, List.cons_append] at h'
      exact listEnds_of_opening hu h'
    obtain ⟨tokens, rfl⟩ : ∃ m, tokens = m + 1 :=
      ⟨tokens - 1, by simp [Stmt.listTerminals, hus] at htokens; omega⟩
    have hlength : (Stmt.listTerminals statements).length ≤ tokens := by
      simp [Stmt.listTerminals, hus] at htokens; omega
    -- What follows the statement begins another one or closes the list.
    have hsep : Separate (Stmt.listTerminals statements ++ t :: rest) := by
      cases statements with
      | nil => exact ht.separate rest
      | cons s' statements => rw [Stmt.listTerminals, List.append_assoc]; exact s'.separate _
    obtain ⟨s', q, hq, hs', hleft⟩ := hall s (.head _) hp h' hsep
    obtain ⟨more, r, hr, hmore, hleft'⟩ := ih (done.push s') (fun s hs => hall s (.tail _ hs))
      hlength hleft.ready hleft.pending
    refine ⟨s' :: more, r, ?_, by simp [Stmt.listBare, hs', hmore], hleft.trans hleft'⟩
    unfold statementsFrom
    rw [hopen, hq]
    simpa using hr

theorem blockBody_accepts {b : Block} (hall : ∀ s ∈ b.statements, ReadsStatement statement s)
    (hp : p.Ready) (h : p.pending = b.terminals ++ rest) :
    Accepts (blockBody statement) p (·.bare = b.bare) rest := by
  obtain ⟨inside, span⟩ := b
  have h : p.pending = .symbol .leftBrace :: (Stmt.listTerminals inside ++
      .symbol .rightBrace :: rest) := by
    rw [h]; simp [Block.terminals]
  rw [blockBody_eq]
  refine .place <| (Accepts.symbol hp h).bind fun _ p1 _ h1 => ?_
  have hlength : (Stmt.listTerminals inside).length ≤ p1.stream.size := by
    have := p1.length_pending_le
    rw [h1.pending, List.length_append] at this
    omega
  obtain ⟨more, p2, hq, hmore, h2⟩ := statementsFrom_accepts #[] hall
    (.inr ⟨rfl, rfl⟩) hlength h1.ready h1.pending
  have hinside : Accepts (modifyGet (statements statement true)) p1
      (Stmt.listBare · = Stmt.listBare inside) (.symbol .rightBrace :: rest) := by
    refine ⟨more, p2, ?_, hmore, h2⟩
    show (Except.ok (statements statement true p1).1, (statements statement true p1).2) = _
    unfold statements
    rw [hq]
    rfl
  refine hinside.bind fun inside' p2 hinside h2 => ?_
  -- The closing brace stands there, so the block is closed without an error.
  have hclose : closeBlock p2 = p2.advance := by
    refine closeBlock_of_check ?_
    unfold TokenStream.check; rw [current_eq h2.pending]; rfl
  have h3 := left_advance h2.ready h2.pending (by simp)
  refine ⟨.mk inside' (p2.advance.stream.spanFrom p.position), p2.advance, ?_,
    by simp [Block.bare, hinside], h3⟩
  rw [modify_bind, hclose, spanFrom_bind]
  rfl

end

/-! ## The rules -/

theorem statementBody_type [Build] {value : ParseM Expr} {block : ParseM Block} {p : Parser}
    {t : ValueType} (h : p.stream.current.value = .keyword t.keyword) :
    statementBody value block p = (varDecl value >>= fun d => pure (.varDecl d) : ParseM Stmt) p := by
  rw [statementBody, current_bind, h]
  cases t <;> rfl

mutual

/-- Every statement of the grammar is accepted. -/
theorem Stmt.accepted [Build] (s : Stmt) {n : Nat} (hgood : s.Grammatical) (hn : s.nesting ≤ n) :
    ReadsStatement (statement n) s := by
  obtain ⟨n, rfl⟩ : ∃ m, n = m + 1 := by
    refine ⟨n - 1, ?_⟩
    cases s <;> simp only [Stmt.nesting] at hn <;> omega
  intro p rest hp h hrest
  unfold statement
  refine .withRule ?_
  -- Opening the rule changes neither the tokens nor the errors.
  have hp : (p.enter .statement).Ready := ready_enter hp
  have h : (p.enter .statement).pending = s.terminals ++ rest := h
  generalize p.enter .statement = p at hp h ⊢
  have hvalue : ∀ {e : Expr}, e.FitsAt 0 → e.nesting < n → ReadsWhole (expression n) e :=
    expression_accepts
  match s with
  | .varDecl d =>
    have hn := Nat.le_of_succ_le_succ hn
    refine .of_eq _ (statementBody_type (current_eq h)) ?_
    refine (varDecl_accepts hvalue hgood hn hp h hrest.follows).bind fun d' q hd hq => ?_
    exact .pure hq.ready hq.pending (by simp [Stmt.bare, hd])
  | .constDecl d span =>
    refine .of_eq (constDecl (expression n)) ?_
      (constDecl_accepts hvalue hgood (Nat.le_of_succ_le_succ hn) hp h hrest.follows)
    rw [statementBody, current_bind, current_eq h]
    rfl
  | .assignment target op e span =>
    refine .of_eq (assignment (expression n)) ?_
      (assignment_accepts hvalue hgood (Nat.le_of_succ_le_succ hn) hp h hrest.follows)
    rw [statementBody, current_bind, current_eq h]
  | .print args span =>
    refine .of_eq (printStmt (expression n)) ?_
      (printStmt_accepts hvalue hgood (Nat.le_of_succ_le_succ hn) hp h)
    rw [statementBody, current_bind, current_eq h]
    rfl
  | .ifElse c body others span =>
    obtain ⟨hfits, hbody, hothers⟩ := hgood
    obtain ⟨hnc, hn⟩ := Nat.max_le.1 (Nat.le_of_succ_le_succ hn)
    obtain ⟨hnbody, hnothers⟩ := Nat.max_le.1 hn
    refine .of_eq (ifStmt (expression n) (block n)) ?_
      (ifStmt_accepts (hvalue hfits hnc) (Block.accepted body hbody hnbody)
        (ElseChain.accepted others hothers hnothers) hp h fun t ht => (hrest t ht).2)
    rw [statementBody, current_bind, current_eq h]
    rfl
  | .whileLoop c body span =>
    obtain ⟨hfits, hbody⟩ := hgood
    obtain ⟨hnc, hnbody⟩ := Nat.max_le.1 (Nat.le_of_succ_le_succ hn)
    refine .of_eq (whileStmt (expression n) (block n)) ?_
      (whileStmt_accepts (hvalue hfits hnc) (Block.accepted body hbody hnbody) hp h)
    rw [statementBody, current_bind, current_eq h]
    rfl
  | .tryCatch body binding handler span =>
    obtain ⟨hbody, hhandler⟩ := hgood
    obtain ⟨hnbody, hnhandler⟩ := Nat.max_le.1 (Nat.le_of_succ_le_succ hn)
    refine .of_eq (tryStmt (block n)) ?_
      (tryStmt_accepts (Block.accepted body hbody hnbody)
        (Block.accepted handler hhandler hnhandler) hp h)
    have hv : p.stream.current.value = .keyword .try := by
      cases binding <;> exact current_eq h
    rw [statementBody, current_bind, hv]
    rfl
  | .block b =>
    have hbody := Block.accepted b hgood (Nat.le_of_succ_le_succ hn)
    refine .of_eq (block n >>= fun b => pure (.block b)) ?_
      ((hbody hp h).bind fun b' q hb hq => .pure hq.ready hq.pending (by simp [Stmt.bare, hb]))
    obtain ⟨ts, hts⟩ := b.exists_terminals
    have hv : p.pending = .symbol .leftBrace :: (ts ++ rest) := by
      rw [h, Stmt.terminals, hts]; rfl
    rw [statementBody, current_bind, current_eq hv]

/-- Every block of the grammar is accepted. -/
theorem Block.accepted [Build] (b : Block) {n : Nat} (hgood : b.Grammatical) (hn : b.nesting ≤ n) :
    ReadsBlock (block n) b := by
  match b with
  | .mk statements span =>
    obtain ⟨n, rfl⟩ : ∃ m, n = m + 1 := ⟨n - 1, by simp only [Block.nesting] at hn; omega⟩
    intro p rest hp h
    have hall := Stmt.listAccepted statements (n := n) hgood (Nat.le_of_succ_le_succ hn)
    unfold block
    exact .withRule (blockBody_accepts hall (ready_enter hp) h)

/-- All branches of the grammar are accepted. -/
theorem ElseChain.accepted [Build] (chain : ElseChain) {n : Nat} (hgood : chain.Grammatical)
    (hn : chain.nesting ≤ n) : ReadsChain (expression n) (block n) chain := by
  match chain with
  | .done => exact readsChain_done
  | .otherwise body => exact readsChain_otherwise (Block.accepted body hgood hn)
  | .elseIf c body span rest =>
    obtain ⟨hfits, hbody, hrest⟩ := hgood
    obtain ⟨hnc, hn⟩ := Nat.max_le.1 hn
    obtain ⟨hnbody, hnrest⟩ := Nat.max_le.1 hn
    exact readsChain_elseIf (expression_accepts hfits hnc) (Block.accepted body hbody hnbody)
      (ElseChain.accepted rest hrest hnrest)

/-- All statements of a list of the grammar are accepted. -/
theorem Stmt.listAccepted [Build] (statements : List Stmt) {n : Nat}
    (hgood : Stmt.ListGrammatical statements) (hn : Stmt.listNesting statements ≤ n) :
    ∀ s ∈ statements, ReadsStatement (statement n) s := by
  match statements with
  | [] => intro s hs; cases hs
  | s :: rest =>
    obtain ⟨hs, hrest⟩ := hgood
    obtain ⟨hns, hnrest⟩ := Nat.max_le.1 hn
    rintro u (_ | ⟨_, hu⟩)
    · exact Stmt.accepted s hs hns
    · exact Stmt.listAccepted rest hrest hnrest u hu

end

/-- A program of the grammar is accepted, and read up to the end. -/
theorem program_accepts [Build] {tree : Program} {p : Parser} (hgood : tree.Grammatical)
    (hn : tree.nesting ≤ Limit.parseDepth) (hp : p.Ready)
    (h : p.pending = tree.terminals ++ [.eof]) :
    ∃ tree' q, program p = (tree', q) ∧ tree'.bare = tree.bare ∧ q.history = p.history := by
  have hlength : (Stmt.listTerminals tree.statements).length ≤ p.stream.size := by
    have := p.length_pending_le
    rw [h, List.length_append] at this
    exact Nat.le_trans (Nat.le_add_right _ _) this
  obtain ⟨more, q, hq, hmore, hleft⟩ := statementsFrom_accepts #[]
    (Stmt.listAccepted tree.statements hgood hn) (show Closes false .eof from .inl rfl) hlength hp h
  refine ⟨⟨more, q.stream.spanFrom p.position⟩, q, ?_, by simp [Program.bare, hmore], hleft.history⟩
  unfold program statements
  rw [hq]
  rfl

end Parsing

end EvlCheck
