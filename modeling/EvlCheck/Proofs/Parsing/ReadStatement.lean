/-
What a statement rule reads is what it returns, as long as no error was met. Tokens are skipped
behind a statement that failed, and the tokens of a block that is not closed end too early; either
leaves an error. The places of the nodes and the shape of what is returned do not depend on that, so
`Found` states them in any case, and the tokens and the warnings only for a parse without errors.

The inductions follow the loops of the rules, and the number of rules that may still be opened.
-/
import EvlCheck.Proofs.Parsing.Progress
import EvlCheck.Proofs.Parsing.ReadExpression

namespace EvlCheck

/-- A node over the same tokens as its only child. -/
theorem Node.AllPlaced.wrap {row : Array StreamToken} {n : Node} {kind : NodeKind} {a b : Nat}
    (hk : ∀ e, kind ≠ .expression e) (h : AllPlaced row [n] a b) :
    AllPlaced row [.mk kind n.span [n]] a b := by
  obtain ⟨c, d, hac, hn, hdb⟩ := h
  refine ⟨c, d, hac, placed_of_kind hk ?_ hn.single, hdb⟩
  cases n; exact hn.1

theorem Stmt.toNode_block (b : Block) :
    (Stmt.block b).toNode = .mk .statement b.toNode.span [b.toNode] := by
  cases b; rfl

theorem PrintArg.toNode_expr (e : Expr) :
    (PrintArg.expr e).toNode = .mk .exprArg e.toNode.span [e.toNode] := by
  have hspan : e.toNode.span = e.span := by rw [e.toNode_eq]; rfl
  rw [hspan]
  rfl

namespace Parsing

open EvlCheck.Parser ParseM

variable [Build]

/-! ## Tokens found -/

/-- From one state to a later one some nodes were placed, which are as they should be. Where no
error was met, the cursor went over known tokens. -/
structure Found (p : Parser) (nodes : List Node) (ts : List Token) (good : Prop) (q : Parser) :
    Prop where
  onward : Onward p q
  ready : q.Ready
  placed : Node.AllPlaced p.stream.significant nodes p.position q.position
  good : good
  tokens : q.Clean → valuesFrom p.stream.significant p.position q.position = ts
  tells : q.Clean → Tells p nodes q

theorem Took.found {p q : Parser} {ns : List Node} {ts : List Token} (h : Took p ns ts q) :
    Found p ns ts True q :=
  ⟨h.onward, h.ready, h.placed, trivial, fun _ => h.tokens, fun _ => h.tells⟩

namespace Found

variable {p q r : Parser} {ns ms : List Node} {ts us : List Token} {g g' : Prop}

theorem trans (h : Found p ns ts g q) (h' : Found q ms us g' r) :
    Found p (ns ++ ms) (ts ++ us) (g ∧ g') r := by
  have hplaced := h'.placed
  rw [h.onward.tokens] at hplaced
  refine ⟨h.onward.trans h'.onward, h'.ready, h.placed.append hplaced, ⟨h.good, h'.good⟩,
    fun hr => ?_, fun hr => (h.tells (h'.onward.clean hr)).trans h.onward (h'.tells hr)⟩
  have hts := h.tokens (h'.onward.clean hr)
  have hus := h'.tokens hr
  rw [h.onward.tokens] at hus
  rw [← hts, ← hus, valuesFrom_append h.onward.position h'.onward.position]

theorem congr (h : Found p ns ts g q) (hns : ns = ms) (hts : ts = us) : Found p ms us g q :=
  hns ▸ hts ▸ h

theorem imp (h : Found p ns ts g q) (hg : g → g') : Found p ns ts g' q :=
  ⟨h.onward, h.ready, h.placed, hg h.good, h.tokens, h.tells⟩

/-- Where an error was met, the tokens may be any. -/
theorem of_not_clean (h : Onward p q) (hq : q.Ready) (hc : ¬ q.Clean) : Found p [] ts True q :=
  ⟨h, hq, h.position, trivial, fun hq => absurd hq hc, fun hq => absurd hq hc⟩

/-- The tokens and nodes found make up a node over them. -/
theorem node (h : Found p ns ts g q) (kind : NodeKind) (hlt : p.position < q.position)
    (hk : kind.isStructural = true) :
    Found p [.mk kind (q.stream.spanFrom p.position) ns] ts g q := by
  refine ⟨h.onward, h.ready, Node.Placed.single (Node.placed_of_kind (NodeKind.ne_expression hk) ?_ h.placed),
    h.good, h.tokens, fun hq => (h.tells hq).node hk _⟩
  rw [← h.onward.tokens]
  exact TokenStream.covers_spanFrom hlt

theorem wrap {n : Node} (h : Found p [n] ts g q) (kind : NodeKind)
    (hk : kind.isStructural = true) : Found p [.mk kind n.span [n]] ts g q :=
  ⟨h.onward, h.ready, h.placed.wrap (NodeKind.ne_expression hk), h.good, h.tokens,
    fun hq => (h.tells hq).node hk _⟩

/-- A string that is printed alone is a node of its own, and it is warned of. -/
theorem loneString {text : String} (hp : p.Ready) (hv : p.stream.current.value = .string text) :
    Found p [.mk (.stringArg text) p.stream.current.span []] [.string text] True
      p.reportLoneString.advance := by
  have hreport := onward_reportLoneString p
  have hstream := stream_reportLoneString p
  have hv' : p.reportLoneString.stream.current.value = .string text := by
    rw [hstream]
    exact hv
  have htook := Took.advance (hreport.ready hp) hv' (by simp)
  have honward := hreport.trans htook.onward
  have hposition : p.reportLoneString.position = p.position := by
    unfold position
    rw [hstream]
  have hmove : p.reportLoneString.advance.position = p.position + 1 := by
    rw [← hposition]
    exact TokenStream.position_advance (hreport.ready hp).ended (hv' ▸ by simp)
  have htokens := htook.tokens
  rw [hreport.tokens, hposition] at htokens
  refine ⟨honward, htook.ready, Node.Placed.single ?_, trivial, fun _ => htokens, fun hq hindexed => ?_⟩
  · rw [hmove]
    exact Node.placed_of_kind (by simp) (covers_succ p.stream.getElem?_position) (Nat.le_succ _)
  · rw [Node.allLoneStrings_single, Node.loneStrings_stringArg, List.reverse_singleton]
    exact warned_reportLoneString hindexed (hp.running (honward.clean hq))

theorem leave {rule : Rule} (h : Found (p.enter rule) ns ts g q) : Found p ns ts g q.leave :=
  ⟨onward_leave h.onward, ⟨h.ready.ended, h.ready.running⟩, h.placed, h.good, h.tokens, h.tells⟩

end Found

theorem ExprRead.found {n : Nat} {p q : Parser} {e : Expr} (h : ExprRead n 0 p e q) :
    Found p [e.toNode] e.terminals (e.FitsAt 0 ∧ e.nesting < n) q :=
  h.took.found.imp fun _ => ⟨h.fits, h.nesting_lt⟩

/-! ## Statements without blocks -/

/-- A token that a print argument ends before. -/
def endsArg (t : Token) : Bool := t == .symbol .comma || t == .symbol .rightParen

/-- From one state to a later one further arguments of a print statement were read, each behind a
comma. The last two parts hold for arguments that a closing parenthesis follows: what stands before
the first comma ends there, and all arguments are ones of the grammar. -/
def ArgsRead (n : Nat) (p : Parser) (earlier all : List PrintArg) (q : Parser) : Prop :=
  ∃ more, all = earlier.reverse ++ more ∧
    (q.stream.current.value = .symbol .rightParen → endsArg p.stream.current.value = true) ∧
    Found p (more.map PrintArg.toNode) (PrintArg.moreTerminals more)
      ((q.stream.current.value = .symbol .rightParen → ∀ a ∈ more, a.Grammatical) ∧
        PrintArg.listNesting more ≤ n) q

section

variable {n : Nat} {value : ParseM Expr}
  (hvalue : ∀ {p q e}, p.Ready → value p = (.ok e, q) → ExprRead n 0 p e q)

section

variable {p q : Parser}

include hvalue

theorem varDecl_read {d : VarDecl} (hp : p.Ready) (h : varDecl value p = (.ok d, q)) :
    Found p [d.toNode] d.terminals (d.value.FitsAt 0 ∧ d.value.nesting < n) q := by
  unfold varDecl at h
  rw [place_bind] at h
  obtain ⟨t, p1, htype, h⟩ := bind_ok h
  have hword := Took.type hp htype
  obtain ⟨name, p2, hname, h⟩ := bind_ok h
  have hident := Took.name hword.ready hname
  obtain ⟨_, p3, hexpect, h⟩ := bind_ok h
  have hsign := Took.symbol hident.ready hexpect
  obtain ⟨e, p4, he, h⟩ := bind_ok h
  have hbody := (hvalue hsign.ready he).found
  cases h
  have hrest := hident.found.trans <| hsign.found.trans hbody
  have hlt := Nat.lt_of_lt_of_le (hword.lt (by simp)) hrest.onward.position
  exact ((hword.found.trans hrest).imp fun h => h.2.2.2).node _ hlt rfl

theorem constDecl_read {s : Stmt} (hp : p.Ready) (h : constDecl value p = (.ok s, q)) :
    Found p [s.toNode] s.terminals (s.Grammatical ∧ s.nesting ≤ n + 1) q := by
  unfold constDecl at h
  rw [place_bind] at h
  obtain ⟨_, p1, hexpect, h⟩ := bind_ok h
  have hword := Took.keyword hp hexpect
  obtain ⟨d, p2, hd, h⟩ := bind_ok h
  have hdecl := varDecl_read hvalue hword.ready hd
  cases h
  have hlt := Nat.lt_of_lt_of_le (hword.lt (by simp)) hdecl.onward.position
  exact (((hword.found.trans hdecl).imp fun h => ⟨h.2.1, Nat.succ_le_succ h.2.2⟩).node _ hlt rfl).wrap
    .statement rfl

theorem assignment_read {s : Stmt} (hp : p.Ready) (h : assignment value p = (.ok s, q)) :
    Found p [s.toNode] s.terminals (s.Grammatical ∧ s.nesting ≤ n + 1) q := by
  unfold assignment at h
  rw [place_bind] at h
  obtain ⟨name, p1, hname, h⟩ := bind_ok h
  have hident := Took.name hp hname
  obtain ⟨m, hm, h⟩ := current_ok h
  split at hm <;> subst hm
  · exact absurd h unexpected_ne_ok
  · next op hop =>
    rw [advance_bind] at h
    have hsign := Took.advance hident.ready (AssignOp.symbol_of_ofToken? hop) (by simp)
    obtain ⟨e, p3, he, h⟩ := bind_ok h
    have hbody := (hvalue hsign.ready he).found
    cases h
    have hrest := hsign.found.trans hbody
    have hlt := Nat.lt_of_lt_of_le (hident.lt (by simp)) hrest.onward.position
    exact (((hident.found.trans hrest).imp fun h => ⟨h.2.2.1, Nat.succ_le_succ h.2.2.2⟩).node _ hlt rfl).wrap
      .statement rfl

/-- A string that an argument may end behind is no expression. Every other string begins one; where
it is the whole of that, nothing goes on behind it. -/
theorem printArg_read {a : PrintArg} (hp : p.Ready) (h : printArg value p = (.ok a, q)) :
    Found p [a.toNode] a.terminals
      ((endsArg q.stream.current.value = true → a.Grammatical) ∧ a.nesting ≤ n) q := by
  have hexpr : ∀ {a}, (do return PrintArg.expr (← value)) p = (.ok a, q) →
      (∀ t, p.stream.current.value = .string t → endsArg (p.stream.peek 1).value = false) →
      Found p [a.toNode] a.terminals
        ((endsArg q.stream.current.value = true → a.Grammatical) ∧ a.nesting ≤ n) q := by
    intro a h hlone
    obtain ⟨e, q', he, h⟩ := bind_ok h
    cases h
    have hbody := hvalue hp he
    rw [PrintArg.toNode_expr]
    refine (hbody.found.wrap _ rfl).imp fun hgood =>
      ⟨fun hends => ⟨hgood.1, fun t s hts => ?_⟩, hgood.2⟩
    -- A whole expression that is a string is one token, so the next one is known.
    subst hts
    obtain ⟨hcurrent, hpos⟩ := hbody.took.of_single
    have hpeek := TokenStream.peek_one hbody.took.onward.tokens hpos
    rw [← hpeek, hlone t hcurrent] at hends
    cases hends
  obtain ⟨m, hm, h⟩ := get_ok h
  dsimp only at hm
  rw [tokenAhead_one] at hm
  split at hm
  · next text htext =>
    have hv := stringText?_eq_some htext
    split at hm <;> subst hm
    · rw [modify_bind, advance_bind] at h
      cases h
      rw [stream_reportLoneString]
      exact (Found.loneString hp hv).imp fun _ => ⟨fun _ => trivial, Nat.zero_le _⟩
    · next hnot =>
      refine hexpr h fun t _ => ?_
      simpa [endsArg] using hnot
  · next hnone =>
    subst hm
    refine hexpr h fun t ht => ?_
    rw [ht] at hnone
    cases hnone

omit hvalue in
theorem argsRead_nil (hp : p.Ready) (args : List PrintArg) : ArgsRead n p args args.reverse p := by
  refine ⟨[], by simp, fun hq => by rw [hq]; rfl, (Took.refl hp).found.imp fun _ => ?_⟩
  exact ⟨fun _ _ ha => by simp at ha, Nat.zero_le _⟩

theorem printArgs_read {tokens : Nat} {args all : List PrintArg} (hp : p.Ready)
    (h : printArgs value tokens args p = (.ok all, q)) : ArgsRead n p args all q := by
  induction tokens generalizing args p with
  | zero =>
    cases h
    exact argsRead_nil hp args
  | succ tokens ih =>
    unfold printArgs at h
    rw [check_bind] at h
    by_cases hc : p.stream.check (.symbol .comma) = true
    · rw [if_pos hc, advance_bind] at h
      have hv := Token.eq_of_sameKind_symbol hc
      have hcomma := Took.advance hp hv (by simp)
      obtain ⟨a, p2, ha, h⟩ := bind_ok h
      have harg := printArg_read hvalue hcomma.ready ha
      obtain ⟨more, rfl, hends, hmore⟩ := ih harg.ready h
      refine ⟨a :: more, by simp, fun _ => by rw [hv]; rfl, ?_⟩
      refine (hcomma.found.trans (harg.trans hmore)).imp ?_
      rintro ⟨-, ⟨hgood, hnesting⟩, hgoods, hnestings⟩
      refine ⟨fun hq => ?_, Nat.max_le.2 ⟨hnesting, hnestings⟩⟩
      rintro b (_ | ⟨_, hb⟩)
      · exact hgood (hends hq)
      · exact hgoods hq b hb
    · rw [if_neg hc] at h
      cases h
      exact argsRead_nil hp args

theorem printStmt_read {s : Stmt} (hp : p.Ready) (h : printStmt value p = (.ok s, q)) :
    Found p [s.toNode] s.terminals (s.Grammatical ∧ s.nesting ≤ n + 1) q := by
  unfold printStmt at h
  rw [place_bind] at h
  obtain ⟨_, p1, hexpect, h⟩ := bind_ok h
  have hword := Took.keyword hp hexpect
  obtain ⟨_, p2, hexpect, h⟩ := bind_ok h
  have hleft := Took.symbol hword.ready hexpect
  obtain ⟨a, p3, ha, h⟩ := bind_ok h
  have hfirst := printArg_read hvalue hleft.ready ha
  rw [get_bind] at h
  obtain ⟨all, p4, hall, h⟩ := bind_ok h
  obtain ⟨more, rfl, hends, hmore⟩ := printArgs_read hvalue hfirst.ready hall
  obtain ⟨_, p5, hexpect, h⟩ := bind_ok h
  have hright := Took.symbol hmore.ready hexpect
  cases h
  have hclose := hright.of_single.1
  have hrest := hleft.found.trans (hfirst.trans (hmore.trans hright.found))
  have hlt := Nat.lt_of_lt_of_le (hword.lt (by simp)) hrest.onward.position
  have hnode := ((hword.found.trans hrest).node .print hlt rfl).wrap .statement rfl
  refine (hnode.congr ?_ ?_).imp ?_
  · simp [Stmt.toNode, Node.span]
  · simp [Stmt.terminals, PrintArg.listTerminals]
  · rintro ⟨-, -, ⟨hgood, hnesting⟩, ⟨hgoods, hnestings⟩, -⟩
    refine ⟨⟨by simp, ?_⟩, Nat.succ_le_succ (Nat.max_le.2 ⟨hnesting, hnestings⟩)⟩
    rintro b (_ | ⟨_, hb⟩)
    · exact hgood (hends hclose)
    · exact hgoods hclose b hb

/-- An expression in parentheses. -/
theorem condition_read {e : Expr} (hp : p.Ready) (h : condition value p = (.ok e, q)) :
    Found p [e.toNode] (.symbol .leftParen :: (e.terminals ++ [.symbol .rightParen]))
      (e.FitsAt 0 ∧ e.nesting < n) q := by
  unfold condition at h
  obtain ⟨_, p1, hexpect, h⟩ := bind_ok h
  have hleft := Took.symbol hp hexpect
  obtain ⟨e, p2, he, h⟩ := bind_ok h
  have hbody := hvalue hleft.ready he
  obtain ⟨_, p3, hexpect, h⟩ := bind_ok h
  have hright := Took.symbol hbody.took.ready hexpect
  cases h
  exact (hleft.trans (hbody.took.trans hright)).found.imp fun _ => ⟨hbody.fits, hbody.nesting_lt⟩

end

/-! ## Statements with blocks -/

/-- From one state to a later one branches of a conditional were read behind earlier ones. -/
def ChainRead (n : Nat) (p : Parser) (earlier : List Branch) (chain : ElseChain) (q : Parser) : Prop :=
  ∃ rest, chain = chainOf earlier rest ∧
    Found p rest.nodes rest.terminals (rest.Grammatical ∧ rest.nesting ≤ n) q

variable {block : ParseM Block}
  (hblock : ∀ {p q b}, p.Ready → block p = (.ok b, q) →
    Found p [b.toNode] b.terminals (b.Grammatical ∧ b.nesting ≤ n) q)

section

variable {p q : Parser}

include hvalue hblock

omit hvalue hblock in
theorem chainRead_done (hp : p.Ready) (branches : List Branch) :
    ChainRead n p branches (chainOf branches .done) p :=
  ⟨.done, rfl, (Took.refl hp).found.imp fun _ => ⟨trivial, Nat.zero_le _⟩⟩

theorem elseChain_read {tokens : Nat} {branches : List Branch} {chain : ElseChain} (hp : p.Ready)
    (h : elseChain value block tokens branches p = (.ok chain, q)) :
    ChainRead n p branches chain q := by
  induction tokens generalizing branches p with
  | zero =>
    cases h
    exact chainRead_done hp branches
  | succ tokens ih =>
    unfold elseChain at h
    rw [check_bind] at h
    by_cases hc : p.stream.check (.keyword .else) = true
    · rw [if_pos hc, place_bind, advance_bind, check_bind] at h
      have helse := Took.advance hp (Token.eq_of_sameKind_keyword hc) (by simp)
      by_cases hif : p.advance.stream.check (.keyword .if) = true
      · rw [if_pos hif, advance_bind] at h
        have hword := Took.advance helse.ready (Token.eq_of_sameKind_keyword hif) (by simp)
        obtain ⟨c, p2, hcondition, h⟩ := bind_ok h
        have hcondition := condition_read hvalue hword.ready hcondition
        obtain ⟨body, p3, hbody, h⟩ := bind_ok h
        have hbody := hblock hcondition.ready hbody
        rw [spanFrom_bind] at h
        obtain ⟨rest, rfl, hrest⟩ := ih hbody.ready h
        -- The node of the branch begins with the word before the condition.
        have hinside := hword.found.trans (hcondition.trans hbody)
        have hlt := Nat.lt_of_lt_of_le (helse.lt (by simp)) hinside.onward.position
        have hbranch := (helse.found.trans hinside).node .elseIf hlt rfl
        refine ⟨.elseIf c body (p3.stream.spanFrom p.position) rest, rfl, ?_⟩
        refine ((hbranch.trans hrest).congr ?_ ?_).imp ?_
        · simp [ElseChain.nodes]
        · simp [ElseChain.terminals]
        · rintro ⟨⟨-, -, ⟨hfits, hnesting⟩, hgood, hdeep⟩, hgoods, hdeeps⟩
          exact ⟨⟨hfits, hgood, hgoods⟩, Nat.max_le.2 ⟨hnesting, Nat.max_le.2 ⟨hdeep, hdeeps⟩⟩⟩
      · rw [if_neg hif] at h
        obtain ⟨body, p2, hbody, h⟩ := bind_ok h
        have hbody := hblock helse.ready hbody
        cases h
        exact ⟨.otherwise body, rfl, (helse.found.trans hbody).imp fun hgood => hgood.2⟩
    · rw [if_neg hc] at h
      cases h
      exact chainRead_done hp branches

theorem ifStmt_read {s : Stmt} (hp : p.Ready) (h : ifStmt value block p = (.ok s, q)) :
    Found p [s.toNode] s.terminals (s.Grammatical ∧ s.nesting ≤ n + 1) q := by
  unfold ifStmt at h
  rw [place_bind] at h
  obtain ⟨_, p1, hexpect, h⟩ := bind_ok h
  have hword := Took.keyword hp hexpect
  obtain ⟨c, p2, hcondition, h⟩ := bind_ok h
  have hcondition := condition_read hvalue hword.ready hcondition
  obtain ⟨body, p3, hbody, h⟩ := bind_ok h
  have hbody := hblock hcondition.ready hbody
  rw [get_bind] at h
  obtain ⟨others, p4, hothers, h⟩ := bind_ok h
  obtain ⟨others, rfl, hothers⟩ := elseChain_read hvalue hblock hbody.ready hothers
  cases h
  have hrest := hcondition.trans (hbody.trans hothers)
  have hlt := Nat.lt_of_lt_of_le (hword.lt (by simp)) hrest.onward.position
  have hnode := ((hword.found.trans hrest).node .ifElse hlt rfl).wrap .statement rfl
  refine (hnode.congr ?_ ?_).imp ?_
  · simp [Stmt.toNode, Node.span, ElseChain.toNodes_eq]
  · simp [Stmt.terminals]
  · rintro ⟨-, ⟨hfits, hnesting⟩, ⟨hgood, hdeep⟩, hgoods, hdeeps⟩
    exact ⟨⟨hfits, hgood, hgoods⟩,
      Nat.succ_le_succ (Nat.max_le.2 ⟨hnesting, Nat.max_le.2 ⟨hdeep, hdeeps⟩⟩)⟩

theorem whileStmt_read {s : Stmt} (hp : p.Ready) (h : whileStmt value block p = (.ok s, q)) :
    Found p [s.toNode] s.terminals (s.Grammatical ∧ s.nesting ≤ n + 1) q := by
  unfold whileStmt at h
  rw [place_bind] at h
  obtain ⟨_, p1, hexpect, h⟩ := bind_ok h
  have hword := Took.keyword hp hexpect
  obtain ⟨c, p2, hcondition, h⟩ := bind_ok h
  have hcondition := condition_read hvalue hword.ready hcondition
  obtain ⟨body, p3, hbody, h⟩ := bind_ok h
  have hbody := hblock hcondition.ready hbody
  cases h
  have hrest := hcondition.trans hbody
  have hlt := Nat.lt_of_lt_of_le (hword.lt (by simp)) hrest.onward.position
  have hnode := ((hword.found.trans hrest).node .whileLoop hlt rfl).wrap .statement rfl
  refine (hnode.congr rfl ?_).imp ?_
  · simp [Stmt.terminals]
  · rintro ⟨-, ⟨hfits, hnesting⟩, hgood, hdeep⟩
    exact ⟨⟨hfits, hgood⟩, Nat.succ_le_succ (Nat.max_le.2 ⟨hnesting, hdeep⟩)⟩

end

section

variable {p q : Parser}

/-- The terminals of what a handler catches. -/
def bindingTerminals : Option String → List Token
  | none => []
  | some name => [.symbol .leftParen, .identifier name, .symbol .rightParen]

theorem catchBinding_read {binding : Option String} (hp : p.Ready)
    (h : catchBinding p = (.ok binding, q)) : Took p [] (bindingTerminals binding) q := by
  unfold catchBinding at h
  rw [check_bind] at h
  by_cases hc : p.stream.check (.symbol .leftParen) = true
  · rw [if_pos hc, advance_bind] at h
    have hleft := Took.advance hp (Token.eq_of_sameKind_symbol hc) (by simp)
    obtain ⟨name, p2, hname, h⟩ := bind_ok h
    have hname := Took.name hleft.ready hname
    obtain ⟨_, p3, hexpect, h⟩ := bind_ok h
    have hright := Took.symbol hname.ready hexpect
    cases h
    exact hleft.trans (hname.trans hright)
  · rw [if_neg hc] at h
    cases h
    exact Took.refl hp

include hblock

theorem tryStmt_read {s : Stmt} (hp : p.Ready) (h : tryStmt block p = (.ok s, q)) :
    Found p [s.toNode] s.terminals (s.Grammatical ∧ s.nesting ≤ n + 1) q := by
  unfold tryStmt at h
  rw [place_bind] at h
  obtain ⟨_, p1, hexpect, h⟩ := bind_ok h
  have hword := Took.keyword hp hexpect
  obtain ⟨body, p2, hbody, h⟩ := bind_ok h
  have hbody := hblock hword.ready hbody
  obtain ⟨_, p3, hexpect, h⟩ := bind_ok h
  have hcatch := Took.keyword hbody.ready hexpect
  obtain ⟨binding, p4, hbinding, h⟩ := bind_ok h
  have hbinding := catchBinding_read hcatch.ready hbinding
  obtain ⟨handler, p5, hhandler, h⟩ := bind_ok h
  have hhandler := hblock hbinding.ready hhandler
  cases h
  have hrest := hbody.trans ((hcatch.trans hbinding).found.trans hhandler)
  have hlt := Nat.lt_of_lt_of_le (hword.lt (by simp)) hrest.onward.position
  have hnode := ((hword.found.trans hrest).node (.tryCatch binding) hlt rfl).wrap .statement rfl
  refine (hnode.congr rfl ?_).imp ?_
  · cases binding <;> simp [Stmt.terminals, bindingTerminals]
  · rintro ⟨-, ⟨hgood, hdeep⟩, -, hgood', hdeep'⟩
    exact ⟨⟨hgood, hgood'⟩, Nat.succ_le_succ (Nat.max_le.2 ⟨hdeep, hdeep'⟩)⟩

include hvalue

theorem statementBody_read {s : Stmt} (hp : p.Ready)
    (h : statementBody value block p = (.ok s, q)) :
    Found p [s.toNode] s.terminals (s.Grammatical ∧ s.nesting ≤ n + 1) q := by
  obtain ⟨m, hm, h⟩ := current_ok h
  split at hm
  · next k hk =>
    split at hm
    · subst hm
      obtain ⟨d, q', hd, h⟩ := bind_ok h
      cases h
      exact ((varDecl_read hvalue hp hd).wrap .statement rfl).imp fun hgood =>
        ⟨hgood.1, Nat.succ_le_succ hgood.2⟩
    · split at hm <;> subst hm
      · exact constDecl_read hvalue hp h
      · exact printStmt_read hvalue hp h
      · exact ifStmt_read hvalue hblock hp h
      · exact whileStmt_read hvalue hblock hp h
      · exact tryStmt_read hblock hp h
      · exact absurd h noViableAlternative_ne_ok
  · subst hm; exact assignment_read hvalue hp h
  · subst hm
    obtain ⟨b, q', hb, h⟩ := bind_ok h
    cases h
    rw [Stmt.toNode_block]
    exact ((hblock hp hb).wrap _ rfl).imp fun hgood => ⟨hgood.1, Nat.succ_le_succ hgood.2⟩
  · subst hm; exact absurd h noViableAlternative_ne_ok

end

end

/-! ## Lists of statements -/

theorem closeBlock_read {p : Parser} (hp : p.Ready) :
    Found p [] [.symbol .rightBrace] True (closeBlock p) := by
  cases hc : p.stream.check (.symbol .rightBrace) with
  | true =>
    rw [closeBlock_of_check hc]
    exact (Took.advance hp (Token.eq_of_sameKind_symbol hc) (by simp)).found
  | false =>
    obtain ⟨e, he⟩ := closeBlock_of_not_check hc
    rw [he]
    have hmove := onward_reportError p e
    exact .of_not_clean hmove (hmove.ready hp) (not_clean_reportError hp)

section

variable {n : Nat} {statement : ParseM Stmt} (hsteady : Steady statement)
  (hstatement : ∀ {p q s}, p.Ready → statement p = (.ok s, q) →
    Found p [s.toNode] s.terminals (s.Grammatical ∧ s.nesting ≤ n) q)
include hsteady hstatement

/-- Statements are read one behind the other. What was skipped behind a failed statement stands
between the nodes, and its error is not forgotten. -/
theorem statementsFrom_read {inBlock : Bool} {tokens : Nat} {done : Array Stmt} {p q : Parser}
    {all : List Stmt} (hp : p.Ready)
    (h : statementsFrom statement inBlock tokens done p = (all, q)) :
    ∃ more, all = done.toList ++ more ∧
      Found p (more.map Stmt.toNode) (Stmt.listTerminals more)
        (Stmt.ListGrammatical more ∧ Stmt.listNesting more ≤ n) q := by
  induction tokens generalizing done p with
  | zero =>
    cases h
    exact ⟨[], by simp, (Took.refl hp).found.imp fun _ => ⟨trivial, Nat.zero_le _⟩⟩
  | succ tokens ih =>
    unfold statementsFrom at h
    split at h
    · cases h
      exact ⟨[], by simp, (Took.refl hp).found.imp fun _ => ⟨trivial, Nat.zero_le _⟩⟩
    · split at h
      · next s p' hs =>
        have hfirst := hstatement hp hs
        obtain ⟨more, rfl, hmore⟩ := ih hfirst.ready h
        refine ⟨s :: more, by simp, (hfirst.trans hmore).imp ?_⟩
        rintro ⟨⟨hgood, hdeep⟩, hgoods, hdeeps⟩
        exact ⟨⟨hgood, hgoods⟩, Nat.max_le.2 ⟨hdeep, hdeeps⟩⟩
      · next e p' hs =>
        -- The failed statement leaves no node, and an error that is there to the end.
        have hfailed := hsteady.onward hs
        have hmove := hfailed.trans (onward_afterFailure inBlock p.position e p')
        have hp' := hfailed.ready hp
        obtain ⟨more, rfl, hmore⟩ := ih (hmove.ready hp) h
        have hskip : Found p [] [] True (afterFailure inBlock p.position e p') :=
          .of_not_clean hmove (hmove.ready hp) (not_clean_afterFailure hp')
        exact ⟨more, rfl, (hskip.trans hmore).imp fun hgood => hgood.2⟩

theorem blockBody_read {b : Block} {p q : Parser} (hp : p.Ready)
    (h : blockBody statement p = (.ok b, q)) :
    Found p [b.toNode] b.terminals (b.Grammatical ∧ b.nesting ≤ n + 1) q := by
  rw [blockBody_eq, place_bind] at h
  obtain ⟨_, p1, hexpect, h⟩ := bind_ok h
  have hleft := Took.symbol hp hexpect
  obtain ⟨inside, p2, hinside, h⟩ := bind_ok h
  have hinside : statementsFrom statement true p1.stream.size #[] p1 = (inside, p2) := by
    cases hinside; rfl
  obtain ⟨more, rfl, hmore⟩ := statementsFrom_read hsteady hstatement hleft.ready hinside
  rw [modify_bind] at h
  have hright := closeBlock_read hmore.ready
  cases h
  have hrest := hmore.trans hright
  have hlt := Nat.lt_of_lt_of_le (hleft.lt (by simp)) hrest.onward.position
  have hnode := (hleft.found.trans hrest).node .block hlt rfl
  refine (hnode.congr ?_ ?_).imp ?_
  · simp [Block.toNode, Stmt.toNodes_eq]
  · simp [Block.terminals]
  · rintro ⟨-, ⟨hgood, hdeep⟩, -⟩
    exact ⟨hgood, Nat.succ_le_succ hdeep⟩

end

/-! ## The rules -/

theorem statement_block_read (n : Nat) :
    (∀ {p q s}, p.Ready → statement n p = (.ok s, q) →
      Found p [s.toNode] s.terminals (s.Grammatical ∧ s.nesting ≤ n) q) ∧
    (∀ {p q b}, p.Ready → block n p = (.ok b, q) →
      Found p [b.toNode] b.terminals (b.Grammatical ∧ b.nesting ≤ n) q) := by
  induction n with
  | zero =>
    constructor
    · intro p q s _ h
      unfold statement at h
      exact absurd h tooDeep_ne_ok
    · intro p q b _ h
      unfold block at h
      exact absurd h tooDeep_ne_ok
  | succ n ih =>
    constructor
    · intro p q s hp h
      unfold statement at h
      obtain ⟨q', hq, rfl⟩ := withRule_ok h
      exact (statementBody_read expression_read ih.2 (ready_enter hp) hq).leave
    · intro p q b hp h
      unfold block at h
      obtain ⟨q', hq, rfl⟩ := withRule_ok h
      exact (blockBody_read (steady_statement_block n).1 ih.1 (ready_enter hp) hq).leave

/-- A program is read from a place on. The nodes of its statements are placed, and it is one of the
grammar; where no error was met, its statements make up all tokens up to the end. -/
theorem program_read {p q : Parser} {tree : Program} (hp : p.Ready) (h : program p = (tree, q)) :
    Found p (tree.statements.map Stmt.toNode) tree.terminals
      (tree.Grammatical ∧ tree.nesting ≤ Limit.parseDepth ∧ q.stream.atEnd = true) q := by
  unfold program at h
  rcases hs : statements (statement Limit.parseDepth) false p with ⟨all, q'⟩
  rw [hs] at h
  cases h
  obtain ⟨hstatement, -⟩ := statement_block_read Limit.parseDepth
  obtain ⟨hsteady, -⟩ := steady_statement_block Limit.parseDepth
  obtain ⟨more, rfl, hmore⟩ := statementsFrom_read hsteady hstatement hp hs
  have hends : listEnds false (statements (statement Limit.parseDepth) false p).2.stream = true :=
    listEnds_statements Limit.parseDepth hp.ended
  rw [hs] at hends
  refine hmore.imp fun ⟨hgood, hdeep⟩ => ⟨hgood, hdeep, ?_⟩
  simpa [listEnds] using hends

end Parsing

end EvlCheck
