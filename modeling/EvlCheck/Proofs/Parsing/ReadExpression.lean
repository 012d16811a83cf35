/-
What an expression rule reads is what it returns. The tokens that the rule takes are the terminals
of its expression, the nodes of the expression are placed over them, and the expression obeys the
precedences and needs no more nested rules than the rule was given. Of several operators in a row
the rule takes as many as it can, so that none of at least its precedence is left behind it.

The induction is on the number of rules that may still be opened, with operators and operands
together; the loop over operators is an induction of its own (`climb_read`).
-/
import EvlCheck.Proofs.Parsing.LoneStrings

namespace EvlCheck

/-! ## Precedences -/

namespace Expr

theorem terminals_ne_nil (e : Expr) : e.terminals ≠ [] := by
  cases e with
  | truth b s => cases b <;> simp [terminals]
  | _ => simp [terminals]

theorem precedence_lt_tightest (op : BinaryOp) : op.level.precedence < tightest := by
  cases op <;> decide

/-- What fits under the tightest precedence is no operation. -/
theorem FitsAt.rank_eq {e : Expr} (h : e.FitsAt tightest) : e.rank = tightest := by
  cases e with
  | binary op opSpan a b s =>
    have := precedence_lt_tightest op
    have := h.1
    omega
  | _ => rfl

/-- What holds no operator fits at every precedence. -/
theorem FitsAt.of_tightest {e : Expr} (h : e.FitsAt tightest) (k : Nat) : e.FitsAt k := by
  cases e with
  | binary op opSpan a b s => exact absurd h.1 (Nat.not_le_of_lt (precedence_lt_tightest op))
  | _ => exact h

/-- The precedence that an expression fits at can be raised up to that of its own operator. -/
theorem FitsAt.of_le_rank {e : Expr} {k l : Nat} (h : e.FitsAt k) (hl : l ≤ e.rank) : e.FitsAt l := by
  cases e with
  | binary op opSpan a b s => exact ⟨hl, h.2⟩
  | _ => exact h

/-- The expressions that one token makes up, for every span. -/
structure IsLeaf (make : Span → Expr) (t : Token) : Prop where
  terminals : ∀ s, (make s).terminals = [t]
  span : ∀ s, (make s).span = s
  children : ∀ s, (make s).toNode.children = []
  fits : ∀ s, (make s).FitsAt tightest
  nesting : ∀ s, (make s).nesting = 0
  bare : ∀ s, (make s).bare = make .dummy

theorem isLeaf_name (n : String) : IsLeaf (.name n) (.identifier n) :=
  ⟨fun _ => rfl, fun _ => rfl, fun _ => rfl, fun _ => trivial, fun _ => rfl, fun _ => rfl⟩

theorem isLeaf_integer (t : String) : IsLeaf (.integer t) (.integer t) :=
  ⟨fun _ => rfl, fun _ => rfl, fun _ => rfl, fun _ => trivial, fun _ => rfl, fun _ => rfl⟩

theorem isLeaf_real (t : String) : IsLeaf (.real t) (.real t) :=
  ⟨fun _ => rfl, fun _ => rfl, fun _ => rfl, fun _ => trivial, fun _ => rfl, fun _ => rfl⟩

theorem isLeaf_string (t : String) : IsLeaf (.string t) (.string t) :=
  ⟨fun _ => rfl, fun _ => rfl, fun _ => rfl, fun _ => trivial, fun _ => rfl, fun _ => rfl⟩

theorem isLeaf_constant (c : BuiltinConstant) : IsLeaf (.constant c) (.keyword c.keyword) :=
  ⟨fun _ => rfl, fun _ => rfl, fun _ => rfl, fun _ => trivial, fun _ => rfl, fun _ => rfl⟩

theorem isLeaf_true : IsLeaf (.truth true) (.keyword .true) :=
  ⟨fun _ => rfl, fun _ => rfl, fun _ => rfl, fun _ => trivial, fun _ => rfl, fun _ => rfl⟩

theorem isLeaf_false : IsLeaf (.truth false) (.keyword .false) :=
  ⟨fun _ => rfl, fun _ => rfl, fun _ => rfl, fun _ => trivial, fun _ => rfl, fun _ => rfl⟩

theorem toNode_eq (e : Expr) : e.toNode = .mk (.expression e) e.span e.toNode.children := by
  cases e <;> rfl

end Expr

/-- The token is no operator of at least a precedence. -/
def Yields (least : Nat) (t : Token) : Prop :=
  ∀ op, BinaryOp.ofToken? t = some op → op.level.precedence < least

namespace Parsing

open EvlCheck.Parser ParseM

variable [Build]

/-! ## Tokens taken -/

/-- From one state to a later one the cursor went over some tokens, all of which are known, and some
nodes are placed over them. -/
structure Took (p : Parser) (nodes : List Node) (ts : List Token) (q : Parser) : Prop where
  onward : Onward p q
  ready : q.Ready
  placed : Node.AllPlaced p.stream.significant nodes p.position q.position
  tokens : valuesFrom p.stream.significant p.position q.position = ts
  tells : Tells p nodes q

namespace Took

variable {p q r : Parser} {ns ms : List Node} {ts us : List Token}

theorem refl (hp : p.Ready) : Took p [] [] p :=
  ⟨.refl p, hp, Nat.le_refl _, valuesFrom_self _ _, .of_silent rfl rfl⟩

theorem trans (h : Took p ns ts q) (h' : Took q ms us r) : Took p (ns ++ ms) (ts ++ us) r := by
  have hplaced := h'.placed
  have htokens := h'.tokens
  rw [h.onward.tokens] at hplaced htokens
  refine ⟨h.onward.trans h'.onward, h'.ready, h.placed.append hplaced, ?_, h.tells.trans h.onward h'.tells⟩
  rw [← h.tokens, ← htokens, valuesFrom_append h.onward.position h'.onward.position]

theorem lt (h : Took p ns ts q) (hts : ts ≠ []) : p.position < q.position := by
  have hle := h.onward.position
  rcases Nat.lt_or_ge p.position q.position with hlt | hge
  · exact hlt
  · refine absurd ?_ hts
    rw [← h.tokens, Nat.le_antisymm hge hle, valuesFrom_self]

/-- Reading the token under the cursor. -/
theorem advance {t : Token} (hp : p.Ready) (ht : p.stream.current.value = t) (hne : t ≠ .eof) :
    Took p [] [t] p.advance := by
  have hpos : p.advance.position = p.position + 1 :=
    TokenStream.position_advance hp.ended (ht ▸ hne)
  refine ⟨onward_advance p, (onward_advance p).ready hp, ?_, ?_, .of_silent rfl rfl⟩
  · exact (onward_advance p).position
  · rw [hpos, ← ht]
    exact valuesFrom_succ p.stream.getElem?_position

theorem symbol {s : OpSymbol} {tok : StreamToken} (hp : p.Ready)
    (h : expect (.symbol s) p = (.ok tok, q)) : Took p [] [.symbol s] q := by
  obtain ⟨hc, -, rfl⟩ := expect_ok h
  exact advance hp (Token.eq_of_sameKind_symbol hc) (by simp)

theorem keyword {k : Keyword} {tok : StreamToken} (hp : p.Ready)
    (h : expect (.keyword k) p = (.ok tok, q)) : Took p [] [.keyword k] q := by
  obtain ⟨hc, -, rfl⟩ := expect_ok h
  exact advance hp (Token.eq_of_sameKind_keyword hc) (by simp)

theorem name {n : String} (hp : p.Ready) (h : expectName p = (.ok n, q)) :
    Took p [] [.identifier n] q := by
  obtain ⟨tok, q', hexpect, h⟩ := bind_ok h
  obtain ⟨hc, rfl, rfl⟩ := expect_ok hexpect
  cases h
  unfold TokenStream.check at hc
  cases hv : p.stream.current.value with
  | identifier n => exact advance hp hv (by simp)
  | _ => rw [hv] at hc; simp [Token.sameKind] at hc

theorem type {t : ValueType} (hp : p.Ready) (h : valueType p = (.ok t, q)) :
    Took p [] [.keyword t.keyword] q := by
  obtain ⟨m, hm, h⟩ := current_ok h
  split at hm
  · next t' ht =>
    subst hm
    cases h
    obtain ⟨k, hk, hkt⟩ := Option.bind_eq_some_iff.1 ht
    have hk' := ValueType.keyword_of_ofKeyword? hkt
    cases hv : p.stream.current.value with
    | keyword k' =>
      rw [hv] at hk
      cases hk
      exact hk' ▸ advance hp hv (by simp)
    | _ => rw [hv] at hk; cases hk
  · subst hm; exact absurd h unexpected_ne_ok

/-- Where one token was taken, the cursor moved by one. -/
theorem of_single {t : Token} (h : Took p ns [t] q) :
    p.stream.current.value = t ∧ q.position = p.position + 1 := by
  have hlt := h.lt (by simp)
  have hq := q.stream.position_lt
  have hlength := congrArg List.length h.tokens
  rw [length_valuesFrom (by rw [← h.onward.tokens]; exact Nat.le_of_lt hq)] at hlength
  have hpos : q.position = p.position + 1 := by
    rw [List.length_singleton] at hlength; omega
  have hrow : valuesFrom p.stream.significant p.position (p.position + 1) =
      [p.stream.current.value] := valuesFrom_succ p.stream.getElem?_position
  have htokens := h.tokens
  rw [hpos, hrow] at htokens
  exact ⟨List.singleton_inj.1 htokens, hpos⟩

/-- Opening and closing a rule takes nothing. -/
theorem leave {rule : Rule} (h : Took (p.enter rule) ns ts q) : Took p ns ts q.leave :=
  ⟨onward_leave h.onward, ⟨h.ready.ended, h.ready.running⟩, h.placed, h.tokens, h.tells⟩

/-- The tokens and the nodes below an expression make up the expression. -/
theorem expr {e : Expr} (h : Took p e.toNode.children e.terminals q)
    (hs : e.span = q.stream.spanFrom p.position) : Took p [e.toNode] e.terminals q := by
  rw [e.toNode_eq]
  refine ⟨h.onward, h.ready, Node.Placed.single ?_, h.tokens, h.tells.expression e e.span⟩
  refine ⟨?_, ?_, h.placed⟩
  · rw [hs, ← h.onward.tokens]
    exact TokenStream.covers_spanFrom (h.lt e.terminals_ne_nil)
  · rintro e' he
    cases he
    exact h.tokens

end Took

theorem ready_enter {p : Parser} {r : Rule} (hp : p.Ready) : (p.enter r).Ready :=
  ⟨hp.ended, hp.running⟩

/-! ## Expressions read -/

/-- An expression was read that holds operators of at least a precedence and needs fewer nested rules
than a number. -/
structure ExprRead (n least : Nat) (p : Parser) (e : Expr) (q : Parser) : Prop where
  took : Took p [e.toNode] e.terminals q
  fits : e.FitsAt least
  nesting_lt : e.nesting < n

section

variable {p q : Parser} {n : Nat} {e : Expr}

/-- A token that is an expression by itself. -/
theorem leaf_read {make : Span → Expr} {t : Token} (hmake : Expr.IsLeaf make t) (hp : p.Ready)
    (hv : p.stream.current.value = t) (hne : t ≠ .eof) (h : leaf make p = (.ok e, q)) :
    ExprRead (n + 1) Expr.tightest p e q := by
  cases h
  have htook := Took.advance hp hv hne
  have hpos : p.advance.position = p.position + 1 :=
    TokenStream.position_advance hp.ended (hv ▸ hne)
  have hterminals := hmake.terminals p.stream.current.span
  have htells : Tells p [(make p.stream.current.span).toNode] p.advance := by
    rw [Expr.toNode_eq, hmake.children]
    exact htook.tells.expression _ _
  refine ⟨⟨htook.onward, htook.ready, Node.Placed.single ?_, ?_, htells⟩, hmake.fits _, ?_⟩
  · rw [Expr.toNode_eq, hmake.span, hmake.children, hpos]
    refine ⟨covers_succ p.stream.getElem?_position, ?_, Nat.le_succ _⟩
    rintro e' he
    cases he
    rw [hterminals, ← htook.tokens, hpos]
  · rw [hterminals, htook.tokens]
  · rw [hmake.nesting]; exact Nat.succ_pos n

variable {inner : ParseM Expr}
  (hinner : ∀ {p q e}, p.Ready → inner p = (.ok e, q) → ExprRead n 0 p e q)
include hinner

theorem parenthesized_read (hp : p.Ready) (hv : p.stream.current.value = .symbol .leftParen)
    (h : parenthesized inner p = (.ok e, q)) : ExprRead (n + 1) Expr.tightest p e q := by
  unfold parenthesized at h
  rw [place_bind, advance_bind] at h
  have hleft := Took.advance hp hv (by simp)
  obtain ⟨e, p2, he, h⟩ := bind_ok h
  have hbody := hinner hleft.ready he
  obtain ⟨_, p3, hexpect, h⟩ := bind_ok h
  have hright := Took.symbol hbody.took.ready hexpect
  cases h
  exact ⟨.expr (hleft.trans (hbody.took.trans hright)) rfl, hbody.fits,
    Nat.succ_lt_succ hbody.nesting_lt⟩

theorem castCall_read (hp : p.Ready) (h : castCall inner p = (.ok e, q)) :
    ExprRead (n + 1) Expr.tightest p e q := by
  unfold castCall at h
  rw [place_bind] at h
  obtain ⟨_, p1, hexpect, h⟩ := bind_ok h
  have hword := Took.keyword hp hexpect
  obtain ⟨_, p2, hexpect, h⟩ := bind_ok h
  have hleft := Took.symbol hword.ready hexpect
  obtain ⟨e, p3, he, h⟩ := bind_ok h
  have hbody := hinner hleft.ready he
  obtain ⟨_, p4, hexpect, h⟩ := bind_ok h
  have hcomma := Took.symbol hbody.took.ready hexpect
  obtain ⟨t, p5, htype, h⟩ := bind_ok h
  have htarget := Took.type hcomma.ready htype
  obtain ⟨_, p6, hexpect, h⟩ := bind_ok h
  have hright := Took.symbol htarget.ready hexpect
  cases h
  exact ⟨.expr (hword.trans <| hleft.trans <| hbody.took.trans <| hcomma.trans <|
    htarget.trans hright) rfl, hbody.fits, Nat.succ_lt_succ hbody.nesting_lt⟩

theorem unaryCall_read {f : UnaryFunction} (hp : p.Ready) (h : unaryCall inner f p = (.ok e, q)) :
    ExprRead (n + 1) Expr.tightest p e q := by
  unfold unaryCall at h
  rw [place_bind] at h
  obtain ⟨_, p1, hexpect, h⟩ := bind_ok h
  have hword := Took.keyword hp hexpect
  obtain ⟨_, p2, hexpect, h⟩ := bind_ok h
  have hleft := Took.symbol hword.ready hexpect
  obtain ⟨e, p3, he, h⟩ := bind_ok h
  have hbody := hinner hleft.ready he
  obtain ⟨_, p4, hexpect, h⟩ := bind_ok h
  have hright := Took.symbol hbody.took.ready hexpect
  cases h
  exact ⟨.expr (hword.trans <| hleft.trans <| hbody.took.trans hright) rfl, hbody.fits,
    Nat.succ_lt_succ hbody.nesting_lt⟩

theorem binaryCall_read {f : BinaryFunction} (hp : p.Ready)
    (h : binaryCall inner f p = (.ok e, q)) : ExprRead (n + 1) Expr.tightest p e q := by
  unfold binaryCall at h
  rw [place_bind] at h
  obtain ⟨_, p1, hexpect, h⟩ := bind_ok h
  have hword := Took.keyword hp hexpect
  obtain ⟨_, p2, hexpect, h⟩ := bind_ok h
  have hleft := Took.symbol hword.ready hexpect
  obtain ⟨a, p3, ha, h⟩ := bind_ok h
  have hfirst := hinner hleft.ready ha
  obtain ⟨_, p4, hexpect, h⟩ := bind_ok h
  have hcomma := Took.symbol hfirst.took.ready hexpect
  obtain ⟨b, p5, hb, h⟩ := bind_ok h
  have hsecond := hinner hcomma.ready hb
  obtain ⟨_, p6, hexpect, h⟩ := bind_ok h
  have hright := Took.symbol hsecond.took.ready hexpect
  cases h
  refine ⟨.expr (hword.trans <| hleft.trans <| hfirst.took.trans <| hcomma.trans <|
    hsecond.took.trans hright) rfl, ⟨hfirst.fits, hsecond.fits⟩, ?_⟩
  exact Nat.succ_lt_succ (Nat.max_lt.2 ⟨hfirst.nesting_lt, hsecond.nesting_lt⟩)

theorem keywordExpression_read {k : Keyword} (hp : p.Ready)
    (hv : p.stream.current.value = .keyword k) (h : keywordExpression inner k p = (.ok e, q)) :
    ExprRead (n + 1) Expr.tightest p e q := by
  generalize hm : keywordExpression inner k = m at h
  unfold keywordExpression at hm
  split at hm
  · exact castCall_read hinner hp (hm ▸ h)
  split at hm
  · next hk =>
    rw [beq_iff_eq] at hk
    exact leaf_read Expr.isLeaf_true hp (hk ▸ hv) (by simp) (hm ▸ h)
  split at hm
  · next hk =>
    rw [beq_iff_eq] at hk
    exact leaf_read Expr.isLeaf_false hp (hk ▸ hv) (by simp) (hm ▸ h)
  split at hm
  · exact binaryCall_read hinner hp (hm ▸ h)
  · exact unaryCall_read hinner hp (hm ▸ h)
  · next c hc _ _ =>
    have hk := BuiltinConstant.keyword_of_ofKeyword? hc
    exact leaf_read (Expr.isLeaf_constant c) hp (hk ▸ hv) (by simp) (hm ▸ h)
  · subst hm; exact absurd h noViableAlternative_ne_ok

theorem primary_read (hp : p.Ready) (h : primary inner p = (.ok e, q)) :
    ExprRead (n + 1) Expr.tightest p e q := by
  obtain ⟨m, hm, h⟩ := current_ok h
  split at hm <;> subst hm
  · next hv => exact parenthesized_read hinner hp hv h
  · next k hv => exact keywordExpression_read hinner hp hv h
  · next hv => exact leaf_read (Expr.isLeaf_name _) hp hv (by simp) h
  · next hv => exact leaf_read (Expr.isLeaf_integer _) hp hv (by simp) h
  · next hv => exact leaf_read (Expr.isLeaf_real _) hp hv (by simp) h
  · next hv => exact leaf_read (Expr.isLeaf_string _) hp hv (by simp) h
  · exact absurd h noViableAlternative_ne_ok

end

/-! ## Operators read -/

section

variable {p q : Parser} {n : Nat} {e : Expr}

theorem negation_read {inner : ParseM Expr}
    (hinner : ∀ {p q e}, p.Ready → inner p = (.ok e, q) → ExprRead n Expr.tightest p e q)
    (hp : p.Ready) (hv : p.stream.current.value = .symbol .minus)
    (h : negation inner p = (.ok e, q)) : ExprRead (n + 1) Expr.tightest p e q := by
  unfold negation at h
  rw [place_bind, advance_bind] at h
  have hminus := Took.advance hp hv (by simp)
  obtain ⟨e, p2, he, h⟩ := bind_ok h
  have hbody := hinner hminus.ready he
  cases h
  exact ⟨.expr (hminus.trans hbody.took) rfl, hbody.fits, Nat.succ_lt_succ hbody.nesting_lt⟩

theorem signed_ok {behindMinus plain : ParseM Expr}
    (h : signed behindMinus plain p = (.ok e, q)) :
    (p.stream.current.value = .symbol .minus ∧ behindMinus p = (.ok e, q)) ∨
      plain p = (.ok e, q) := by
  unfold signed at h
  rw [check_bind] at h
  by_cases hc : p.stream.check (.symbol .minus) = true
  · rw [if_pos hc] at h
    exact .inl ⟨Token.eq_of_sameKind_symbol hc, h⟩
  · rw [if_neg hc] at h
    exact .inr h

/-- The left operand grows while operators of at least the precedence follow. What it is made of so
far has an operator that is no looser than the next one, so that the next one may take it whole. -/
theorem climb_read {right : Nat → ParseM Expr} {least : Nat}
    (hright : ∀ {k p q e}, p.Ready → right k p = (.ok e, q) →
      ExprRead n k p e q ∧ Yields k q.stream.current.value)
    {tokens : Nat} {start p : Parser} {left : Expr} (hleft : ExprRead (n + 1) least start left p)
    (hnext : Yields (left.rank + 1) p.stream.current.value)
    (henough : p.stream.size ≤ tokens + p.position)
    (h : climb right least start.position tokens left p = (.ok e, q)) :
    ExprRead (n + 1) least start e q ∧ Yields least q.stream.current.value := by
  induction tokens generalizing left p with
  | zero =>
    -- There would be no token under the cursor, not even the end.
    have := p.stream.position_lt
    unfold Parser.position TokenStream.size at henough
    omega
  | succ tokens ih =>
    obtain ⟨m, hm, h⟩ := current_ok h
    split at hm
    · next hnone =>
      subst hm
      cases h
      exact ⟨hleft, fun op hop => by rw [hnone] at hop; cases hop⟩
    · next op hop =>
      split at hm <;> subst hm
      · next hlt =>
        cases h
        refine ⟨hleft, fun op' hop' => ?_⟩
        rw [hop] at hop'
        cases hop'
        exact hlt
      · next hge =>
        rw [advance_bind] at h
        have hsign := Took.advance hleft.took.ready (BinaryOp.symbol_of_ofToken? hop) (by simp)
        obtain ⟨r, p2, hr, h⟩ := bind_ok h
        obtain ⟨hoperand, hstop⟩ := hright hsign.ready hr
        rw [spanFrom_bind] at h
        -- All that was read so far is the left operand: nothing in it is looser than the operator.
        have hfits : left.FitsAt op.level.precedence :=
          hleft.fits.of_le_rank (Nat.le_of_lt_succ (hnext op hop))
        have htook : Took p [r.toNode] (.symbol op.symbol :: r.terminals) p2 :=
          hsign.trans hoperand.took
        have hpos := hoperand.took.onward.position
        have hmove := hsign.lt (by simp)
        have hwhole : Took start [(Expr.binary op p.stream.current.span left r
            (p2.stream.spanFrom start.position)).toNode] _ p2 := .expr (hleft.took.trans htook) rfl
        refine ih ⟨hwhole, ⟨Nat.le_of_not_lt hge, hfits, hoperand.fits⟩, ?_⟩ hstop ?_ h
        · have h1 := hleft.nesting_lt
          have h2 := hoperand.nesting_lt
          exact Nat.max_lt.2 ⟨h1, Nat.succ_lt_succ h2⟩
        · rw [htook.onward.size_eq]
          omega

theorem operation_read {inner : ParseM Expr} {right : Nat → ParseM Expr} {least : Nat}
    (hinner : ∀ {p q e}, p.Ready → inner p = (.ok e, q) → ExprRead (n + 1) Expr.tightest p e q)
    (hright : ∀ {k p q e}, p.Ready → right k p = (.ok e, q) →
      ExprRead n k p e q ∧ Yields k q.stream.current.value)
    (hp : p.Ready) (h : operation inner right least p = (.ok e, q)) :
    ExprRead (n + 1) least p e q ∧ Yields least q.stream.current.value := by
  obtain ⟨q', hq, rfl⟩ := withRule_ok h
  rw [place_bind] at hq
  obtain ⟨left, p1, hl, hq⟩ := bind_ok hq
  have hleft := hinner (ready_enter hp) hl
  rw [get_bind] at hq
  have hrank := hleft.fits.rank_eq
  have hread : ExprRead (n + 1) least (p.enter .expression) e q' ∧
      Yields least q'.stream.current.value := by
    refine climb_read hright ⟨hleft.took, hleft.fits.of_tightest least, hleft.nesting_lt⟩ ?_
      (Nat.le_add_right _ _) hq
    -- An operand holds no operator, so any operator may take it.
    intro op _
    have := Expr.precedence_lt_tightest op
    omega
  exact ⟨⟨hread.1.took.leave, hread.1.fits, hread.1.nesting_lt⟩, hread.2⟩

end

theorem expressionFrom_operand_read (n : Nat) :
    (∀ {least p q e}, p.Ready → expressionFrom n least p = (.ok e, q) →
      ExprRead n least p e q ∧ Yields least q.stream.current.value) ∧
    (∀ {p q e}, p.Ready → operand n p = (.ok e, q) → ExprRead (n + 1) Expr.tightest p e q) := by
  induction n with
  | zero =>
    constructor
    · intro least p q e hp h
      unfold expressionFrom at h
      exact absurd h tooDeep_ne_ok
    · intro p q e hp h
      unfold operand at h
      rcases signed_ok h with ⟨-, h⟩ | h
      · exact absurd h tooDeep_ne_ok
      · exact primary_read (fun _ h => absurd h tooDeep_ne_ok) hp h
  | succ n ih =>
    have hexpression : ∀ {least p q e}, p.Ready → operation (operand n) (expressionFrom n) least p =
        (.ok e, q) → ExprRead (n + 1) least p e q ∧ Yields least q.stream.current.value :=
      fun hp h => operation_read ih.2 ih.1 hp h
    constructor
    · intro least p q e hp h
      unfold expressionFrom at h
      exact hexpression hp h
    · intro p q e hp h
      unfold operand at h
      rcases signed_ok h with ⟨hv, h⟩ | h
      · obtain ⟨q', hq, rfl⟩ := withRule_ok h
        have hread := negation_read ih.2 (ready_enter hp) hv hq
        exact ⟨hread.took.leave, hread.fits, hread.nesting_lt⟩
      · exact primary_read (fun hp h => (hexpression hp h).1) hp h

/-- An expression is read whole, and no operator stands behind it. -/
theorem expression_read {n : Nat} {p q : Parser} {e : Expr} (hp : p.Ready)
    (h : expression n p = (.ok e, q)) : ExprRead n 0 p e q :=
  ((expressionFrom_operand_read n).1 hp h).1

end Parsing

end EvlCheck
