/-
What the grammar derives, the expression rules accept. Before the terminals of an expression that
obeys the precedences and needs no more nested rules than there are left, the rule for it succeeds,
reads exactly these terminals, returns the expression up to its places, and reports nothing, as long
as no operator follows that the rule would have to take as well.

The loop over operators meets the left operands from the inside out, while an expression is built
from the outermost operator on. So the induction over expressions speaks of the loop itself: after
the operands and operators of an expression the loop goes on with that expression as its left operand
(`SpineAccepted`).
-/
import EvlCheck.Proofs.Parsing.ReadExpression

namespace EvlCheck

namespace Expr

/-- The number of operators on the way down through left operands. -/
def operators : Expr → Nat
  | .binary _ _ a _ _ => a.operators + 1
  | _ => 0

theorem operators_le (e : Expr) : e.operators ≤ e.terminals.length := by
  induction e with
  | binary op opSpan a b s iha ihb =>
    simp only [operators, terminals, List.length_append, List.length_cons]
    omega
  | _ => exact Nat.zero_le _

/-- An expression that fits at a precedence has no looser operator. -/
theorem FitsAt.le_rank {e : Expr} {k : Nat} (h : e.FitsAt k) (hk : k ≤ tightest) : k ≤ e.rank := by
  cases e with
  | binary op opSpan a b s => exact h.1
  | _ => exact hk

end Expr

namespace Parsing

open EvlCheck.Parser ParseM

/-! ## Steps that succeed -/

/-- From one state to a later one tokens were read without an error, and some are left. -/
structure Left [Build] (p : Parser) (rest : List Token) (q : Parser) : Prop where
  ready : q.Ready
  pending : q.pending = rest
  history : q.history = p.history
  errors : q.errors = p.errors

theorem Left.trans [Build] {p q r : Parser} {mid rest : List Token} (h : Left p mid q)
    (h' : Left q rest r) :
    Left p rest r :=
  ⟨h'.ready, h'.pending, h'.history.trans h.history, h'.errors.trans h.errors⟩

theorem left_advance [Build] {p : Parser} {t : Token} {rest : List Token} (hp : p.Ready)
    (h : p.pending = t :: rest) (ht : t ≠ .eof) : Left p rest p.advance :=
  ⟨(onward_advance p).ready hp, pending_advance hp h ht, rfl, rfl⟩

/-- The step succeeds with a result as asked for, leaves some tokens, and reports nothing. -/
def Accepts [Build] {α : Type} (m : ParseM α) (p : Parser) (ok : α → Prop) (rest : List Token) :
    Prop :=
  ∃ a q, m p = (.ok a, q) ∧ ok a ∧ Left p rest q

namespace Accepts

variable [Build] {α β : Type} {p : Parser} {rest mid : List Token}

theorem bind {m : ParseM α} {f : α → ParseM β} {ok : α → Prop} {ok' : β → Prop}
    (hm : Accepts m p ok mid) (hf : ∀ a q, ok a → Left p mid q → Accepts (f a) q ok' rest) :
    Accepts (m >>= f) p ok' rest := by
  obtain ⟨a, q, hmp, ha, hq⟩ := hm
  obtain ⟨b, r, hfq, hb, hr⟩ := hf a q ha hq
  exact ⟨b, r, by rw [bind_of_ok hmp, hfq], hb, hq.trans hr⟩

theorem pure {a : α} {ok : α → Prop} (hp : p.Ready) (h : p.pending = rest) (ha : ok a) :
    Accepts (pure a) p ok rest :=
  ⟨a, p, rfl, ha, hp, h, rfl, rfl⟩

theorem place {f : Nat → ParseM β} {ok : β → Prop} (h : Accepts (f p.position) p ok rest) :
    Accepts (ParseM.place >>= f) p ok rest := h

theorem spanFrom {f : Span → ParseM β} {ok : β → Prop} {first : Nat}
    (h : Accepts (f (p.stream.spanFrom first)) p ok rest) :
    Accepts (ParseM.spanFrom first >>= f) p ok rest := h

/-- The token under the cursor is read, whatever it is. -/
theorem advance {f : StreamToken → ParseM β} {ok : β → Prop} {t : Token} (hp : p.Ready)
    (h : p.pending = t :: mid) (ht : t ≠ .eof)
    (hf : Left p mid p.advance → Accepts (f p.stream.current) p.advance ok rest) :
    Accepts (ParseM.advance >>= f) p ok rest := by
  have hleft := left_advance hp h ht
  obtain ⟨b, r, hfp, hb, hr⟩ := hf hleft
  exact ⟨b, r, by rw [advance_bind, hfp], hb, hleft.trans hr⟩

theorem expect {t expected : Token} (hp : p.Ready) (h : p.pending = t :: rest)
    (hkind : t.sameKind expected = true) (ht : t ≠ .eof) :
    Accepts (expect expected) p (·.value = t) rest := by
  have hv := current_eq h
  have hc : p.stream.check expected = true := by unfold TokenStream.check; rw [hv, hkind]
  exact ⟨p.stream.current, p.advance, by rw [expect_apply, if_pos hc], hv, left_advance hp h ht⟩

theorem symbol {s : OpSymbol} (hp : p.Ready) (h : p.pending = .symbol s :: rest) :
    Accepts (ParseM.expect (.symbol s)) p (·.value = .symbol s) rest :=
  expect hp h (Token.sameKind_refl _) (by simp)

theorem keyword {k : Keyword} (hp : p.Ready) (h : p.pending = .keyword k :: rest) :
    Accepts (ParseM.expect (.keyword k)) p (·.value = .keyword k) rest :=
  expect hp h (Token.sameKind_refl _) (by simp)

theorem name {n : String} (hp : p.Ready) (h : p.pending = .identifier n :: rest) :
    Accepts expectName p (· = n) rest :=
  (expect hp h rfl (by simp)).bind fun tok q htok hq =>
    .pure hq.ready hq.pending (by rw [htok]; rfl)

theorem type {t : ValueType} (hp : p.Ready) (h : p.pending = .keyword t.keyword :: rest) :
    Accepts valueType p (· = t) rest := by
  have hv := current_eq h
  have hread : (p.stream.current.value.keyword?.bind ValueType.ofKeyword?) = some t := by
    rw [hv]; exact ValueType.ofKeyword?_keyword t
  refine ⟨t, p.advance, ?_, rfl, left_advance hp h (by simp)⟩
  unfold valueType
  rw [current_bind]
  simp only [hread]
  rfl

theorem of_eq {m : ParseM α} (m' : ParseM α) {ok : α → Prop} (h : m p = m' p) (h' : Accepts m' p ok rest) :
    Accepts m p ok rest := by
  unfold Accepts
  rw [h]
  exact h'

theorem withRule {r : Rule} {m : ParseM α} {ok : α → Prop} (h : Accepts m (p.enter r) ok rest) :
    Accepts (withRule r m) p ok rest := by
  obtain ⟨a, q, hm, ha, hq⟩ := h
  refine ⟨a, q.leave, ?_, ha, ⟨hq.ready.ended, hq.ready.running⟩, hq.pending, hq.history,
    hq.errors⟩
  unfold ParseM.withRule
  rw [hm]

end Accepts

/-! ## Operands -/

/-- The first of some tokens is no operator of at least a precedence. -/
def Follows (least : Nat) (rest : List Token) : Prop := ∀ t ∈ rest.head?, Yields least t

theorem follows_symbol {s : OpSymbol} {least : Nat} {rest : List Token}
    (hs : BinaryOp.ofSymbol? s = none) : Follows least (.symbol s :: rest) := by
  rintro t ht op hop
  cases ht
  have hnone : BinaryOp.ofToken? (.symbol s) = none := hs
  rw [hnone] at hop
  cases hop

/-- The step accepts the expression where no operator follows. -/
def ReadsWhole [Build] (inner : ParseM Expr) (e : Expr) : Prop :=
  ∀ ⦃p rest⦄, p.Ready → p.pending = e.terminals ++ rest → Follows 0 rest →
    Accepts inner p (·.bare = e.bare) rest

section

variable [Build] {p : Parser} {rest : List Token}

theorem leaf_accepts {make : Span → Expr} {t : Token} (hmake : Expr.IsLeaf make t) (s : Span)
    (hp : p.Ready) (h : p.pending = (make s).terminals ++ rest) (ht : t ≠ .eof) :
    Accepts (leaf make) p (·.bare = (make s).bare) rest := by
  rw [hmake.terminals] at h
  have hbare : (make p.stream.current.span).bare = (make s).bare := by rw [hmake.bare, hmake.bare]
  exact ⟨make p.stream.current.span, p.advance, rfl, hbare, left_advance hp h ht⟩

variable {inner : ParseM Expr} {e : Expr} {s : Span}

theorem parenthesized_accepts (he : ReadsWhole inner e) (hp : p.Ready)
    (h : p.pending = (Expr.paren e s).terminals ++ rest) :
    Accepts (parenthesized inner) p (·.bare = (Expr.paren e s).bare) rest := by
  have h : p.pending = .symbol .leftParen :: (e.terminals ++ .symbol .rightParen :: rest) := by
    rw [h]; simp [Expr.terminals]
  refine .place <| .advance hp h (by simp) fun h1 => ?_
  refine (he h1.ready h1.pending (follows_symbol rfl)).bind fun e' p2 he' h2 => ?_
  refine (Accepts.symbol h2.ready h2.pending).bind fun _ p3 _ h3 => ?_
  exact .spanFrom <| .pure h3.ready h3.pending (by simp [Expr.bare, he'])

theorem castCall_accepts {t : ValueType} (he : ReadsWhole inner e) (hp : p.Ready)
    (h : p.pending = (Expr.cast e t s).terminals ++ rest) :
    Accepts (castCall inner) p (·.bare = (Expr.cast e t s).bare) rest := by
  have h : p.pending = .keyword .cast :: .symbol .leftParen :: (e.terminals ++
      .symbol .comma :: .keyword t.keyword :: .symbol .rightParen :: rest) := by
    rw [h]; simp [Expr.terminals]
  refine .place <| (Accepts.keyword hp h).bind fun _ p1 _ h1 => ?_
  refine (Accepts.symbol h1.ready h1.pending).bind fun _ p2 _ h2 => ?_
  refine (he h2.ready h2.pending (follows_symbol rfl)).bind fun e' p3 he' h3 => ?_
  refine (Accepts.symbol h3.ready h3.pending).bind fun _ p4 _ h4 => ?_
  refine (Accepts.type h4.ready h4.pending).bind fun t' p5 ht' h5 => ?_
  refine (Accepts.symbol h5.ready h5.pending).bind fun _ p6 _ h6 => ?_
  exact .spanFrom <| .pure h6.ready h6.pending (by simp [Expr.bare, he', ht'])

theorem unaryCall_accepts {f : UnaryFunction} (he : ReadsWhole inner e) (hp : p.Ready)
    (h : p.pending = (Expr.unaryCall f e s).terminals ++ rest) :
    Accepts (unaryCall inner f) p (·.bare = (Expr.unaryCall f e s).bare) rest := by
  have h : p.pending = .keyword f.keyword :: .symbol .leftParen :: (e.terminals ++
      .symbol .rightParen :: rest) := by
    rw [h]; simp [Expr.terminals]
  refine .place <| (Accepts.keyword hp h).bind fun _ p1 _ h1 => ?_
  refine (Accepts.symbol h1.ready h1.pending).bind fun _ p2 _ h2 => ?_
  refine (he h2.ready h2.pending (follows_symbol rfl)).bind fun e' p3 he' h3 => ?_
  refine (Accepts.symbol h3.ready h3.pending).bind fun _ p4 _ h4 => ?_
  exact .spanFrom <| .pure h4.ready h4.pending (by simp [Expr.bare, he'])

theorem binaryCall_accepts {f : BinaryFunction} {a b : Expr} (ha : ReadsWhole inner a)
    (hb : ReadsWhole inner b) (hp : p.Ready)
    (h : p.pending = (Expr.binaryCall f a b s).terminals ++ rest) :
    Accepts (binaryCall inner f) p (·.bare = (Expr.binaryCall f a b s).bare) rest := by
  have h : p.pending = .keyword f.keyword :: .symbol .leftParen :: (a.terminals ++
      .symbol .comma :: (b.terminals ++ .symbol .rightParen :: rest)) := by
    rw [h]; simp [Expr.terminals]
  refine .place <| (Accepts.keyword hp h).bind fun _ p1 _ h1 => ?_
  refine (Accepts.symbol h1.ready h1.pending).bind fun _ p2 _ h2 => ?_
  refine (ha h2.ready h2.pending (follows_symbol rfl)).bind fun a' p3 ha' h3 => ?_
  refine (Accepts.symbol h3.ready h3.pending).bind fun _ p4 _ h4 => ?_
  refine (hb h4.ready h4.pending (follows_symbol rfl)).bind fun b' p5 hb' h5 => ?_
  refine (Accepts.symbol h5.ready h5.pending).bind fun _ p6 _ h6 => ?_
  exact .spanFrom <| .pure h6.ready h6.pending (by simp [Expr.bare, ha', hb'])

end

/-! ## Operands and operators -/

theorem keywordExpression_unary [Build] (inner : ParseM Expr) (f : UnaryFunction) :
    keywordExpression inner f.keyword = unaryCall inner f := by
  cases f <;> rfl

theorem keywordExpression_binary [Build] (inner : ParseM Expr) (f : BinaryFunction) :
    keywordExpression inner f.keyword = binaryCall inner f := by
  cases f <;> rfl

theorem keywordExpression_constant [Build] (inner : ParseM Expr) (c : BuiltinConstant) :
    keywordExpression inner c.keyword = leaf (.constant c) := by
  cases c <;> rfl

/-- An expression of one level more is operands and operators of one level less. -/
theorem expressionFrom_succ [Build] (n least : Nat) :
    expressionFrom (n + 1) least = operation (operand n) (expressionFrom n) least := by
  funext p
  rw [expressionFrom]

theorem operand_zero [Build] :
    operand 0 = signed (tooDeep .unary) (primary (tooDeep .expression)) := by
  funext p
  rw [operand]

theorem operand_succ [Build] (n : Nat) :
    operand (n + 1) = signed (withRule .unary (negation (operand n)))
      (primary (expressionFrom (n + 1) 0)) := by
  funext p
  rw [operand, expressionFrom_succ]

/-- Without a minus sign before it, an operand is what stands there. -/
theorem signed_of_ne [Build] {p : Parser} {behindMinus plain : ParseM Expr}
    (h : p.stream.current.value ≠ .symbol .minus) : signed behindMinus plain p = plain p := by
  unfold signed
  rw [check_bind]
  refine congrFun (if_neg fun hc => h ?_) p
  exact Token.eq_of_sameKind_symbol hc

theorem signed_of_eq [Build] {p : Parser} {behindMinus plain : ParseM Expr}
    (h : p.stream.current.value = .symbol .minus) : signed behindMinus plain p = behindMinus p := by
  unfold signed
  rw [check_bind]
  refine congrFun (if_pos ?_) p
  unfold TokenStream.check
  rw [h]
  rfl

theorem operand_eq_primary [Build] {n : Nat} {p : Parser}
    (h : p.stream.current.value ≠ .symbol .minus) :
    operand n p = primary (expressionFrom n 0) p := by
  cases n with
  | zero =>
    have h0 : expressionFrom 0 0 = tooDeep .expression := by funext p; rw [expressionFrom]
    rw [operand_zero, signed_of_ne h, h0]
  | succ n => rw [operand_succ, signed_of_ne h]

/-- The rule for operands accepts the expression. -/
def OperandAccepted [Build] (e : Expr) : Prop :=
  ∀ ⦃n : Nat⦄ ⦃p : Parser⦄ ⦃rest : List Token⦄, e.nesting ≤ n → p.Ready →
    p.pending = e.terminals ++ rest → Accepts (operand n) p (·.bare = e.bare) rest

/-- The loop over operators, behind the first operand, gets to the whole expression. -/
def SpineAccepted [Build] (e : Expr) : Prop :=
  ∀ ⦃n least : Nat⦄ (start : Nat) ⦃p : Parser⦄ ⦃rest : List Token⦄, e.FitsAt least →
    e.nesting ≤ n → p.Ready → p.pending = e.terminals ++ rest →
    Follows (e.rank + 1) rest → ∃ first q, operand n p = (.ok first, q) ∧
      ∃ whole r, whole.bare = e.bare ∧ Left p rest r ∧
      ∀ tokens, climb (expressionFrom n) least start (e.operators + tokens) first q =
        climb (expressionFrom n) least start tokens whole r

theorem SpineAccepted.of_operand [Build] {e : Expr} (h : e.FitsAt Expr.tightest → OperandAccepted e)
    (hrank : e.rank = Expr.tightest) (h0 : e.operators = 0) : SpineAccepted e := by
  intro n least _ p rest hfits hn hp hpending hfollow
  have hfits := hfits.of_le_rank (Nat.le_of_eq hrank.symm)
  obtain ⟨e', q, hq, he', hleft⟩ := h hfits hn hp hpending
  exact ⟨e', q, hq, e', q, he', hleft, fun tokens => by rw [h0, Nat.zero_add]⟩

/-- The loop stops where no operator follows that it has to take. -/
theorem climb_stop [Build] {right : Nat → ParseM Expr} {least start tokens : Nat} {left : Expr}
    {p : Parser} (h : Follows least p.pending) :
    climb right least start tokens left p = (.ok left, p) := by
  cases tokens with
  | zero => rfl
  | succ tokens =>
    obtain ⟨rest, hrest⟩ := p.pending_eq_cons
    have hyields := h p.stream.current.value (by rw [hrest]; rfl)
    unfold climb
    rw [current_bind]
    cases hop : BinaryOp.ofToken? p.stream.current.value with
    | none => rfl
    | some op => simp only [if_pos (hyields op hop)]; rfl

theorem follows_of_fits {e : Expr} {least : Nat} {rest : List Token} (hfits : e.FitsAt least)
    (h : Follows least rest) : Follows (e.rank + 1) rest := by
  intro t ht op hop
  have hlt := h t ht op hop
  cases e with
  | binary op' opSpan a b s =>
    have := hfits.1
    simp only [Expr.rank]
    omega
  | _ =>
    have := Expr.precedence_lt_tightest op
    simp only [Expr.rank]
    omega

/-- What the loop gets to is what the rule returns. -/
theorem SpineAccepted.expressionFrom [Build] {e : Expr} (h : SpineAccepted e) {n least : Nat}
    {p : Parser} {rest : List Token} (hfits : e.FitsAt least) (hn : e.nesting < n) (hp : p.Ready)
    (hpending : p.pending = e.terminals ++ rest) (hfollow : Follows least rest) :
    Accepts (Parsing.expressionFrom n least) p (·.bare = e.bare) rest := by
  obtain ⟨n, rfl⟩ : ∃ m, n = m + 1 := ⟨n - 1, by omega⟩
  rw [expressionFrom_succ]
  refine Accepts.withRule ?_
  obtain ⟨first, q, hfirst, whole, r, hwhole, hleft, hloop⟩ :=
    h p.position hfits (Nat.le_of_lt_succ hn) (ready_enter (r := .expression) hp)
      hpending (follows_of_fits hfits hfollow)
  have hsize : e.operators ≤ q.stream.size := by
    have honward := (steady_expressionFrom_operand n).2.onward hfirst
    have hlength := (p.enter .expression).length_pending_le
    have hpending' : (p.enter .expression).pending = e.terminals ++ rest := hpending
    rw [hpending', List.length_append] at hlength
    have := e.operators_le
    have := honward.size_eq
    omega
  refine ⟨whole, r, ?_, hwhole, hleft⟩
  rw [place_bind, bind_of_ok hfirst, get_bind]
  have htokens := hloop (q.stream.size - e.operators)
  rw [Nat.add_sub_cancel' hsize] at htokens
  exact htokens.trans (climb_stop (by rw [hleft.pending]; exact hfollow))

theorem primary_apply_keyword [Build] {inner : ParseM Expr} {p : Parser} {k : Keyword}
    (h : p.stream.current.value = .keyword k) : primary inner p = keywordExpression inner k p := by
  unfold primary
  rw [current_bind, h]

theorem BinaryOp.yields {op : BinaryOp} {k : Nat} (h : op.level.precedence < k) :
    Yields k (.symbol op.symbol) := by
  intro op' hop'
  have : BinaryOp.ofToken? (.symbol op.symbol) = some op := BinaryOp.ofSymbol?_symbol op
  rw [this] at hop'
  cases hop'
  exact h

theorem SpineAccepted.readsWhole [Build] {e : Expr} (h : SpineAccepted e) {n : Nat}
    (hfits : e.FitsAt 0) (hn : e.nesting < n) : ReadsWhole (Parsing.expressionFrom n 0) e :=
  fun _ _ hp hpending hfollow => h.expressionFrom hfits hn hp hpending hfollow

/-- An expression that begins with another token than a minus sign is accepted as an operand when
the rule for such expressions accepts it. -/
theorem OperandAccepted.of_primary [Build] {e : Expr} {t : Token} {ts : List Token}
    (hterminals : e.terminals = t :: ts) (ht : t ≠ .symbol .minus)
    (h : ∀ {n p rest}, e.nesting ≤ n → p.Ready → p.pending = e.terminals ++ rest →
      p.stream.current.value = t → Accepts (primary (expressionFrom n 0)) p (·.bare = e.bare) rest) :
    OperandAccepted e := by
  intro n p rest hn hp hpending
  have hv : p.stream.current.value = t := by
    rw [hterminals, List.cons_append] at hpending
    exact current_eq hpending
  exact .of_eq _ (operand_eq_primary (by rw [hv]; exact ht)) (h hn hp hpending hv)

theorem operandAccepted_leaf [Build] {make : Span → Expr} {t : Token} (hmake : Expr.IsLeaf make t)
    (s : Span) (ht : t ≠ .symbol .minus) (hne : t ≠ .eof)
    (hprimary : ∀ {inner p}, p.stream.current.value = t → primary inner p = leaf make p) :
    OperandAccepted (make s) :=
  OperandAccepted.of_primary (hmake.terminals s) ht fun _ hp hpending hv =>
    .of_eq _ (hprimary hv) (leaf_accepts hmake s hp hpending hne)

theorem operandAccepted_unaryMinus [Build] {e : Expr} {s : Span} (he : OperandAccepted e) :
    OperandAccepted (.unaryMinus e s) := by
  intro n p rest hn hp hpending
  obtain ⟨n, rfl⟩ : ∃ m, n = m + 1 := ⟨n - 1, by simp only [Expr.nesting] at hn; omega⟩
  have hpending' : p.pending = .symbol .minus :: (e.terminals ++ rest) := hpending
  refine .of_eq (withRule .unary (negation (operand n))) ?_ (.withRule (.place ?_))
  · rw [operand_succ, signed_of_eq (current_eq hpending')]
  · refine .advance (ready_enter hp) hpending' (by simp) fun h1 => ?_
    refine (he (Nat.le_of_succ_le_succ hn) h1.ready h1.pending).bind fun e' q he' h2 => ?_
    exact .spanFrom <| .pure h2.ready h2.pending (by simp [Expr.bare, he'])

/-- Behind the operands and operators of its left operand, the loop takes the operator and its right
operand, which has to stop before the next operator of the same level. -/
theorem spineAccepted_binary [Build] {op : BinaryOp} {opSpan s : Span} {a b : Expr}
    (ha : SpineAccepted a) (hb : SpineAccepted b) : SpineAccepted (.binary op opSpan a b s) := by
  rintro n least start p rest ⟨hleast, hfitsa, hfitsb⟩ hn hp hpending hfollow
  obtain ⟨hna, hnb⟩ := Nat.max_le.1 hn
  have hpending' : p.pending = a.terminals ++ .symbol op.symbol :: (b.terminals ++ rest) := by
    rw [hpending]; simp [Expr.terminals]
  have hrank : op.level.precedence ≤ a.rank :=
    hfitsa.le_rank (Nat.le_of_lt (Expr.precedence_lt_tightest op))
  have hnext : Follows (a.rank + 1) (.symbol op.symbol :: (b.terminals ++ rest)) := by
    rintro t ht
    cases ht
    exact BinaryOp.yields (Nat.lt_succ_of_le hrank)
  obtain ⟨first, q, hfirst, whole, r, hwhole, hleft, hloop⟩ :=
    ha start (hfitsa.of_le_rank (Nat.le_trans hleast hrank)) hna hp hpending' hnext
  -- The loop has read the left operand and stands before the operator.
  have hsign := left_advance hleft.ready hleft.pending (by simp)
  obtain ⟨b', r', hb', hbare, hright⟩ := SpineAccepted.expressionFrom hb hfitsb hnb hsign.ready
    hsign.pending hfollow
  refine ⟨first, q, hfirst, .binary op r.stream.current.span whole b' (r'.stream.spanFrom start), r',
    by simp [Expr.bare, hwhole, hbare], hleft.trans (hsign.trans hright), fun tokens => ?_⟩
  have hop : BinaryOp.ofToken? r.stream.current.value = some op := by
    rw [current_eq hleft.pending]; exact BinaryOp.ofSymbol?_symbol op
  calc climb (Parsing.expressionFrom n) least start (a.operators + 1 + tokens) first q
      = climb (Parsing.expressionFrom n) least start (tokens + 1) whole r := by
        rw [Nat.add_assoc, Nat.add_comm 1, hloop]
    _ = climb (Parsing.expressionFrom n) least start tokens
          (.binary op r.stream.current.span whole b' (r'.stream.spanFrom start)) r' := by
        rw [climb, current_bind]
        simp only [hop, if_neg (Nat.not_lt_of_le hleast)]
        rw [advance_bind, bind_of_ok hb', spanFrom_bind]

/-- Every expression of the grammar is accepted, as an operand where it can be one and by the loop
over operators in any case. -/
theorem operandAccepted_spineAccepted [Build] (e : Expr) :
    (e.FitsAt Expr.tightest → OperandAccepted e) ∧ SpineAccepted e := by
  have hboth : ∀ {e : Expr}, e.rank = Expr.tightest → e.operators = 0 →
      (e.FitsAt Expr.tightest → OperandAccepted e) →
      (e.FitsAt Expr.tightest → OperandAccepted e) ∧ SpineAccepted e :=
    fun hrank h0 h => ⟨h, SpineAccepted.of_operand h hrank h0⟩
  induction e with
  | unaryMinus e s ih => exact hboth rfl rfl fun hfits => operandAccepted_unaryMinus (ih.1 hfits)
  | paren e s ih =>
    refine hboth rfl rfl fun hfits =>
      OperandAccepted.of_primary rfl (by simp) fun hn hp hpending hv => ?_
    refine .of_eq (parenthesized _) ?_
      (parenthesized_accepts (SpineAccepted.readsWhole ih.2 hfits hn) hp hpending)
    unfold primary; rw [current_bind, hv]
  | cast e t s ih =>
    refine hboth rfl rfl fun hfits =>
      OperandAccepted.of_primary rfl (by simp) fun hn hp hpending hv => ?_
    exact .of_eq _ (primary_apply_keyword hv)
      (castCall_accepts (SpineAccepted.readsWhole ih.2 hfits hn) hp hpending)
  | unaryCall f e s ih =>
    refine hboth rfl rfl fun hfits =>
      OperandAccepted.of_primary rfl (by simp) fun hn hp hpending hv => ?_
    refine .of_eq _ (primary_apply_keyword hv) ?_
    rw [keywordExpression_unary]
    exact unaryCall_accepts (SpineAccepted.readsWhole ih.2 hfits hn) hp hpending
  | binaryCall f a b s iha ihb =>
    refine hboth rfl rfl fun hfits =>
      OperandAccepted.of_primary rfl (by simp) fun hn hp hpending hv => ?_
    refine .of_eq _ (primary_apply_keyword hv) ?_
    rw [keywordExpression_binary]
    obtain ⟨hna, hnb⟩ := Nat.max_lt.1 hn
    exact binaryCall_accepts (SpineAccepted.readsWhole iha.2 hfits.1 hna)
      (SpineAccepted.readsWhole ihb.2 hfits.2 hnb) hp hpending
  | constant c s =>
    refine hboth rfl rfl fun _ => operandAccepted_leaf (Expr.isLeaf_constant c) s (by simp) (by simp)
      fun hv => ?_
    rw [primary_apply_keyword hv, keywordExpression_constant]
  | name n s =>
    exact hboth rfl rfl fun _ => operandAccepted_leaf (Expr.isLeaf_name n) s (by simp) (by simp)
      fun hv => by unfold primary; rw [current_bind, hv]
  | integer t s =>
    exact hboth rfl rfl fun _ => operandAccepted_leaf (Expr.isLeaf_integer t) s (by simp) (by simp)
      fun hv => by unfold primary; rw [current_bind, hv]
  | real t s =>
    exact hboth rfl rfl fun _ => operandAccepted_leaf (Expr.isLeaf_real t) s (by simp) (by simp)
      fun hv => by unfold primary; rw [current_bind, hv]
  | string t s =>
    exact hboth rfl rfl fun _ => operandAccepted_leaf (Expr.isLeaf_string t) s (by simp) (by simp)
      fun hv => by unfold primary; rw [current_bind, hv]
  | truth b s =>
    cases b with
    | true =>
      exact hboth rfl rfl fun _ => operandAccepted_leaf Expr.isLeaf_true s (by simp) (by simp)
        fun hv => by rw [primary_apply_keyword hv]; rfl
    | false =>
      exact hboth rfl rfl fun _ => operandAccepted_leaf Expr.isLeaf_false s (by simp) (by simp)
        fun hv => by rw [primary_apply_keyword hv]; rfl
  | binary op opSpan a b s iha ihb =>
    constructor
    -- An operation is no operand.
    · intro hfits
      exact absurd hfits.1 (Nat.not_le_of_lt (Expr.precedence_lt_tightest op))
    · exact spineAccepted_binary iha.2 ihb.2

/-- An expression is accepted where no operator follows it. -/
theorem expression_accepts [Build] {e : Expr} {n : Nat} (hfits : e.FitsAt 0) (hn : e.nesting < n) :
    ReadsWhole (expression n) e :=
  SpineAccepted.readsWhole (operandAccepted_spineAccepted e).2 hfits hn

end Parsing

end EvlCheck
