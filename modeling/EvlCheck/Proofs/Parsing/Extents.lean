/-
The places of an expression that was read. The rule returns a tree whose parts stand over the tokens
that were taken: the tokens of a node are those of its parts and the ones of its own, one behind the
other and none between, and the span of each node runs from the first of its tokens to the last
(`Expr.Over`). So the tokens tell where each argument of a call begins and ends.

The induction is that of `Proofs/Parsing/ReadExpression`, which is used for what was taken; here each
step also names the tokens.
-/
import EvlCheck.Proofs.Parsing.ReadExpression

namespace EvlCheck

/-! ## Trees over tokens -/

/-- The span runs from the first of some tokens to the last. -/
def Span.Over (s : Span) (ts : List SpannedToken) : Prop :=
  ∃ first last, ts.head? = some first ∧ ts.getLast? = some last ∧ s = first.span.merge last.span

/-- The expression stands over the tokens, each of its parts over its own. -/
inductive Expr.Over : Expr → List SpannedToken → Prop
  | leaf {make : Span → Expr} {t : SpannedToken} (make_leaf : IsLeaf make t.value) : Over (make t.span) [t]
  | unaryMinus {e : Expr} {s : Span} {sign : SpannedToken} {ts : List SpannedToken}
      (sign_value : sign.value = .symbol .minus) (operand : Over e ts) (span : s.Over (sign :: ts)) :
      Over (.unaryMinus e s) (sign :: ts)
  | paren {e : Expr} {s : Span} {left right : SpannedToken} {ts : List SpannedToken}
      (left_value : left.value = .symbol .leftParen) (right_value : right.value = .symbol .rightParen)
      (inner : Over e ts) (span : s.Over (left :: (ts ++ [right]))) :
      Over (.paren e s) (left :: (ts ++ [right]))
  | cast {e : Expr} {target : ValueType} {s : Span} {word left comma type right : SpannedToken}
      {ts : List SpannedToken} (word_value : word.value = .keyword .cast)
      (left_value : left.value = .symbol .leftParen) (comma_value : comma.value = .symbol .comma)
      (type_value : type.value = .keyword target.keyword)
      (right_value : right.value = .symbol .rightParen) (arg : Over e ts)
      (span : s.Over (word :: left :: (ts ++ [comma, type, right]))) :
      Over (.cast e target s) (word :: left :: (ts ++ [comma, type, right]))
  | unaryCall {f : UnaryFunction} {e : Expr} {s : Span} {word left right : SpannedToken}
      {ts : List SpannedToken} (word_value : word.value = .keyword f.keyword)
      (left_value : left.value = .symbol .leftParen) (right_value : right.value = .symbol .rightParen)
      (arg : Over e ts) (span : s.Over (word :: left :: (ts ++ [right]))) :
      Over (.unaryCall f e s) (word :: left :: (ts ++ [right]))
  | binaryCall {f : BinaryFunction} {a b : Expr} {s : Span} {word left comma right : SpannedToken}
      {ts us : List SpannedToken} (word_value : word.value = .keyword f.keyword)
      (left_value : left.value = .symbol .leftParen) (comma_value : comma.value = .symbol .comma)
      (right_value : right.value = .symbol .rightParen) (first : Over a ts) (second : Over b us)
      (span : s.Over (word :: left :: (ts ++ comma :: (us ++ [right])))) :
      Over (.binaryCall f a b s) (word :: left :: (ts ++ comma :: (us ++ [right])))
  | binary {op : BinaryOp} {a b : Expr} {s : Span} {sign : SpannedToken} {ts us : List SpannedToken}
      (sign_value : sign.value = .symbol op.symbol) (first : Over a ts) (second : Over b us)
      (span : s.Over (ts ++ sign :: us)) : Over (.binary op sign.span a b s) (ts ++ sign :: us)

namespace Expr.Over

variable {e : Expr} {ts : List SpannedToken}

/-- The tokens are the terminals of the expression. -/
theorem map_value (h : e.Over ts) : ts.map (·.value) = e.terminals := by
  induction h with
  | leaf make_leaf => exact (make_leaf.terminals _).symm
  | unaryMinus hsign _ _ ih => rw [List.map_cons, hsign, ih, terminals]
  | paren hleft hright _ _ ih =>
    rw [List.map_cons, List.map_append, List.map_singleton, hleft, hright, ih, terminals]
  | cast hword hleft hcomma htype hright _ _ ih =>
    simp only [List.map_cons, List.map_append, List.map_nil, hword, hleft, hcomma, htype, hright, ih,
      terminals]
  | unaryCall hword hleft hright _ _ ih =>
    simp only [List.map_cons, List.map_append, List.map_nil, hword, hleft, hright, ih, terminals]
  | binaryCall hword hleft hcomma hright _ _ _ ih₁ ih₂ =>
    simp only [List.map_cons, List.map_append, List.map_nil, hword, hleft, hcomma, hright, ih₁, ih₂,
      terminals]
  | binary hsign _ _ _ ih₁ ih₂ => rw [List.map_append, List.map_cons, hsign, ih₁, ih₂, terminals]

theorem ne_nil (h : e.Over ts) : ts ≠ [] := by
  rintro rfl
  exact e.terminals_ne_nil h.map_value.symm

theorem span_over (h : e.Over ts) : e.span.Over ts := by
  cases h with
  | @leaf make t make_leaf =>
    rw [make_leaf.span]
    exact ⟨t, t, rfl, rfl, (Span.merge_self t.span).symm⟩
  | _ => assumption

end Expr.Over

namespace Parsing

open EvlCheck.Parser ParseM

variable [Build]

/-! ## The tokens taken -/

/-- The cursor went over the tokens from one state to a later one. -/
structure Passed (p : Parser) (ts : List SpannedToken) (q : Parser) : Prop where
  onward : Onward p q
  tokens : ((p.stream.significant.toList.drop p.position).take (q.position - p.position)).map
    StreamToken.spanned = ts

namespace Passed

variable {p q r : Parser} {ts us : List SpannedToken}

theorem of_onward (h : Onward p q) : ∃ ts, Passed p ts q := ⟨_, h, rfl⟩

theorem trans (h : Passed p ts q) (h' : Passed q us r) : Passed p (ts ++ us) r := by
  refine ⟨h.onward.trans h'.onward, ?_⟩
  have hpq := h.onward.position
  have hqr := h'.onward.position
  have hus := h'.tokens
  rw [h.onward.tokens, show q.position = p.position + (q.position - p.position) by omega,
    ← List.drop_drop] at hus
  rw [← h.tokens, ← hus, ← List.map_append,
    show r.position - p.position = (q.position - p.position) + (r.position - q.position) by omega,
    List.take_add, show r.position - (p.position + (q.position - p.position)) = r.position - q.position by omega]

theorem map_value (h : Passed p ts q) :
    ts.map (·.value) = valuesFrom p.stream.significant p.position q.position := by
  rw [← h.tokens, List.map_map]
  rfl

/-- Where one token was taken, it is the one that was passed. -/
theorem of_single {t : Token} {ns : List Node} (h : Took p ns [t] q) :
    ∃ token, token.value = t ∧ Passed p [token] q := by
  obtain ⟨ts, hpassed⟩ := of_onward h.onward
  have hvalues := hpassed.map_value
  rw [h.tokens] at hvalues
  obtain ⟨token, rfl, hvalue⟩ := List.map_eq_singleton_iff.1 hvalues
  exact ⟨token, hvalue, hpassed⟩

theorem advance {t : Token} (hp : p.Ready) (ht : p.stream.current.value = t) (hne : t ≠ .eof) :
    Passed p [p.stream.current.spanned] p.advance := by
  refine ⟨onward_advance p, ?_⟩
  have hpos : p.advance.position = p.position + 1 := TokenStream.position_advance hp.ended (ht ▸ hne)
  have hget : p.stream.significant[p.position]? = some p.stream.current := p.stream.getElem?_position
  rw [hpos, Nat.add_sub_cancel_left, List.take_one, List.head?_drop, Array.getElem?_toList, hget]
  rfl

/-- A span from an earlier place of the cursor is over the tokens passed since. -/
theorem spanFrom (h : Passed p ts q) (hne : ts ≠ []) : (q.stream.spanFrom p.position).Over ts := by
  have hlt : p.position < q.position := by
    by_contra hle
    refine hne ?_
    rw [← h.tokens, Nat.sub_eq_zero_of_le (Nat.le_of_not_lt hle), List.take_zero, List.map_nil]
  obtain ⟨-, first, last, hfirst, hlast, hspan⟩ := TokenStream.covers_spanFrom hlt
  rw [h.onward.tokens] at hfirst hlast
  have hsome : ∀ {i : Nat} {t : StreamToken}, p.stream.significant[i]? = some t → p.position ≤ i →
      i < q.position → ts[i - p.position]? = some t.spanned := by
    intro i t hi hle hlt
    rw [← h.tokens, List.getElem?_map, List.getElem?_take_of_lt (by omega), List.getElem?_drop,
      show p.position + (i - p.position) = i by omega, Array.getElem?_toList, hi]
    rfl
  have hlength : ts.length = q.position - p.position := by
    have hq := q.stream.position_lt
    rw [h.onward.tokens] at hq
    rw [← h.tokens, List.length_map, List.length_take, List.length_drop, Array.length_toList]
    unfold Parser.position at *
    omega
  refine ⟨first.spanned, last.spanned, ?_, ?_, hspan⟩
  · rw [List.head?_eq_getElem?, ← hsome hfirst (Nat.le_refl _) hlt, Nat.sub_self]
  · rw [List.getLast?_eq_getElem?, hlength, Nat.sub_right_comm]
    exact hsome hlast (Nat.le_sub_one_of_lt hlt) (Nat.sub_one_lt_of_lt hlt)

end Passed

/-! ## Expressions over the tokens taken -/

/-- An expression was read, and stands over the tokens that were passed. -/
structure OverRead (p : Parser) (e : Expr) (q : Parser) : Prop where
  onward : Onward p q
  ready : q.Ready
  stands : ∃ ts, e.Over ts ∧ Passed p ts q

section

variable {p q : Parser} {n : Nat} {e : Expr}

theorem OverRead.leave {rule : Rule} (h : OverRead (p.enter rule) e q) : OverRead p e q.leave := by
  obtain ⟨ts, hover, hpassed⟩ := h.stands
  exact ⟨onward_leave h.onward, ⟨h.ready.ended, h.ready.running⟩, ts, hover,
    onward_leave h.onward, hpassed.tokens⟩

theorem leaf_over {make : Span → Expr} {t : Token} (hmake : Expr.IsLeaf make t) (hp : p.Ready)
    (hv : p.stream.current.value = t) (hne : t ≠ .eof) (h : leaf make p = (.ok e, q)) :
    OverRead p e q := by
  cases h
  have hpassed := Passed.advance hp hv hne
  subst hv
  exact ⟨hpassed.onward, hpassed.onward.ready hp, _,
    @Expr.Over.leaf make p.stream.current.spanned hmake, hpassed⟩

variable {inner : ParseM Expr}
  (hinner : ∀ {p q e}, p.Ready → inner p = (.ok e, q) → OverRead p e q)
include hinner

theorem parenthesized_over (hp : p.Ready) (hv : p.stream.current.value = .symbol .leftParen)
    (h : parenthesized inner p = (.ok e, q)) : OverRead p e q := by
  unfold parenthesized at h
  rw [place_bind, advance_bind] at h
  obtain ⟨left, hleft, hpassed⟩ := Passed.of_single (Took.advance hp hv (by simp))
  obtain ⟨e, p2, he, h⟩ := bind_ok h
  obtain ⟨-, hready, ts, hover, hbody⟩ := hinner (hpassed.onward.ready hp) he
  obtain ⟨_, p3, hexpect, h⟩ := bind_ok h
  have htook := Took.symbol hready hexpect
  obtain ⟨right, hright, hlast⟩ := Passed.of_single htook
  cases h
  have hall := hpassed.trans (hbody.trans hlast)
  exact ⟨hall.onward, htook.ready, _, .paren hleft hright hover (hall.spanFrom (by simp)), hall⟩

theorem castCall_over (hp : p.Ready) (h : castCall inner p = (.ok e, q)) : OverRead p e q := by
  unfold castCall at h
  rw [place_bind] at h
  obtain ⟨_, p1, hexpect, h⟩ := bind_ok h
  have htook := Took.keyword hp hexpect
  obtain ⟨word, hword, hfirst⟩ := Passed.of_single htook
  obtain ⟨_, p2, hexpect, h⟩ := bind_ok h
  have htook := Took.symbol htook.ready hexpect
  obtain ⟨left, hleft, hopen⟩ := Passed.of_single htook
  obtain ⟨e, p3, he, h⟩ := bind_ok h
  obtain ⟨-, hready, ts, hover, hbody⟩ := hinner htook.ready he
  obtain ⟨_, p4, hexpect, h⟩ := bind_ok h
  have htook := Took.symbol hready hexpect
  obtain ⟨comma, hcomma, hbetween⟩ := Passed.of_single htook
  obtain ⟨t, p5, htype, h⟩ := bind_ok h
  have htook := Took.type htook.ready htype
  obtain ⟨type, htype, htarget⟩ := Passed.of_single htook
  obtain ⟨_, p6, hexpect, h⟩ := bind_ok h
  have htook := Took.symbol htook.ready hexpect
  obtain ⟨right, hright, hlast⟩ := Passed.of_single htook
  cases h
  have hall := hfirst.trans (hopen.trans (hbody.trans (hbetween.trans (htarget.trans hlast))))
  exact ⟨hall.onward, htook.ready, _,
    .cast hword hleft hcomma htype hright hover (hall.spanFrom (by simp)), hall⟩

theorem unaryCall_over {f : UnaryFunction} (hp : p.Ready) (h : unaryCall inner f p = (.ok e, q)) :
    OverRead p e q := by
  unfold unaryCall at h
  rw [place_bind] at h
  obtain ⟨_, p1, hexpect, h⟩ := bind_ok h
  have htook := Took.keyword hp hexpect
  obtain ⟨word, hword, hfirst⟩ := Passed.of_single htook
  obtain ⟨_, p2, hexpect, h⟩ := bind_ok h
  have htook := Took.symbol htook.ready hexpect
  obtain ⟨left, hleft, hopen⟩ := Passed.of_single htook
  obtain ⟨e, p3, he, h⟩ := bind_ok h
  obtain ⟨-, hready, ts, hover, hbody⟩ := hinner htook.ready he
  obtain ⟨_, p4, hexpect, h⟩ := bind_ok h
  have htook := Took.symbol hready hexpect
  obtain ⟨right, hright, hlast⟩ := Passed.of_single htook
  cases h
  have hall := hfirst.trans (hopen.trans (hbody.trans hlast))
  exact ⟨hall.onward, htook.ready, _, .unaryCall hword hleft hright hover (hall.spanFrom (by simp)), hall⟩

theorem binaryCall_over {f : BinaryFunction} (hp : p.Ready)
    (h : binaryCall inner f p = (.ok e, q)) : OverRead p e q := by
  unfold binaryCall at h
  rw [place_bind] at h
  obtain ⟨_, p1, hexpect, h⟩ := bind_ok h
  have htook := Took.keyword hp hexpect
  obtain ⟨word, hword, hfirst⟩ := Passed.of_single htook
  obtain ⟨_, p2, hexpect, h⟩ := bind_ok h
  have htook := Took.symbol htook.ready hexpect
  obtain ⟨left, hleft, hopen⟩ := Passed.of_single htook
  obtain ⟨a, p3, ha, h⟩ := bind_ok h
  obtain ⟨-, hready, ts, hover, hbody⟩ := hinner htook.ready ha
  obtain ⟨_, p4, hexpect, h⟩ := bind_ok h
  have htook := Took.symbol hready hexpect
  obtain ⟨comma, hcomma, hbetween⟩ := Passed.of_single htook
  obtain ⟨b, p5, hb, h⟩ := bind_ok h
  obtain ⟨-, hready, us, hover', hsecond⟩ := hinner htook.ready hb
  obtain ⟨_, p6, hexpect, h⟩ := bind_ok h
  have htook := Took.symbol hready hexpect
  obtain ⟨right, hright, hlast⟩ := Passed.of_single htook
  cases h
  have hall := hfirst.trans (hopen.trans (hbody.trans (hbetween.trans (hsecond.trans hlast))))
  exact ⟨hall.onward, htook.ready, _,
    .binaryCall hword hleft hcomma hright hover hover' (hall.spanFrom (by simp)), hall⟩

theorem keywordExpression_over {k : Keyword} (hp : p.Ready)
    (hv : p.stream.current.value = .keyword k) (h : keywordExpression inner k p = (.ok e, q)) :
    OverRead p e q := by
  generalize hm : keywordExpression inner k = m at h
  unfold keywordExpression at hm
  split at hm
  · exact castCall_over hinner hp (hm ▸ h)
  split at hm
  · next hk =>
    rw [beq_iff_eq] at hk
    exact leaf_over Expr.isLeaf_true hp (hk ▸ hv) (by simp) (hm ▸ h)
  split at hm
  · next hk =>
    rw [beq_iff_eq] at hk
    exact leaf_over Expr.isLeaf_false hp (hk ▸ hv) (by simp) (hm ▸ h)
  split at hm
  · exact binaryCall_over hinner hp (hm ▸ h)
  · exact unaryCall_over hinner hp (hm ▸ h)
  · next c hc _ _ =>
    have hk := BuiltinConstant.keyword_of_ofKeyword? hc
    exact leaf_over (Expr.isLeaf_constant c) hp (hk ▸ hv) (by simp) (hm ▸ h)
  · subst hm; exact absurd h noViableAlternative_ne_ok

theorem primary_over (hp : p.Ready) (h : primary inner p = (.ok e, q)) : OverRead p e q := by
  obtain ⟨m, hm, h⟩ := current_ok h
  split at hm <;> subst hm
  · next hv => exact parenthesized_over hinner hp hv h
  · next k hv => exact keywordExpression_over hinner hp hv h
  · next hv => exact leaf_over (Expr.isLeaf_name _) hp hv (by simp) h
  · next hv => exact leaf_over (Expr.isLeaf_integer _) hp hv (by simp) h
  · next hv => exact leaf_over (Expr.isLeaf_real _) hp hv (by simp) h
  · next hv => exact leaf_over (Expr.isLeaf_string _) hp hv (by simp) h
  · exact absurd h noViableAlternative_ne_ok

theorem negation_over (hp : p.Ready) (hv : p.stream.current.value = .symbol .minus)
    (h : negation inner p = (.ok e, q)) : OverRead p e q := by
  unfold negation at h
  rw [place_bind, advance_bind] at h
  obtain ⟨sign, hsign, hpassed⟩ := Passed.of_single (Took.advance hp hv (by simp))
  obtain ⟨e, p2, he, h⟩ := bind_ok h
  obtain ⟨-, hready, ts, hover, hbody⟩ := hinner (hpassed.onward.ready hp) he
  cases h
  have hall := hpassed.trans hbody
  exact ⟨hall.onward, hready, _, .unaryMinus hsign hover (hall.spanFrom (by simp)), hall⟩

end

section

variable {p q : Parser} {e : Expr} {right : Nat → ParseM Expr} {least : Nat}
  (hright : ∀ {k p q e}, p.Ready → right k p = (.ok e, q) → OverRead p e q)
include hright

/-- The left operand that is read so far stands over all tokens since the start, and grows by an
operator and what stands behind it. -/
theorem climb_over {tokens : Nat} {start p : Parser} {left : Expr} (hleft : OverRead start left p)
    (h : climb right least start.position tokens left p = (.ok e, q)) : OverRead start e q := by
  induction tokens generalizing left p with
  | zero =>
    cases h
    exact hleft
  | succ tokens ih =>
    obtain ⟨m, hm, h⟩ := current_ok h
    split at hm
    · subst hm
      cases h
      exact hleft
    · next op hop =>
      split at hm <;> subst hm
      · cases h
        exact hleft
      · rw [advance_bind] at h
        have hvalue := BinaryOp.symbol_of_ofToken? hop
        obtain ⟨-, hready, ts, hover, hfirst⟩ := hleft
        have hsign := Passed.advance hready hvalue (by simp)
        obtain ⟨r, p2, hr, h⟩ := bind_ok h
        obtain ⟨-, hready', us, hover', hsecond⟩ := hright (hsign.onward.ready hready) hr
        rw [spanFrom_bind] at h
        have hall := hfirst.trans (hsign.trans hsecond)
        exact ih ⟨hall.onward, hready', _,
          Expr.Over.binary hvalue hover hover' (hall.spanFrom (by simp)), hall⟩ h

theorem operation_over {inner : ParseM Expr}
    (hinner : ∀ {p q e}, p.Ready → inner p = (.ok e, q) → OverRead p e q)
    (hp : p.Ready) (h : operation inner right least p = (.ok e, q)) : OverRead p e q := by
  obtain ⟨q', hq, rfl⟩ := withRule_ok h
  rw [place_bind] at hq
  obtain ⟨left, p1, hl, hq⟩ := bind_ok hq
  rw [get_bind] at hq
  exact (climb_over hright (hinner (ready_enter hp) hl) hq).leave

end

theorem expressionFrom_operand_over (n : Nat) :
    (∀ {least p q e}, p.Ready → expressionFrom n least p = (.ok e, q) → OverRead p e q) ∧
    (∀ {p q e}, p.Ready → operand n p = (.ok e, q) → OverRead p e q) := by
  induction n with
  | zero =>
    constructor
    · intro least p q e hp h
      unfold expressionFrom at h
      exact absurd h tooDeep_ne_ok
    · intro p q e hp h
      unfold operand at h
      rcases signed_ok h with ⟨-, h⟩ | h
      · exact absurd h tooDeep_ne_ok
      · exact primary_over (fun _ h => absurd h tooDeep_ne_ok) hp h
  | succ n ih =>
    have hexpression : ∀ {least p q e}, p.Ready →
        operation (operand n) (expressionFrom n) least p = (.ok e, q) → OverRead p e q :=
      fun hp h => operation_over ih.1 ih.2 hp h
    constructor
    · intro least p q e hp h
      unfold expressionFrom at h
      exact hexpression hp h
    · intro p q e hp h
      unfold operand at h
      rcases signed_ok h with ⟨hv, h⟩ | h
      · obtain ⟨q', hq, rfl⟩ := withRule_ok h
        exact (negation_over ih.2 (ready_enter hp) hv hq).leave
      · exact primary_over hexpression hp h

/-- An expression stands over the tokens that the rule takes. -/
theorem expression_over {n : Nat} {p q : Parser} {e : Expr} (hp : p.Ready)
    (h : expression n p = (.ok e, q)) : ∃ ts, e.Over ts ∧ Passed p ts q :=
  ((expressionFrom_operand_over n).1 hp h).stands

end Parsing

end EvlCheck
