/-
What the rules may do to a state, said once for all properties of states. Inside a statement they
only look, log, open and close rules, and go over the tokens that stand inside statements; so a
property that none of these moves destroys is kept by every rule for expressions and by those parts
of statements that hold no block (`Inner`). The words that open statements and the blocks are the
rest: what a statement does there is said by the properties that hold before its first word, behind
it, and behind its blocks (`Stages`).

A rule that fails does so at the token under the cursor.
-/
import EvlCheck.Parsing.Parse
import EvlCheck.Proofs.Parsing.Step

namespace EvlCheck

/-- The tokens that stand inside statements: no brace, no word that opens or continues a statement
with one of its own, and not the end. -/
def Token.isInner : Token → Bool
  | .keyword k => !(k == .const || k == .print || k == .if || k == .else || k == .while || k == .try ||
      k == .catch)
  | .symbol s => !(s == .leftBrace || s == .rightBrace)
  | .eof => false
  | _ => true

theorem ValueType.isInner_keyword (t : ValueType) : Token.isInner (.keyword t.keyword) = true := by
  cases t <;> rfl

theorem BinaryOp.isInner_symbol (op : BinaryOp) : Token.isInner (.symbol op.symbol) = true := by
  cases op <;> rfl

theorem AssignOp.isInner_symbol (op : AssignOp) : Token.isInner (.symbol op.symbol) = true := by
  cases op <;> rfl

/-! ## What a step leads to -/

namespace ParseM

variable [Build]

/-- From every state with one property the step leads to one with a property for its success, or to
one with a property for its failure; then its error is one at the token under the cursor. -/
structure Leads {α : Type} (before : Parser → Prop) (m : ParseM α) (behind failed : Parser → Prop) :
    Prop where
  ok : ∀ {p q a}, before p → m p = (.ok a, q) → behind q
  error : ∀ {p q e}, before p → m p = (.error e, q) →
    failed q ∧ e.span? = some q.stream.current.span

namespace Leads

variable {α β : Type} {before middle behind failed : Parser → Prop}

theorem mono {before' behind' failed' : Parser → Prop} {m : ParseM α}
    (h : Leads before m behind failed) (hbefore : ∀ p, before' p → before p)
    (hbehind : ∀ p, behind p → behind' p) (hfailed : ∀ p, failed p → failed' p) :
    Leads before' m behind' failed' where
  ok hp hm := hbehind _ (h.ok (hbefore _ hp) hm)
  error hp hm := (h.error (hbefore _ hp) hm).imp_left (hfailed _)

/-- What was seen besides need not be used. -/
theorem unseen {seen : Parser → Prop} {m : ParseM α} (h : Leads before m behind failed) :
    Leads (fun p => before p ∧ seen p) m behind failed :=
  h.mono (fun _ hp => hp.1) (fun _ hp => hp) fun _ hp => hp

theorem bind {m : ParseM α} {f : α → ParseM β} (hm : Leads before m middle failed)
    (hf : ∀ a, Leads middle (f a) behind failed) : Leads before (m >>= f) behind failed := by
  constructor
  · intro p q b hp h
    obtain ⟨a, p', hmp, hfp⟩ := bind_ok h
    exact (hf a).ok (hm.ok hp hmp) hfp
  · intro p q e hp h
    rcases hmp : m p with ⟨e' | a, p'⟩
    · rw [bind_of_error hmp] at h
      cases h
      exact hm.error hp hmp
    · rw [bind_of_ok hmp] at h
      exact (hf a).error (hm.ok hp hmp) h

theorem pure {a : α} (h : ∀ p, before p → behind p) :
    Leads before (pure a : ParseM α) behind failed where
  ok hp hm := by cases hm; exact h _ hp
  error _ hm := nomatch hm

theorem ite {c : Prop} [Decidable c] {m m' : ParseM α} (hm : Leads before m behind failed)
    (hm' : Leads before m' behind failed) : Leads before (if c then m else m') behind failed := by
  by_cases hc : c
  · rw [if_pos hc]; exact hm
  · rw [if_neg hc]; exact hm'

/-- A step after a look at the state may depend on what was seen. -/
theorem get {f : Parser → ParseM β}
    (h : ∀ s, Leads (fun p => before p ∧ p = s) (f s) behind failed) :
    Leads before ((get : ParseM Parser) >>= f) behind failed where
  ok hp hm := (h _).ok ⟨hp, rfl⟩ hm
  error hp hm := (h _).error ⟨hp, rfl⟩ hm

theorem current {f : StreamToken → ParseM β}
    (h : ∀ t, Leads (fun p => before p ∧ p.stream.current = t) (f t) behind failed) :
    Leads before (current >>= f) behind failed where
  ok hp hm := (h _).ok ⟨hp, rfl⟩ hm
  error hp hm := (h _).error ⟨hp, rfl⟩ hm

theorem check {t : Token} {f : Bool → ParseM β}
    (h : ∀ b, Leads (fun p => before p ∧ p.stream.check t = b) (f b) behind failed) :
    Leads before (check t >>= f) behind failed where
  ok hp hm := (h _).ok ⟨hp, rfl⟩ hm
  error hp hm := (h _).error ⟨hp, rfl⟩ hm

theorem place {f : Nat → ParseM β} (h : ∀ n, Leads before (f n) behind failed) :
    Leads before (place >>= f) behind failed where
  ok hp hm := (h _).ok hp hm
  error hp hm := (h _).error hp hm

theorem spanFrom {first : Nat} {f : Span → ParseM β} (h : ∀ s, Leads before (f s) behind failed) :
    Leads before (spanFrom first >>= f) behind failed where
  ok hp hm := (h _).ok hp hm
  error hp hm := (h _).error hp hm

theorem advance (h : ∀ p, before p → behind p.advance) :
    Leads before advance behind failed where
  ok hp hm := by cases hm; exact h _ hp
  error _ hm := nomatch hm

theorem modify {g : Parser → Parser} (h : ∀ p, before p → behind (g p)) :
    Leads before (modify g : ParseM PUnit) behind failed where
  ok hp hm := by cases hm; exact h _ hp
  error _ hm := nomatch hm

theorem noViableAlternative (h : ∀ p, before p → failed p) :
    Leads before (noViableAlternative : ParseM α) behind failed where
  ok _ hm := nomatch hm
  error hp hm := by cases hm; exact ⟨h _ hp, rfl⟩

theorem unexpected {expected : String} (h : ∀ p, before p → failed p) :
    Leads before (unexpected expected : ParseM α) behind failed where
  ok _ hm := nomatch hm
  error {p q e} hp hm := by
    cases hm
    refine ⟨h _ hp, ?_⟩
    unfold SyntaxError.unexpected
    split <;> rfl

theorem expect {t : Token} (hread : ∀ p, before p → p.stream.check t = true → behind p.advance)
    (hfail : ∀ p, before p → failed p) : Leads before (expect t) behind failed := by
  constructor
  · intro p q tok hp h
    obtain ⟨hc, -, rfl⟩ := expect_ok h
    exact hread _ hp hc
  · intro p q e hp h
    rw [expect_apply] at h
    by_cases hc : p.stream.check t = true
    · rw [if_pos hc] at h; cases h
    · rw [if_neg hc] at h
      cases h
      refine ⟨hfail _ hp, ?_⟩
      split <;> rfl

theorem withRule {r : Rule} {m : ParseM α} (hm : Leads before m behind failed)
    {before' behind' failed' : Parser → Prop} (hbefore : ∀ p, before' p → before (p.enter r))
    (hbehind : ∀ p, behind p → behind' p.leave) (hfailed : ∀ p, failed p → failed' p.leave) :
    Leads before' (withRule r m) behind' failed' := by
  constructor
  · intro p q a hp h
    obtain ⟨q', hq, rfl⟩ := withRule_ok h
    exact hbehind _ (hm.ok (hbefore _ hp) hq)
  · intro p q e hp h
    obtain ⟨q', hq, rfl⟩ := withRule_error h
    exact (hm.error (hbefore _ hp) hq).imp_left (hfailed _)

end Leads

end ParseM

/-! ## Inside statements -/

/-- No move inside an expression destroys the property, but perhaps one that opens or closes a rule. -/
structure Flat [Build] (I : Parser → Prop) : Prop where
  log : ∀ {p} e, I p → I (p.log e)
  advance : ∀ {p}, I p → p.stream.current.value.isInner = true → I p.advance

/-- No move inside a statement destroys the property, but perhaps one that opens or closes a rule. -/
structure FlatUnbroken [Build] (I : Parser → Prop) : Prop extends Flat I where
  reportLoneString : ∀ {p}, I p → I p.reportLoneString

/-- No move inside an expression destroys the property. -/
structure Wordless [Build] (I : Parser → Prop) : Prop extends Flat I where
  record : ∀ {p} s, I p → I (p.record s)

/-- No move inside a statement destroys the property. -/
structure Unbroken [Build] (I : Parser → Prop) : Prop extends Wordless I where
  reportLoneString : ∀ {p}, I p → I p.reportLoneString

theorem Unbroken.flat [Build] {I : Parser → Prop} (h : Unbroken I) : FlatUnbroken I :=
  ⟨h.toFlat, h.reportLoneString⟩

namespace Wordless

variable [Build] {I : Parser → Prop} (h : Wordless I) {p : Parser}
include h

theorem enter (r : Rule) (hp : I p) : I (p.enter r) := h.record _ hp

theorem leave (hp : I p) : I p.leave := h.record _ hp

theorem openProgram (hp : I p) : I p.openProgram := h.record _ hp

theorem closeProgram (hp : I p) : I p.closeProgram := h.record _ hp

end Wordless

/-- The step keeps every property that no move inside an expression destroys. -/
def Inner [Build] {α : Type} (m : ParseM α) : Prop :=
  ∀ ⦃I : Parser → Prop⦄, Wordless I → m.Leads I I I

namespace Parsing

open EvlCheck.Parser ParseM

variable [Build]

/-! ### Words and names -/

section

variable {before after failed : Parser → Prop}
  (hread : ∀ p, before p → p.stream.current.value.isInner = true → after p.advance)
  (hfail : ∀ p, before p → failed p)
include hread hfail

theorem leads_symbol {s : OpSymbol} (hs : Token.isInner (.symbol s) = true) :
    (expect (.symbol s)).Leads before after failed :=
  .expect (fun _ hp hc => hread _ hp (Token.eq_of_sameKind_symbol hc ▸ hs)) hfail

theorem leads_keyword {k : Keyword} (hk : Token.isInner (.keyword k) = true) :
    (expect (.keyword k)).Leads before after failed :=
  .expect (fun _ hp hc => hread _ hp (Token.eq_of_sameKind_keyword hc ▸ hk)) hfail

theorem leads_expectName : expectName.Leads before after failed := by
  refine .bind (.expect (fun p hp hc => hread _ hp ?_) hfail) fun _ => .pure fun _ hp => hp
  unfold TokenStream.check at hc
  cases hv : p.stream.current.value with
  | identifier n => rfl
  | _ => rw [hv] at hc; cases hc

theorem leads_valueType : valueType.Leads before after failed := by
  refine .current fun t => ?_
  split
  · next type htype =>
    obtain ⟨k, hk, hkt⟩ := Option.bind_eq_some_iff.1 htype
    have ht : t.value = .keyword type.keyword := by
      cases hv : t.value with
      | keyword k' =>
        rw [hv] at hk
        cases hk
        rw [ValueType.keyword_of_ofKeyword? hkt]
      | _ => rw [hv] at hk; cases hk
    refine .bind (.advance fun p hp => hread p hp.1 ?_) fun _ => .pure fun _ hp => hp
    rw [hp.2, ht]
    exact type.isInner_keyword
  · exact .unexpected fun _ hp => hfail _ hp.1

end

section

variable {I : Parser → Prop} (hI : Flat I)
include hI

omit hI in
theorem leads_withRule {α : Type} (hI : Wordless I) {r : Rule} {m : ParseM α} (hm : m.Leads I I I) :
    (withRule r m).Leads I I I :=
  hm.withRule (fun _ => hI.enter r) (fun _ => hI.leave) (fun _ => hI.leave)

theorem leads_tooDeep {α : Type} (r : Rule) : (tooDeep r : ParseM α).Leads I I I where
  ok _ hm := absurd hm tooDeep_ne_ok
  error hp hm := by cases hm; exact ⟨hI.log _ hp, rfl⟩

theorem inner_symbol {s : OpSymbol} (hs : Token.isInner (.symbol s) = true) :
    (expect (.symbol s)).Leads I I I :=
  leads_symbol (fun _ => hI.advance) (fun _ hp => hp) hs

theorem inner_valueType : valueType.Leads I I I :=
  leads_valueType (fun _ => hI.advance) fun _ hp => hp

theorem inner_expectName : expectName.Leads I I I :=
  leads_expectName (fun _ => hI.advance) fun _ hp => hp

/-- A token that is seen to stand inside statements is gone over. -/
theorem leads_advance {t : StreamToken} (ht : t.value.isInner = true) :
    ParseM.advance.Leads (fun p => I p ∧ p.stream.current = t) I I :=
  .advance fun _ hp => hI.advance hp.1 (hp.2 ▸ ht)

/-! ## Expressions -/

/-- A token that is an expression by itself is one that stands inside statements. -/
theorem leads_leaf {t : StreamToken} (ht : t.value.isInner = true) (make : Span → Expr) :
    (leaf make).Leads (fun p => I p ∧ p.stream.current = t) I I :=
  (leads_advance hI ht).bind fun _ => .pure fun _ hp => hp

section

variable {inner : ParseM Expr} (hi : inner.Leads I I I)
include hi

theorem leads_castCall : (castCall inner).Leads I I I := by
  refine .place fun _ => ?_
  refine (leads_keyword (fun _ => hI.advance) (fun _ hp => hp) rfl).bind fun _ => ?_
  refine (inner_symbol hI rfl).bind fun _ => ?_
  refine hi.bind fun _ => ?_
  refine (inner_symbol hI rfl).bind fun _ => ?_
  refine (inner_valueType hI).bind fun _ => ?_
  refine (inner_symbol hI rfl).bind fun _ => ?_
  exact .spanFrom fun _ => .pure fun _ hp => hp

theorem leads_unaryCall (f : UnaryFunction) : (unaryCall inner f).Leads I I I := by
  refine .place fun _ => ?_
  refine (leads_keyword (fun _ => hI.advance) (fun _ hp => hp) (by cases f <;> rfl)).bind fun _ => ?_
  refine (inner_symbol hI rfl).bind fun _ => ?_
  refine hi.bind fun _ => ?_
  refine (inner_symbol hI rfl).bind fun _ => ?_
  exact .spanFrom fun _ => .pure fun _ hp => hp

theorem leads_binaryCall (f : BinaryFunction) : (binaryCall inner f).Leads I I I := by
  refine .place fun _ => ?_
  refine (leads_keyword (fun _ => hI.advance) (fun _ hp => hp) (by cases f <;> rfl)).bind fun _ => ?_
  refine (inner_symbol hI rfl).bind fun _ => ?_
  refine hi.bind fun _ => ?_
  refine (inner_symbol hI rfl).bind fun _ => ?_
  refine hi.bind fun _ => ?_
  refine (inner_symbol hI rfl).bind fun _ => ?_
  exact .spanFrom fun _ => .pure fun _ hp => hp

theorem leads_keywordExpression {t : StreamToken} {k : Keyword} (ht : t.value = .keyword k) :
    (keywordExpression inner k).Leads (fun p => I p ∧ p.stream.current = t) I I := by
  unfold keywordExpression
  cases k
  case cast => exact (leads_castCall hI hi).unseen
  case pow | min | max => exact (leads_binaryCall hI hi _).unseen
  case sqrt | round | abs => exact (leads_unaryCall hI hi _).unseen
  case true | false | pi | daysInWeek | hoursInDay | year => exact leads_leaf hI (by rw [ht]; rfl) _
  all_goals exact .noViableAlternative fun _ hp => hp.1

theorem leads_primary : (primary inner).Leads I I I := by
  refine .current fun t => ?_
  split
  · next ht =>
    refine .place fun _ => ?_
    refine (leads_advance hI (by rw [ht]; rfl)).bind fun _ => ?_
    refine hi.bind fun _ => ?_
    refine (inner_symbol hI rfl).bind fun _ => ?_
    exact .spanFrom fun _ => .pure fun _ hp => hp
  · next ht => exact leads_keywordExpression hI hi ht
  · next ht => exact leads_leaf hI (by rw [ht]; rfl) _
  · next ht => exact leads_leaf hI (by rw [ht]; rfl) _
  · next ht => exact leads_leaf hI (by rw [ht]; rfl) _
  · next ht => exact leads_leaf hI (by rw [ht]; rfl) _
  · exact .noViableAlternative fun _ hp => hp.1

/-- The minus sign was seen before. -/
theorem leads_negation :
    (negation inner).Leads (fun p => I p ∧ p.stream.check (.symbol .minus) = true) I I := by
  refine .place fun _ => ?_
  have hsign : ∀ p : Parser, I p ∧ p.stream.check (.symbol .minus) = true → I p.advance := by
    rintro p ⟨hp, hc⟩
    refine hI.advance hp ?_
    rw [Token.eq_of_sameKind_symbol hc]
    rfl
  refine (Leads.advance hsign).bind fun _ => ?_
  refine hi.bind fun _ => ?_
  exact .spanFrom fun _ => .pure fun _ hp => hp

end

theorem leads_climb {right : Nat → ParseM Expr} (hr : ∀ k, (right k).Leads I I I)
    (least start tokens : Nat) (left : Expr) : (climb right least start tokens left).Leads I I I := by
  induction tokens generalizing left with
  | zero => exact .pure fun _ hp => hp
  | succ tokens ih =>
    refine .current fun t => ?_
    split
    · exact .pure fun _ hp => hp.1
    · next op hop =>
      refine .ite (.pure fun _ hp => hp.1) ?_
      have ht : t.value.isInner = true := by
        rw [BinaryOp.symbol_of_ofToken? hop]
        exact op.isInner_symbol
      refine (leads_advance hI ht).bind fun _ => ?_
      refine (hr _).bind fun _ => ?_
      exact .spanFrom fun _ => ih _

/-- An operation, given what holds inside its rule. -/
theorem leads_operation {outside : Parser → Prop} (henter : ∀ p, outside p → I (p.enter .expression))
    (hleave : ∀ p, I p → outside p.leave) {inner : ParseM Expr} {right : Nat → ParseM Expr}
    (hi : inner.Leads I I I) (hr : ∀ k, (right k).Leads I I I) (least : Nat) :
    (operation inner right least).Leads outside outside outside := by
  have hbody : Leads I (do
      let start ← place
      let left ← inner
      let tokens := (← get).stream.size
      climb right least start tokens left) I I := by
    refine .place fun _ => ?_
    refine hi.bind fun _ => .get fun _ => ?_
    exact (leads_climb hI hr _ _ _ _).unseen
  exact hbody.withRule henter hleave hleave

omit hI in
theorem leads_signed {behindMinus plain : ParseM Expr}
    (hm : behindMinus.Leads (fun p => I p ∧ p.stream.check (.symbol .minus) = true) I I)
    (hp : plain.Leads I I I) : (signed behindMinus plain).Leads I I I := by
  refine .check fun b => ?_
  cases b with
  | true => exact hm
  | false => exact hp.unseen

end

/-- Every rule for expressions stays inside statements. -/
theorem inner_expressionFrom_operand (n : Nat) :
    (∀ least, Inner (expressionFrom n least)) ∧ Inner (operand n) := by
  induction n with
  | zero =>
    constructor
    · intro least I hI
      unfold expressionFrom
      exact leads_tooDeep hI.toFlat _
    · intro I hI
      unfold operand
      refine leads_signed ?_ (leads_primary hI.toFlat (leads_tooDeep hI.toFlat _))
      exact (leads_tooDeep hI.toFlat _).unseen
  | succ n ih =>
    have hoperation : ∀ least ⦃I⦄, Wordless I → (operation (operand n) (expressionFrom n) least).Leads I I I :=
      fun least I hI => leads_operation hI.toFlat (fun _ => hI.enter _) (fun _ => hI.leave) (ih.2 hI)
        (fun k => ih.1 k hI) least
    constructor
    · intro least I hI
      unfold expressionFrom
      exact hoperation least hI
    · intro I hI
      unfold operand
      refine leads_signed ?_ (leads_primary hI.toFlat (hoperation 0 hI))
      exact (leads_negation hI.toFlat (ih.2 hI)).withRule (fun _ hp => ⟨hI.enter _ hp.1, hp.2⟩)
        (fun _ => hI.leave) (fun _ => hI.leave)

theorem inner_expression (n : Nat) : Inner (expression n) :=
  (inner_expressionFrom_operand n).1 0

/-! ## Statements -/

section

variable {I : Parser → Prop} (hI : Flat I) {value : ParseM Expr} (hv : value.Leads I I I)
include hI hv

section

variable {start failed : Parser → Prop}
  (hread : ∀ p, start p → p.stream.current.value.isInner = true → I p.advance)
  (hstart : ∀ p, start p → failed p) (hfail : ∀ p, I p → failed p)
include hread hstart hfail

/-- A declaration, seen from before its first token. -/
theorem leads_varDecl : (varDecl value).Leads start I failed := by
  refine .place fun _ => (leads_valueType hread hstart).bind fun _ => ?_
  refine Leads.mono ?_ (fun _ hp => hp) (fun _ hp => hp) hfail
  refine (inner_expectName hI).bind fun _ => ?_
  refine (inner_symbol hI rfl).bind fun _ => ?_
  refine hv.bind fun _ => ?_
  exact .spanFrom fun _ => .pure fun _ hp => hp

theorem leads_assignment : (assignment value).Leads start I failed := by
  refine .place fun _ => (leads_expectName hread hstart).bind fun _ => ?_
  refine Leads.mono (.current fun t => ?_) (fun _ hp => hp) (fun _ hp => hp) hfail
  split
  · exact .unexpected fun _ hp => hp.1
  · next op hop =>
    have ht : t.value.isInner = true := by
      rw [AssignOp.symbol_of_ofToken? hop]
      exact op.isInner_symbol
    refine (leads_advance hI ht).bind fun _ => ?_
    refine hv.bind fun _ => ?_
    exact .spanFrom fun _ => .pure fun _ hp => hp

end

theorem leads_condition : (condition value).Leads I I I := by
  refine (inner_symbol hI rfl).bind fun _ => ?_
  refine hv.bind fun _ => ?_
  refine (inner_symbol hI rfl).bind fun _ => ?_
  exact .pure fun _ hp => hp

omit hv in
theorem leads_catchBinding : catchBinding.Leads I I I := by
  refine .check fun b => ?_
  cases b with
  | true =>
    refine (Leads.advance fun p hp => hI.advance hp.1 ?_).bind fun _ => ?_
    · rw [Token.eq_of_sameKind_symbol hp.2]; rfl
    · refine (inner_expectName hI).bind fun _ => ?_
      refine (inner_symbol hI rfl).bind fun _ => ?_
      exact .pure fun _ hp => hp
  | false => exact .pure fun _ hp => hp.1

end

section

variable {I : Parser → Prop} (hI : FlatUnbroken I) {value : ParseM Expr} (hv : value.Leads I I I)
include hI hv

/-- An argument of a print statement may be reported. -/
theorem leads_printArg : (printArg value).Leads I I I := by
  refine .get fun s => ?_
  have hexpr : Leads (fun p => I p ∧ p = s) (do return PrintArg.expr (← value)) I I :=
    (hv.bind fun _ => .pure fun _ hp => hp).unseen
  dsimp only
  split
  · next text htext =>
    refine .ite ?_ hexpr
    -- The report leaves the string under the cursor.
    have hreport : (modify reportLoneString : ParseM PUnit).Leads (fun p => I p ∧ p = s)
        (fun p => I p ∧ p.stream.current.value = .string text) I := by
      refine .modify ?_
      rintro p ⟨hp, rfl⟩
      refine ⟨hI.reportLoneString hp, ?_⟩
      rw [stream_reportLoneString]
      exact stringText?_eq_some htext
    refine hreport.bind fun _ => ?_
    refine (Leads.advance fun p hp => hI.advance hp.1 ?_).bind fun _ => .pure fun _ hp => hp
    rw [hp.2]
    rfl
  · exact hexpr

theorem leads_printArgs (tokens : Nat) (args : List PrintArg) :
    (printArgs value tokens args).Leads I I I := by
  induction tokens generalizing args with
  | zero => exact .pure fun _ hp => hp
  | succ tokens ih =>
    refine .check fun b => ?_
    cases b with
    | true =>
      refine (Leads.advance fun p hp => hI.advance hp.1 ?_).bind fun _ => ?_
      · rw [Token.eq_of_sameKind_symbol hp.2]; rfl
      · exact (leads_printArg hI hv).bind fun _ => ih _
    | false => exact .pure fun _ hp => hp.1

end

/-! ## Statements with words and blocks of their own -/

end Parsing

/-- The properties that a statement goes through. `start` holds before it. Behind its first token
`plain` holds where this is one that stands inside statements, and `inner` where it is a word of the
statement. `behind` holds behind a block of it, where another word may follow; `done` holds where the
statement ends, and `failed` where it fails. -/
structure Stages [Build] (start plain inner behind done failed : Parser → Prop) : Prop where
  plain_flat : Flat plain
  inner_flat : FlatUnbroken inner
  first : ∀ {p}, start p → p.stream.current.value.isInner = true → plain p.advance
  word : ∀ {p k}, start p → p.stream.current.value = .keyword k → inner p.advance
  behind_inner : ∀ {p}, behind p → inner p
  next : ∀ {p k}, behind p → p.stream.current.value = .keyword k → inner p.advance
  nextTwo : ∀ {p k k'}, behind p → p.stream.current.value = .keyword k →
    p.advance.stream.current.value = .keyword k' → inner p.advance.advance
  start_fails : ∀ {p}, start p → failed p
  plain_ends : ∀ {p}, plain p → done p ∧ failed p
  inner_ends : ∀ {p}, inner p → done p ∧ failed p

namespace Stages

open ParseM Parsing

variable [Build] {start plain inner behind done failed : Parser → Prop}
  (h : Stages start plain inner behind done failed) {value : ParseM Expr} (hv : value.Leads inner inner inner)
  {block : ParseM Block} (hb : block.Leads inner behind inner)
include h

/-- The first word of a statement. -/
theorem leads_word (k : Keyword) : (expect (.keyword k)).Leads start inner failed :=
  .expect (fun _ hp hc => h.word hp (Token.eq_of_sameKind_keyword hc)) fun _ hp => h.start_fails hp

omit h in
/-- A step behind the first word, seen from the whole statement. -/
theorem leads_rest (h : Stages start plain inner behind done failed) {α : Type} {m : ParseM α}
    {before after : Parser → Prop} (hm : m.Leads before after inner) : m.Leads before after failed :=
  hm.mono (fun _ hp => hp) (fun _ hp => hp) fun _ hp => (h.inner_ends hp).2

section

include hv

theorem leads_constDecl : (constDecl value).Leads start done failed := by
  refine .place fun _ => (h.leads_word _).bind fun _ => ?_
  have hI := h.inner_flat.toFlat
  refine (h.leads_rest (leads_varDecl hI hv (fun _ => hI.advance) (fun _ hp => hp)
    fun _ hp => hp)).bind fun _ => ?_
  exact .spanFrom fun _ => .pure fun _ hp => (h.inner_ends hp).1

theorem leads_printStmt : (printStmt value).Leads start done failed := by
  have hI := h.inner_flat
  refine .place fun _ => (h.leads_word _).bind fun _ => h.leads_rest ?_
  refine (inner_symbol hI.toFlat rfl).bind fun _ => ?_
  refine (leads_printArg hI hv).bind fun _ => .get fun _ => ?_
  refine (leads_printArgs hI hv _ _).unseen.bind fun _ => ?_
  refine (inner_symbol hI.toFlat rfl).bind fun _ => ?_
  exact .spanFrom fun _ => .pure fun _ hp => (h.inner_ends hp).1

end

include hb

theorem leads_tryStmt : (tryStmt block).Leads start done failed := by
  have hI := h.inner_flat.toFlat
  refine .place fun _ => (h.leads_word _).bind fun _ => h.leads_rest ?_
  refine hb.bind fun _ => ?_
  have hcatch : (expect (.keyword .catch)).Leads behind inner inner :=
    .expect (fun _ hp hc => h.next hp (Token.eq_of_sameKind_keyword hc)) fun _ hp => h.behind_inner hp
  refine hcatch.bind fun _ => ?_
  refine (leads_catchBinding hI).bind fun _ => ?_
  refine hb.bind fun _ => ?_
  exact .spanFrom fun _ => .pure fun _ hp => (h.inner_ends (h.behind_inner hp)).1

include hv

theorem leads_elseChain (tokens : Nat) (branches : List Branch) :
    (elseChain value block tokens branches).Leads behind behind inner := by
  have hI := h.inner_flat.toFlat
  induction tokens generalizing branches with
  | zero => exact .pure fun _ hp => hp
  | succ tokens ih =>
    refine .check fun b => ?_
    cases b with
    | false => exact .pure fun _ hp => hp.1
    | true =>
      -- Behind the word the property of the block before is kept in mind for a second word.
      have hword : ParseM.advance.Leads (fun p => behind p ∧ p.stream.check (.keyword .else) = true)
          (fun p => inner p ∧ (p.stream.check (.keyword .if) = true → inner p.advance)) inner := by
        refine .advance fun p hp => ?_
        have helse := Token.eq_of_sameKind_keyword hp.2
        exact ⟨h.next hp.1 helse, fun hif => h.nextTwo hp.1 helse (Token.eq_of_sameKind_keyword hif)⟩
      refine .place fun _ => hword.bind fun _ => .check fun b => ?_
      cases b with
      | true =>
        refine (Leads.advance fun _ hp => hp.1.2 hp.2).bind fun _ => ?_
        refine (leads_condition hI hv).bind fun _ => ?_
        refine hb.bind fun _ => ?_
        exact .spanFrom fun _ => ih _
      | false => exact (hb.unseen.bind fun _ => .pure fun _ hp => hp).unseen

theorem leads_ifStmt : (ifStmt value block).Leads start done failed := by
  refine .place fun _ => (h.leads_word _).bind fun _ => h.leads_rest ?_
  refine (leads_condition h.inner_flat.toFlat hv).bind fun _ => ?_
  refine hb.bind fun _ => .get fun _ => ?_
  refine (h.leads_elseChain hv hb _ _).unseen.bind fun _ => ?_
  exact .spanFrom fun _ => .pure fun _ hp => (h.inner_ends (h.behind_inner hp)).1

theorem leads_whileStmt : (whileStmt value block).Leads start done failed := by
  refine .place fun _ => (h.leads_word _).bind fun _ => h.leads_rest ?_
  refine (leads_condition h.inner_flat.toFlat hv).bind fun _ => ?_
  refine hb.bind fun _ => ?_
  exact .spanFrom fun _ => .pure fun _ hp => (h.inner_ends (h.behind_inner hp)).1

/-- A statement, given what a block does that is a statement by itself. -/
theorem leads_statementBody (hplain : value.Leads plain plain plain) (hfirst : block.Leads start done failed) :
    (statementBody value block).Leads start done failed := by
  have hread : ∀ p, start p → p.stream.current.value.isInner = true → plain p.advance :=
    fun _ => h.first
  have hfail : ∀ p, plain p → failed p := fun _ hp => (h.plain_ends hp).2
  have hend : ∀ p, plain p → done p := fun _ hp => (h.plain_ends hp).1
  refine .current fun t => Leads.unseen ?_
  split
  · refine .ite ?_ ?_
    · exact (leads_varDecl h.plain_flat hplain hread (fun _ => h.start_fails) hfail).bind fun _ =>
        .pure hend
    · split
      · exact h.leads_constDecl hv
      · exact h.leads_printStmt hv
      · exact h.leads_ifStmt hv hb
      · exact h.leads_whileStmt hv hb
      · exact h.leads_tryStmt hb
      · exact .noViableAlternative fun _ => h.start_fails
  · exact (leads_assignment h.plain_flat hplain hread (fun _ => h.start_fails) hfail).mono
      (fun _ hp => hp) hend fun _ hp => hp
  · exact hfirst.bind fun _ => .pure fun _ hp => hp
  · exact .noViableAlternative fun _ => h.start_fails

end Stages

/-! ## Lists of statements and blocks -/

namespace Parsing

open EvlCheck.Parser ParseM

variable [Build]

/-- The state behind one turn of the loop over statements. -/
def afterTurn (statement : ParseM Stmt) (inBlock : Bool) (p : Parser) : Parser :=
  match statement p with
  | (.ok _, q) => q
  | (.error e, q) => afterFailure inBlock p.position e q

theorem afterTurn_of_ok {statement : ParseM Stmt} {inBlock : Bool} {p q : Parser} {s : Stmt}
    (h : statement p = (.ok s, q)) : afterTurn statement inBlock p = q := by
  unfold afterTurn
  rw [h]

theorem afterTurn_of_error {statement : ParseM Stmt} {inBlock : Bool} {p q : Parser} {e : SyntaxError}
    (h : statement p = (.error e, q)) :
    afterTurn statement inBlock p = afterFailure inBlock p.position e q := by
  unfold afterTurn
  rw [h]

theorem statementsFrom_of_ok {statement : ParseM Stmt} {inBlock : Bool} {tokens : Nat}
    {done : Array Stmt} {p q : Parser} {s : Stmt} (h : listEnds inBlock p.stream = false)
    (hs : statement p = (.ok s, q)) :
    statementsFrom statement inBlock (tokens + 1) done p =
      statementsFrom statement inBlock tokens (done.push s) q := by
  conv_lhs => unfold statementsFrom
  rw [if_neg (by simp [h]), hs]

/-- One turn of the loop, and the others behind it. -/
theorem statementsFrom_succ (statement : ParseM Stmt) {inBlock : Bool} {tokens : Nat}
    {done : Array Stmt} {p : Parser} (h : listEnds inBlock p.stream = false) :
    ∃ done', statementsFrom statement inBlock (tokens + 1) done p =
      statementsFrom statement inBlock tokens done' (afterTurn statement inBlock p) := by
  rcases hs : statement p with ⟨e | s, q⟩
  · refine ⟨done, ?_⟩
    rw [afterTurn_of_error hs]
    conv_lhs => unfold statementsFrom
    rw [if_neg (by simp [h]), hs]
  · refine ⟨done.push s, ?_⟩
    rw [afterTurn_of_ok hs]
    exact statementsFrom_of_ok h hs

/-- Where the list ends, no turn is made. -/
theorem statementsFrom_of_ends {statement : ParseM Stmt} {inBlock : Bool} {tokens : Nat}
    {done : Array Stmt} {p : Parser} (h : listEnds inBlock p.stream = true) :
    statementsFrom statement inBlock tokens done p = (done.toList, p) := by
  cases tokens with
  | zero => rfl
  | succ tokens =>
    unfold statementsFrom
    rw [if_pos h]

/-- What every turn keeps is kept by the whole list. -/
theorem statementsFrom_keeps {K : Parser → Prop} {statement : ParseM Stmt} {inBlock : Bool}
    (hturn : ∀ p, K p → listEnds inBlock p.stream = false → K (afterTurn statement inBlock p))
    (tokens : Nat) (done : Array Stmt) {p : Parser} (hp : K p) :
    K (statementsFrom statement inBlock tokens done p).2 := by
  induction tokens generalizing done p with
  | zero => exact hp
  | succ tokens ih =>
    cases hends : listEnds inBlock p.stream with
    | true =>
      rw [statementsFrom_of_ends hends]
      exact hp
    | false =>
      obtain ⟨done', hnext⟩ := statementsFrom_succ statement hends
      rw [hnext]
      exact ih done' (hturn p hp hends)

/-- What a statement keeps, and the recovery from its failure, is kept by the whole list. -/
theorem statementsFrom_of_leads {K : Parser → Prop} {statement : ParseM Stmt} {inBlock : Bool}
    (hs : statement.Leads K K K)
    (hfail : ∀ p start e, K p → e.span? = some p.stream.current.span →
      K (afterFailure inBlock start e p))
    (tokens : Nat) (done : Array Stmt) {p : Parser} (hp : K p) :
    K (statementsFrom statement inBlock tokens done p).2 := by
  refine statementsFrom_keeps (fun q hq _ => ?_) tokens done hp
  rcases hr : statement q with ⟨e | s, r⟩
  · obtain ⟨hkept, he⟩ := hs.error hq hr
    rw [afterTurn_of_error hr]
    exact hfail r _ e hkept he
  · rw [afterTurn_of_ok hr]
    exact hs.ok hq hr

/-- The state behind a block, from the one behind its last statement. -/
def closeBlock (p : Parser) : Parser :=
  match p.stream.expect (.symbol .rightBrace) with
  | .ok (_, stream) => { p with stream := stream }
  | .error e => p.reportError (.ofStream e)

theorem closeBlock_of_check {p : Parser} (h : p.stream.check (.symbol .rightBrace) = true) :
    closeBlock p = p.advance := by
  unfold TokenStream.check at h
  unfold closeBlock TokenStream.expect
  simp only [h, if_true]
  rfl

/-- A block that is not closed is an error at the token under the cursor. -/
theorem closeBlock_eq_reportError {p : Parser}
    (h : p.stream.check (.symbol .rightBrace) = false) :
    closeBlock p = p.reportError (.unexpected (Token.symbol .rightBrace).expectation
      p.stream.current.value p.stream.current.span) := by
  unfold TokenStream.check at h
  unfold closeBlock TokenStream.expect SyntaxError.unexpected
  by_cases he : p.stream.current.value.isEof = true
  · simp only [h, he, if_true]
    rfl
  · simp only [h, he]
    rfl

theorem closeBlock_of_not_check {p : Parser} (h : p.stream.check (.symbol .rightBrace) = false) :
    ∃ e, closeBlock p = p.reportError e :=
  ⟨_, closeBlock_eq_reportError h⟩

/-- A block is an opening brace, statements, and what closes them. -/
theorem blockBody_eq (statement : ParseM Stmt) :
    blockBody statement = (do
      let start ← place
      let _ ← expect (.symbol .leftBrace)
      let inside ← modifyGet (statements statement true)
      modify closeBlock
      return .mk inside (← spanFrom start)) := by
  unfold blockBody
  congr 1; funext start; congr 1; funext _; congr 1; funext inside
  funext p
  show _ = (Except.ok (Block.mk inside ((closeBlock p).stream.spanFrom start)), closeBlock p)
  rw [get_bind]
  unfold closeBlock
  rcases p.stream.expect (.symbol .rightBrace) with e | ⟨t, s⟩ <;> rfl

/-- A block, given what holds before its statements and behind them. -/
theorem leads_blockBody {start done failed : Parser → Prop} (inside closing : Parser → Prop)
    {statement : ParseM Stmt}
    (hfail : ∀ p, start p → failed p)
    (hopen : ∀ p, start p → p.stream.check (.symbol .leftBrace) = true → inside p.advance)
    (hinside : ∀ p, inside p → closing (statements statement true p).2)
    (hclose : ∀ p, closing p → done (closeBlock p)) :
    (blockBody statement).Leads start done failed := by
  rw [blockBody_eq]
  refine .place fun _ => (Leads.expect hopen hfail).bind fun _ => ?_
  have hstatements : (modifyGet (statements statement true) : ParseM (List Stmt)).Leads inside closing
      failed :=
    ⟨fun hp hm => by cases hm; exact hinside _ hp, fun _ hm => nomatch hm⟩
  refine hstatements.bind fun _ => ?_
  exact (Leads.modify hclose).bind fun _ => .spanFrom fun _ => .pure fun _ hp => hp

end Parsing

/-! ## Properties that last -/

/-- Nothing that happens during a parse destroys the property, but perhaps a move that opens or closes a
rule; an error is one at the token under the cursor. -/
structure FlatLasting [Build] (K : Parser → Prop) : Prop where
  log : ∀ {p} e, K p → K (p.log e)
  advance : ∀ {p}, K p → K p.advance
  reportLoneString : ∀ {p}, K p → K p.reportLoneString
  reportError : ∀ {p} e, K p → e.span? = some p.stream.current.span → K (p.reportError e)
  afterFailure : ∀ {p} inBlock start e, K p → e.span? = some p.stream.current.span →
    K (Parsing.afterFailure inBlock start e p)

/-- Nothing that happens during a parse destroys the property. -/
structure Lasting [Build] (K : Parser → Prop) : Prop extends FlatLasting K where
  record : ∀ {p} s, K p → K (p.record s)

namespace FlatLasting

open ParseM Parsing

variable [Build] {K : Parser → Prop} (h : FlatLasting K)
include h

theorem flatUnbroken : FlatUnbroken K where
  log := h.log
  advance hp _ := h.advance hp
  reportLoneString := h.reportLoneString

theorem stages : Stages K K K K K K where
  plain_flat := h.flatUnbroken.toFlat
  inner_flat := h.flatUnbroken
  first hp _ := h.advance hp
  word hp _ := h.advance hp
  behind_inner := id
  next hp _ := h.advance hp
  nextTwo hp _ _ := h.advance (h.advance hp)
  start_fails := id
  plain_ends hp := ⟨hp, hp⟩
  inner_ends hp := ⟨hp, hp⟩

theorem closeBlock {p : Parser} (hp : K p) : K (Parsing.closeBlock p) := by
  cases hc : p.stream.check (.symbol .rightBrace) with
  | true =>
    rw [closeBlock_of_check hc]
    exact h.advance hp
  | false =>
    rw [closeBlock_eq_reportError hc]
    refine h.reportError _ hp ?_
    unfold SyntaxError.unexpected
    split <;> rfl

theorem statementsFrom {statement : ParseM Stmt} (hs : statement.Leads K K K) (inBlock : Bool)
    (tokens : Nat) (done : Array Stmt) {p : Parser} (hp : K p) :
    K (Parsing.statementsFrom statement inBlock tokens done p).2 :=
  statementsFrom_of_leads hs (fun _ start e => h.afterFailure inBlock start e) tokens done hp

theorem leads_statementBody {value : ParseM Expr} (hv : value.Leads K K K) {block : ParseM Block}
    (hb : block.Leads K K K) : (statementBody value block).Leads K K K :=
  h.stages.leads_statementBody hv hb hv hb

theorem leads_blockBody {statement : ParseM Stmt} (hs : statement.Leads K K K) :
    (blockBody statement).Leads K K K := by
  refine Parsing.leads_blockBody K K (fun _ hp => hp) ?_ ?_ ?_
  · exact fun _ hp _ => h.advance hp
  · exact fun _ hp => h.statementsFrom hs true _ _ hp
  · exact fun _ hp => h.closeBlock hp

end FlatLasting

namespace Lasting

open ParseM Parsing

variable [Build] {K : Parser → Prop} (h : Lasting K)
include h

theorem unbroken : Unbroken K where
  log := h.log
  record := h.record
  advance hp _ := h.advance hp
  reportLoneString := h.reportLoneString

/-- Statements and blocks keep what lasts, and fail at the token under the cursor. -/
theorem leads_statement_block (n : Nat) :
    (statement n).Leads K K K ∧ (block n).Leads K K K := by
  induction n with
  | zero =>
    constructor
    · unfold statement
      exact leads_tooDeep h.unbroken.toFlat _
    · unfold block
      exact leads_tooDeep h.unbroken.toFlat _
  | succ n ih =>
    constructor
    · unfold statement
      exact leads_withRule h.unbroken.toWordless
        (h.toFlatLasting.leads_statementBody (inner_expression n h.unbroken.toWordless) ih.2)
    · unfold block
      exact leads_withRule h.unbroken.toWordless (h.toFlatLasting.leads_blockBody ih.1)

theorem program {p : Parser} (hp : K p) : K (Parsing.program p).2 :=
  h.toFlatLasting.statementsFrom (h.leads_statement_block Limit.parseDepth).1 false _ _ hp

/-- What lasts through a parse holds at its end. -/
theorem parseProgram {p : Parser} (hp : K p) : K p.parseProgram.2 :=
  h.unbroken.closeProgram (h.unbroken.log _ (h.program (h.unbroken.log _ (h.unbroken.openProgram hp))))

end Lasting

end EvlCheck
