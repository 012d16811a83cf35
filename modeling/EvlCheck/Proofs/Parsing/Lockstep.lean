/-
Two parses in lockstep. The states of the two are related, and what they see is the same save for the
places of tokens, which are the same only as far as a function on spans shows (`Lockstep`). Then the
rules do the same in both: they succeed or fail together, with nodes or errors that are the same once
their spans are shown by the function, and the states behind them are related again (`Alike`).

A relation is good for this if it is kept by the few things that a parse does to its state; so the
grammar is gone through once, here, for all relations.
-/
import EvlCheck.Parsing.Parse
import EvlCheck.Proofs.Parsing.Rules
import EvlCheck.Proofs.Tree.MapSpan

namespace EvlCheck

/-- Two parses in related states see the same, their spans as far as `view` shows, and are in related
states again whatever both do. -/
structure Lockstep [Build] (view : Span → Span) (S : Parser → Parser → Prop) : Prop where
  value : ∀ {p q}, S p q → p.stream.current.value = q.stream.current.value
  span : ∀ {p q}, S p q → view p.stream.current.span = view q.stream.current.span
  next : ∀ {p q}, S p q → (p.stream.peek 1).value = (q.stream.peek 1).value
  position : ∀ {p q}, S p q → p.position = q.position
  size : ∀ {p q}, S p q → p.stream.size = q.stream.size
  spanFrom : ∀ {p q} first, S p q → view (p.stream.spanFrom first) = view (q.stream.spanFrom first)
  log : ∀ {p q} e e', S p q → S (p.log e) (q.log e')
  record : ∀ {p q} s s', S p q → S (p.record s) (q.record s')
  advance : ∀ {p q}, S p q → S p.advance q.advance
  reportLoneString : ∀ {p q}, S p q → S p.reportLoneString q.reportLoneString
  reportError : ∀ {p q e e'}, S p q → e.mapSpan view = e'.mapSpan view →
    S (p.reportError e) (q.reportError e')
  recover : ∀ {p q} inBlock, S p q → S (p.recover inBlock) (q.recover inBlock)

namespace ParseM

/-- What is seen of the result of a step, if nodes are seen through a function. -/
def shown {α γ : Type} (view : Span → Span) (node : α → γ) :
    Except SyntaxError α → Except SyntaxError γ
  | .ok a => .ok (node a)
  | .error e => .error (e.mapSpan view)

/-- From related states two steps lead to related states, with the same to be seen of their
results. -/
def Alike [Build] {α γ : Type} (view : Span → Span) (S : Parser → Parser → Prop) (node : α → γ)
    (m m' : ParseM α) : Prop :=
  ∀ ⦃p q⦄, S p q → shown view node (m p).1 = shown view node (m' q).1 ∧ S (m p).2 (m' q).2

/-- What is seen is an error or a node on both sides. -/
theorem shown_cases {α γ : Type} {view : Span → Span} {node : α → γ} {r r' : Except SyntaxError α}
    (h : shown view node r = shown view node r') :
    (∃ e e', r = .error e ∧ r' = .error e' ∧ e.mapSpan view = e'.mapSpan view) ∨
      ∃ a b, r = .ok a ∧ r' = .ok b ∧ node a = node b := by
  rcases r with e | a
  · rcases r' with e' | b
    · have he : e.mapSpan view = e'.mapSpan view := Except.error.inj h
      exact .inl ⟨e, e', rfl, rfl, he⟩
    · cases h
  · rcases r' with e' | b
    · cases h
    · have hab : node a = node b := Except.ok.inj h
      exact .inr ⟨a, b, rfl, rfl, hab⟩

namespace Alike

variable [Build] {view : Span → Span} {S : Parser → Parser → Prop} {α β γ δ : Type} {node : α → γ}
  {node' : β → δ}

theorem bind {m m' : ParseM α} {f f' : α → ParseM β} (hm : Alike view S node m m')
    (hf : ∀ a b, node a = node b → Alike view S node' (f a) (f' b)) :
    Alike view S node' (m >>= f) (m' >>= f') := by
  intro p q hpq
  obtain ⟨hresult, hstate⟩ := hm hpq
  rcases hr : m p with ⟨r, p'⟩
  rcases hr' : m' q with ⟨r', q'⟩
  rw [hr, hr'] at hresult hstate
  rcases shown_cases hresult with ⟨e, e', rfl, rfl, he⟩ | ⟨a, b, rfl, rfl, hab⟩
  · rw [bind_of_error hr, bind_of_error hr']
    exact ⟨congrArg Except.error he, hstate⟩
  · rw [bind_of_ok hr, bind_of_ok hr']
    exact hf a b hab hstate

theorem pure {a b : α} (h : node a = node b) :
    Alike view S node (pure a : ParseM α) (pure b) :=
  fun _ _ hpq => ⟨congrArg Except.ok h, hpq⟩

theorem ite {c : Prop} [Decidable c] {m m' n n' : ParseM α} (hm : Alike view S node m m')
    (hn : Alike view S node n n') :
    Alike view S node (if c then m else n) (if c then m' else n') := by
  split
  · exact hm
  · exact hn

/-- Steps that look at the whole state first are alike if they are from related states. -/
theorem get {f f' : Parser → ParseM β}
    (hf : ∀ p q, S p q → Alike view S node' (f p) (f' q)) :
    Alike view S node' ((get : ParseM Parser) >>= f) ((get : ParseM Parser) >>= f') :=
  fun p q hpq => hf p q hpq hpq

end Alike

end ParseM

/-! ## Branches -/

namespace Parsing

/-- A branch with its spans changed. -/
def Branch.mapSpan (view : Span → Span) (b : Branch) : Branch :=
  (b.1.mapSpan view, b.2.1.mapSpan view, view b.2.2)

theorem mapSpan_chainOf (view : Span → Span) (branches : List Branch) (last : ElseChain) :
    (chainOf branches last).mapSpan view =
      chainOf (branches.map (Branch.mapSpan view)) (last.mapSpan view) := by
  induction branches generalizing last with
  | nil => rfl
  | cons b branches ih => exact ih _

end Parsing

namespace Lockstep

open ParseM Parsing

variable [Build] {view : Span → Span} {S : Parser → Parser → Prop} (h : Lockstep view S)
  {α β γ δ : Type} {node : α → γ} {node' : β → δ}
include h

/-! ## Single steps -/

theorem check_eq {p q : Parser} (hpq : S p q) (t : Token) :
    p.stream.check t = q.stream.check t :=
  congrArg (Token.sameKind · t) (h.value hpq)

theorem atEnd_eq {p q : Parser} (hpq : S p q) : p.stream.atEnd = q.stream.atEnd :=
  congrArg Token.isEof (h.value hpq)

theorem current {f f' : StreamToken → ParseM β}
    (hf : ∀ t u : StreamToken, t.value = u.value → view t.span = view u.span →
      Alike view S node' (f t) (f' u)) :
    Alike view S node' (ParseM.current >>= f) (ParseM.current >>= f') :=
  fun _ _ hpq => hf _ _ (h.value hpq) (h.span hpq) hpq

theorem check {t : Token} {f f' : Bool → ParseM β} (hf : ∀ b, Alike view S node' (f b) (f' b)) :
    Alike view S node' (ParseM.check t >>= f) (ParseM.check t >>= f') := by
  intro p q hpq
  rw [check_bind, check_bind, h.check_eq hpq]
  exact hf _ hpq

theorem place {f f' : Nat → ParseM β} (hf : ∀ n, Alike view S node' (f n) (f' n)) :
    Alike view S node' (ParseM.place >>= f) (ParseM.place >>= f') := by
  intro p q hpq
  rw [place_bind, place_bind, h.position hpq]
  exact hf _ hpq

theorem ends {first : Nat} {make make' : Span → β}
    (hmake : ∀ s s', view s = view s' → node' (make s) = node' (make' s')) :
    Alike view S node' (do return make (← ParseM.spanFrom first))
      (do return make' (← ParseM.spanFrom first)) :=
  fun _ _ hpq => ⟨congrArg Except.ok (hmake _ _ (h.spanFrom first hpq)), hpq⟩

theorem step : Alike view S (fun t => (t.value, view t.span)) ParseM.advance ParseM.advance :=
  fun _ _ hpq => ⟨congrArg Except.ok (Prod.ext (h.value hpq) (h.span hpq)), h.advance hpq⟩

theorem expect (t : Token) : Alike view S (·.value) (ParseM.expect t) (ParseM.expect t) := by
  intro p q hpq
  rw [expect_apply, expect_apply, h.check_eq hpq]
  split
  · exact ⟨congrArg Except.ok (h.value hpq), h.advance hpq⟩
  · rw [h.value hpq]
    refine ⟨?_, hpq⟩
    split
    · exact congrArg (fun s => Except.error (SyntaxError.unexpectedEnd t.expectation s)) (h.span hpq)
    · exact congrArg (fun s => Except.error (SyntaxError.unexpectedToken t.expectation _ s))
        (h.span hpq)

theorem expectName : Alike view S id ParseM.expectName ParseM.expectName :=
  (h.expect _).bind fun _ _ hv => .pure (congrArg (fun v => v.identifier?.getD "") hv)

theorem unexpected (expected : String) :
    Alike view S node (ParseM.unexpected expected) (ParseM.unexpected expected) := by
  refine h.current fun t u hvalue hspan p q hpq => ⟨?_, hpq⟩
  show Except.error (SyntaxError.mapSpan view _) = Except.error (SyntaxError.mapSpan view _)
  rw [SyntaxError.mapSpan_unexpected, SyntaxError.mapSpan_unexpected, hvalue, hspan]

theorem noViableAlternative :
    Alike view S node ParseM.noViableAlternative ParseM.noViableAlternative := by
  refine h.current fun t u hvalue hspan p q hpq => ⟨?_, hpq⟩
  show Except.error (SyntaxError.noViableAlternative _ _) = .error (.noViableAlternative _ _)
  rw [hvalue, hspan]

theorem withRule (r : Rule) {m m' : ParseM α} (hm : Alike view S node m m') :
    Alike view S node (ParseM.withRule r m) (ParseM.withRule r m') := by
  intro p q hpq
  obtain ⟨hresult, hstate⟩ := hm (h.record (p.rules.enter r) (q.rules.enter r) hpq)
  exact ⟨hresult, h.record _ _ hstate⟩

theorem tooDeep (r : Rule) : Alike view S node (ParseM.tooDeep r) (ParseM.tooDeep r) := by
  intro p q hpq
  refine ⟨?_, h.log _ _ hpq⟩
  exact congrArg (fun s => Except.error (SyntaxError.nestingTooDeep Limit.parseDepth s)) (h.span hpq)

theorem valueType : Alike view S id valueType valueType := by
  refine h.current fun t u hvalue _ => ?_
  rw [hvalue]
  split
  · exact h.step.bind fun _ _ _ => .pure rfl
  · exact h.unexpected _

/-! ## Expressions -/

theorem leaf {make : Span → Expr}
    (hmake : ∀ s s', view s = view s' → (make s).mapSpan view = (make s').mapSpan view) :
    Alike view S (Expr.mapSpan view) (leaf make) (leaf make) :=
  h.step.bind fun _ _ ht => .pure (hmake _ _ (Prod.mk.inj ht).2)

section

variable {inner : ParseM Expr} (hi : Alike view S (Expr.mapSpan view) inner inner)
include hi

theorem parenthesized : Alike view S (Expr.mapSpan view) (parenthesized inner)
    (parenthesized inner) := by
  refine h.place fun start => h.step.bind fun _ _ _ => hi.bind fun e e' he => ?_
  refine (h.expect _).bind fun _ _ _ => h.ends fun s s' hs => ?_
  simp only [Expr.mapSpan, he, hs]

theorem castCall : Alike view S (Expr.mapSpan view) (castCall inner) (castCall inner) := by
  refine h.place fun start => (h.expect _).bind fun _ _ _ => (h.expect _).bind fun _ _ _ => ?_
  refine hi.bind fun e e' he => (h.expect _).bind fun _ _ _ => ?_
  refine h.valueType.bind fun t t' ht => (h.expect _).bind fun _ _ _ => h.ends fun s s' hs => ?_
  cases ht
  simp only [Expr.mapSpan, he, hs]

theorem unaryCall (f : UnaryFunction) :
    Alike view S (Expr.mapSpan view) (unaryCall inner f) (unaryCall inner f) := by
  refine h.place fun start => (h.expect _).bind fun _ _ _ => (h.expect _).bind fun _ _ _ => ?_
  refine hi.bind fun e e' he => (h.expect _).bind fun _ _ _ => h.ends fun s s' hs => ?_
  simp only [Expr.mapSpan, he, hs]

theorem binaryCall (f : BinaryFunction) :
    Alike view S (Expr.mapSpan view) (binaryCall inner f) (binaryCall inner f) := by
  refine h.place fun start => (h.expect _).bind fun _ _ _ => (h.expect _).bind fun _ _ _ => ?_
  refine hi.bind fun a a' ha => (h.expect _).bind fun _ _ _ => hi.bind fun b b' hb => ?_
  refine (h.expect _).bind fun _ _ _ => h.ends fun s s' hs => ?_
  simp only [Expr.mapSpan, ha, hb, hs]

theorem keywordExpression (k : Keyword) :
    Alike view S (Expr.mapSpan view) (keywordExpression inner k) (keywordExpression inner k) := by
  have hleaf : ∀ {make : Span → Expr},
      (∀ s s', view s = view s' → (make s).mapSpan view = (make s').mapSpan view) →
      Alike view S (Expr.mapSpan view) (Parsing.leaf make) (Parsing.leaf make) := h.leaf
  unfold Parsing.keywordExpression
  refine .ite (h.castCall hi) (.ite (hleaf fun s s' hs => ?_) (.ite (hleaf fun s s' hs => ?_) ?_))
  · simp only [Expr.mapSpan, hs]
  · simp only [Expr.mapSpan, hs]
  · split
    · exact h.binaryCall hi _
    · exact h.unaryCall hi _
    · exact hleaf fun s s' hs => by simp only [Expr.mapSpan, hs]
    · exact h.noViableAlternative

theorem primary : Alike view S (Expr.mapSpan view) (primary inner) (primary inner) := by
  refine h.current fun t u hvalue _ => ?_
  rw [hvalue]
  split
  · exact h.parenthesized hi
  · exact h.keywordExpression hi _
  · exact h.leaf fun s s' hs => by simp only [Expr.mapSpan, hs]
  · exact h.leaf fun s s' hs => by simp only [Expr.mapSpan, hs]
  · exact h.leaf fun s s' hs => by simp only [Expr.mapSpan, hs]
  · exact h.leaf fun s s' hs => by simp only [Expr.mapSpan, hs]
  · exact h.noViableAlternative

theorem negation : Alike view S (Expr.mapSpan view) (negation inner) (negation inner) := by
  refine h.place fun start => h.step.bind fun _ _ _ => hi.bind fun e e' he => ?_
  refine h.ends fun s s' hs => ?_
  simp only [Expr.mapSpan, he, hs]

end

section

variable {right : Nat → ParseM Expr}
  (hr : ∀ least, Alike view S (Expr.mapSpan view) (right least) (right least))
include hr

theorem climb (least start tokens : Nat) {left left' : Expr}
    (hleft : left.mapSpan view = left'.mapSpan view) :
    Alike view S (Expr.mapSpan view) (climb right least start tokens left)
      (climb right least start tokens left') := by
  induction tokens generalizing left left' with
  | zero => exact .pure hleft
  | succ tokens ih =>
    refine h.current fun t u hvalue hspan => ?_
    rw [hvalue]
    split
    · exact .pure hleft
    · next op _ =>
      refine .ite (.pure hleft) (h.step.bind fun _ _ _ => (hr _).bind fun b b' hb => ?_)
      intro p q hpq
      refine ih ?_ hpq
      simp only [Expr.mapSpan, hspan, hleft, hb, h.spanFrom start hpq]

theorem operation {operand : ParseM Expr}
    (ho : Alike view S (Expr.mapSpan view) operand operand) (least : Nat) :
    Alike view S (Expr.mapSpan view) (operation operand right least)
      (operation operand right least) := by
  refine h.withRule _ (h.place fun start => ho.bind fun left left' hleft => ?_)
  refine .get fun p q hpq => ?_
  rw [h.size hpq]
  exact h.climb hr least start _ hleft

end

theorem signed {m n : ParseM Expr} (hm : Alike view S (Expr.mapSpan view) m m)
    (hn : Alike view S (Expr.mapSpan view) n n) :
    Alike view S (Expr.mapSpan view) (signed m n) (signed m n) :=
  h.check fun _ => .ite hm hn

theorem expressionFrom_operand (n : Nat) :
    (∀ least, Alike view S (Expr.mapSpan view) (expressionFrom n least) (expressionFrom n least)) ∧
      Alike view S (Expr.mapSpan view) (operand n) (operand n) := by
  induction n with
  | zero =>
    constructor
    · intro least
      unfold expressionFrom
      exact h.tooDeep _
    · unfold operand
      exact h.signed (h.tooDeep _) (h.primary (h.tooDeep _))
  | succ n ih =>
    constructor
    · intro least
      unfold expressionFrom
      exact h.operation ih.1 ih.2 least
    · unfold operand
      exact h.signed (h.withRule _ (h.negation ih.2)) (h.primary (h.operation ih.1 ih.2 0))

theorem expression (n : Nat) : Alike view S (Expr.mapSpan view) (expression n) (expression n) :=
  (h.expressionFrom_operand n).1 0

/-! ## Statements -/

section

variable {value : ParseM Expr} (hv : Alike view S (Expr.mapSpan view) value value)
include hv

theorem varDecl : Alike view S (VarDecl.mapSpan view) (varDecl value) (varDecl value) := by
  refine h.place fun start => h.valueType.bind fun type type' htype => ?_
  refine h.expectName.bind fun name name' hname => (h.expect _).bind fun _ _ _ => ?_
  refine hv.bind fun e e' he => h.ends fun s s' hs => ?_
  cases htype
  cases hname
  simp only [VarDecl.mapSpan, he, hs]

theorem constDecl : Alike view S (Stmt.mapSpan view) (constDecl value) (constDecl value) := by
  refine h.place fun start => (h.expect _).bind fun _ _ _ => ?_
  refine (h.varDecl hv).bind fun d d' hd => h.ends fun s s' hs => ?_
  simp only [Stmt.mapSpan, hd, hs]

theorem assignment : Alike view S (Stmt.mapSpan view) (assignment value) (assignment value) := by
  refine h.place fun start => h.expectName.bind fun target target' htarget => ?_
  cases htarget
  refine h.current fun t u hvalue _ => ?_
  rw [hvalue]
  split
  · exact h.unexpected _
  · refine h.step.bind fun _ _ _ => hv.bind fun e e' he => h.ends fun s s' hs => ?_
    simp only [Stmt.mapSpan, he, hs]

theorem printArg : Alike view S (PrintArg.mapSpan view) (printArg value) (printArg value) := by
  have hexpr : Alike view S (PrintArg.mapSpan view) (do return PrintArg.expr (← value))
      (do return PrintArg.expr (← value)) :=
    hv.bind fun e e' he => .pure (congrArg PrintArg.expr he)
  refine .get fun p q hpq => ?_
  dsimp only
  rw [Parser.tokenAhead_one, Parser.tokenAhead_one, h.value hpq, h.next hpq]
  split
  · next text _ =>
    have hlone : Alike view S (PrintArg.mapSpan view)
        (do
          modify Parser.reportLoneString
          let token ← ParseM.advance
          return PrintArg.string text token.span)
        (do
          modify Parser.reportLoneString
          let token ← ParseM.advance
          return PrintArg.string text token.span) := by
      intro p q hpq
      rw [modify_bind, modify_bind]
      refine (h.step.bind fun t u ht => .pure ?_) (h.reportLoneString hpq)
      exact congrArg (PrintArg.string text) (Prod.mk.inj ht).2
    exact .ite hlone hexpr
  · exact hexpr

theorem printArgs (tokens : Nat) {args args' : List PrintArg}
    (hargs : args.map (PrintArg.mapSpan view) = args'.map (PrintArg.mapSpan view)) :
    Alike view S (List.map (PrintArg.mapSpan view)) (printArgs value tokens args)
      (printArgs value tokens args') := by
  have hdone : args.reverse.map (PrintArg.mapSpan view) =
      args'.reverse.map (PrintArg.mapSpan view) := by
    rw [List.map_reverse, List.map_reverse, hargs]
  induction tokens generalizing args args' with
  | zero => exact .pure hdone
  | succ tokens ih =>
    refine h.check fun b => .ite ?_ (.pure hdone)
    refine h.step.bind fun _ _ _ => (h.printArg hv).bind fun arg arg' harg => ?_
    refine ih ?_ ?_
    · rw [List.map_cons, List.map_cons, harg, hargs]
    · rw [List.reverse_cons, List.reverse_cons, List.map_append, List.map_append, hdone,
        List.map_singleton, List.map_singleton, harg]

theorem printStmt : Alike view S (Stmt.mapSpan view) (printStmt value) (printStmt value) := by
  refine h.place fun start => (h.expect _).bind fun _ _ _ => (h.expect _).bind fun _ _ _ => ?_
  refine (h.printArg hv).bind fun first first' hfirst => .get fun p q hpq => ?_
  rw [h.size hpq]
  refine (h.printArgs hv _ (by rw [List.map_singleton, hfirst, List.map_singleton])).bind fun args args' hargs => ?_
  refine (h.expect _).bind fun _ _ _ => h.ends fun s s' hs => ?_
  simp only [Stmt.mapSpan, hargs, hs]

theorem condition : Alike view S (Expr.mapSpan view) (condition value) (condition value) := by
  refine (h.expect _).bind fun _ _ _ => hv.bind fun e e' he => ?_
  exact (h.expect _).bind fun _ _ _ => .pure he

end

theorem catchBinding : Alike view S id catchBinding catchBinding := by
  refine h.check fun b => .ite ?_ (.pure rfl)
  refine h.step.bind fun _ _ _ => h.expectName.bind fun name name' hname => ?_
  exact (h.expect _).bind fun _ _ _ => .pure (congrArg some hname)

section

variable {value : ParseM Expr} (hv : Alike view S (Expr.mapSpan view) value value)
  {block : ParseM Block} (hb : Alike view S (Block.mapSpan view) block block)
include hb

theorem tryStmt : Alike view S (Stmt.mapSpan view) (tryStmt block) (tryStmt block) := by
  refine h.place fun start => (h.expect _).bind fun _ _ _ => hb.bind fun body body' hbody => ?_
  refine (h.expect _).bind fun _ _ _ => h.catchBinding.bind fun binding binding' hbinding => ?_
  refine hb.bind fun handler handler' hhandler => h.ends fun s s' hs => ?_
  cases hbinding
  simp only [Stmt.mapSpan, hbody, hhandler, hs]

include hv

theorem elseChain (tokens : Nat) {branches branches' : List Branch}
    (hbranches : branches.map (Branch.mapSpan view) = branches'.map (Branch.mapSpan view)) :
    Alike view S (ElseChain.mapSpan view) (elseChain value block tokens branches)
      (elseChain value block tokens branches') := by
  have hchain : ∀ {last last' : ElseChain}, last.mapSpan view = last'.mapSpan view →
      (chainOf branches last).mapSpan view = (chainOf branches' last').mapSpan view := by
    intro last last' hlast
    rw [mapSpan_chainOf, mapSpan_chainOf, hbranches, hlast]
  induction tokens generalizing branches branches' with
  | zero => exact .pure (hchain rfl)
  | succ tokens ih =>
    refine h.check fun b => .ite ?_ (.pure (hchain rfl))
    refine h.place fun start => h.step.bind fun _ _ _ => h.check fun b => .ite ?_ ?_
    · refine h.step.bind fun _ _ _ => (h.condition hv).bind fun c c' hc => ?_
      refine hb.bind fun body body' hbody p q hpq => ?_
      have hmore : ((c, body, p.stream.spanFrom start) :: branches).map (Branch.mapSpan view) =
          ((c', body', q.stream.spanFrom start) :: branches').map (Branch.mapSpan view) := by
        simp only [List.map_cons, hbranches, Branch.mapSpan, hc, hbody, h.spanFrom start hpq]
      refine ih hmore ?_ hpq
      intro last last' hlast
      rw [mapSpan_chainOf, mapSpan_chainOf, hmore, hlast]
    · refine hb.bind fun body body' hbody => .pure (hchain ?_)
      simp only [ElseChain.mapSpan, hbody]

theorem ifStmt : Alike view S (Stmt.mapSpan view) (ifStmt value block) (ifStmt value block) := by
  refine h.place fun start => (h.expect _).bind fun _ _ _ => (h.condition hv).bind fun c c' hc => ?_
  refine hb.bind fun body body' hbody => .get fun p q hpq => ?_
  rw [h.size hpq]
  refine (h.elseChain hv hb _ rfl).bind fun others others' hothers => h.ends fun s s' hs => ?_
  simp only [Stmt.mapSpan, hc, hbody, hothers, hs]

theorem whileStmt :
    Alike view S (Stmt.mapSpan view) (whileStmt value block) (whileStmt value block) := by
  refine h.place fun start => (h.expect _).bind fun _ _ _ => (h.condition hv).bind fun c c' hc => ?_
  refine hb.bind fun body body' hbody => h.ends fun s s' hs => ?_
  simp only [Stmt.mapSpan, hc, hbody, hs]

theorem statementBody :
    Alike view S (Stmt.mapSpan view) (statementBody value block) (statementBody value block) := by
  refine h.current fun t u hvalue _ => ?_
  rw [hvalue]
  split
  · refine .ite ((h.varDecl hv).bind fun d d' hd => .pure (congrArg Stmt.varDecl hd)) ?_
    split
    · exact h.constDecl hv
    · exact h.printStmt hv
    · exact h.ifStmt hv hb
    · exact h.whileStmt hv hb
    · exact h.tryStmt hb
    · exact h.noViableAlternative
  · exact h.assignment hv
  · exact hb.bind fun b b' hblock => .pure (congrArg Stmt.block hblock)
  · exact h.noViableAlternative

end

/-! ## Lists of statements and blocks -/

theorem afterFailure (inBlock : Bool) (start : Nat) {p q : Parser} {e e' : SyntaxError}
    (hpq : S p q) (he : e.mapSpan view = e'.mapSpan view) :
    S (afterFailure inBlock start e p) (afterFailure inBlock start e' q) := by
  have hrecover := h.recover inBlock (h.reportError hpq he)
  unfold Parsing.afterFailure
  dsimp only
  rw [h.position hrecover]
  split
  · exact h.advance hrecover
  · exact hrecover

theorem listEnds_eq (inBlock : Bool) {p q : Parser} (hpq : S p q) :
    listEnds inBlock p.stream = listEnds inBlock q.stream := by
  unfold listEnds
  rw [h.atEnd_eq hpq, h.check_eq hpq]

section

variable {statement : ParseM Stmt} (hs : Alike view S (Stmt.mapSpan view) statement statement)
include hs

theorem statementsFrom (inBlock : Bool) (tokens : Nat) {done done' : Array Stmt}
    (hdone : done.toList.map (Stmt.mapSpan view) = done'.toList.map (Stmt.mapSpan view))
    {p q : Parser} (hpq : S p q) :
    (statementsFrom statement inBlock tokens done p).1.map (Stmt.mapSpan view) =
        (statementsFrom statement inBlock tokens done' q).1.map (Stmt.mapSpan view) ∧
      S (statementsFrom statement inBlock tokens done p).2
        (statementsFrom statement inBlock tokens done' q).2 := by
  induction tokens generalizing done done' p q with
  | zero => exact ⟨hdone, hpq⟩
  | succ tokens ih =>
    have hends := h.listEnds_eq inBlock hpq
    cases hend : listEnds inBlock q.stream with
    | true =>
      rw [statementsFrom_of_ends (hends.trans hend), statementsFrom_of_ends hend]
      exact ⟨hdone, hpq⟩
    | false =>
      obtain ⟨hresult, hstate⟩ := hs hpq
      unfold Parsing.statementsFrom
      rw [hends, hend]
      rcases hr : statement p with ⟨r, p'⟩
      rcases hr' : statement q with ⟨r', q'⟩
      rw [hr, hr'] at hresult hstate
      rcases shown_cases hresult with ⟨e, e', rfl, rfl, he⟩ | ⟨s, s', rfl, rfl, hss⟩
      · rw [h.position hpq]
        exact ih hdone (h.afterFailure inBlock _ hstate he)
      · refine ih ?_ hstate
        rw [Array.toList_push, Array.toList_push, List.map_append, List.map_append, hdone,
          List.map_singleton, List.map_singleton, hss]

theorem statements (inBlock : Bool) {p q : Parser} (hpq : S p q) :
    (statements statement inBlock p).1.map (Stmt.mapSpan view) =
        (statements statement inBlock q).1.map (Stmt.mapSpan view) ∧
      S (statements statement inBlock p).2 (statements statement inBlock q).2 := by
  unfold Parsing.statements
  rw [h.size hpq]
  exact h.statementsFrom hs inBlock _ rfl hpq

end

theorem closeBlock {p q : Parser} (hpq : S p q) : S (closeBlock p) (closeBlock q) := by
  have hcheck := h.check_eq hpq (.symbol .rightBrace)
  cases hc : q.stream.check (.symbol .rightBrace) with
  | true =>
    rw [closeBlock_of_check (hcheck.trans hc), closeBlock_of_check hc]
    exact h.advance hpq
  | false =>
    rw [closeBlock_eq_reportError (hcheck.trans hc), closeBlock_eq_reportError hc, h.value hpq]
    refine h.reportError hpq ?_
    rw [SyntaxError.mapSpan_unexpected, SyntaxError.mapSpan_unexpected, h.span hpq]

theorem blockBody {statement : ParseM Stmt}
    (hs : Alike view S (Stmt.mapSpan view) statement statement) :
    Alike view S (Block.mapSpan view) (blockBody statement) (blockBody statement) := by
  rw [blockBody_eq]
  refine h.place fun start => (h.expect _).bind fun _ _ _ => ?_
  have hstatements : Alike view S (List.map (Stmt.mapSpan view))
      (modifyGet (Parsing.statements statement true)) (modifyGet (Parsing.statements statement true)) := by
    intro p q hpq
    obtain ⟨hinside, hstate⟩ := h.statements hs true hpq
    exact ⟨congrArg Except.ok hinside, hstate⟩
  refine hstatements.bind fun inside inside' hinside p q hpq => ?_
  rw [modify_bind, modify_bind]
  refine h.ends (fun s s' hs => ?_) (h.closeBlock hpq)
  simp only [Block.mapSpan, Stmt.mapSpans_eq, hinside, hs]

/-! ## The rules -/

theorem statement_block (n : Nat) :
    Alike view S (Stmt.mapSpan view) (statement n) (statement n) ∧
      Alike view S (Block.mapSpan view) (block n) (block n) := by
  induction n with
  | zero =>
    constructor
    · unfold statement
      exact h.tooDeep _
    · unfold block
      exact h.tooDeep _
  | succ n ih =>
    constructor
    · unfold statement
      exact h.withRule _ (h.statementBody (h.expression n) ih.2)
    · unfold block
      exact h.withRule _ (h.blockBody ih.1)

/-- Two parses from related states give the same program, as far as its spans are shown, and end in
related states. -/
theorem parseProgram {p q : Parser} (hpq : S p q) :
    p.parseProgram.1.mapSpan view = q.parseProgram.1.mapSpan view ∧
      S p.parseProgram.2 q.parseProgram.2 := by
  have hprogram : ∀ {p q : Parser}, S p q →
      (Parsing.program p).1.mapSpan view = (Parsing.program q).1.mapSpan view ∧
        S (Parsing.program p).2 (Parsing.program q).2 := by
    intro p q hpq
    obtain ⟨hinside, hstate⟩ := h.statements (h.statement_block Limit.parseDepth).1 false hpq
    have hspan := h.spanFrom q.position hstate
    unfold Parsing.program
    rw [h.position hpq]
    refine ⟨?_, hstate⟩
    dsimp only [Program.mapSpan]
    rw [Stmt.mapSpans_eq, Stmt.mapSpans_eq, hinside, hspan]
  have hstart := fun e e' => h.log e e' (h.record (p.rules.push .program) (q.rules.push .program) hpq)
  exact ⟨(hprogram (hstart _ _)).1, h.record _ _ (h.log _ _ (hprogram (hstart _ _)).2)⟩

end Lockstep

end EvlCheck
