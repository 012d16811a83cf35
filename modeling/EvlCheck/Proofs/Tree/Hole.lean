/-
Expressions with a hole. What stands in the hole can be exchanged for what fits anywhere, such as a call:
the terminals change there and nowhere else, and the expression stays one of the grammar. The word for a
type marks the target of a cast, the word `cast` the cast, and the word of a function of two arguments its
call (`Expr.exists_hole`), so these are found by their tokens, also in the expressions of a statement
(`Stmt.exists_retyped`, `Stmt.exists_cast`, `Stmt.exists_call`).
-/
import EvlCheck.Proofs.Tree.Slot

namespace EvlCheck

/-- An expression with a hole. -/
inductive Hole where
  | here
  | unaryMinus (inner : Hole) (span : Span)
  | paren (inner : Hole) (span : Span)
  | cast (inner : Hole) (target : ValueType) (span : Span)
  | unaryCall (f : UnaryFunction) (inner : Hole) (span : Span)
  | firstArg (f : BinaryFunction) (inner : Hole) (second : Expr) (span : Span)
  | secondArg (f : BinaryFunction) (first : Expr) (inner : Hole) (span : Span)
  | left (op : BinaryOp) (opSpan : Span) (inner : Hole) (right : Expr) (span : Span)
  | right (op : BinaryOp) (opSpan : Span) (left : Expr) (inner : Hole) (span : Span)

/-- The expression fits wherever an operand does. -/
def Expr.Fits (e : Expr) : Prop := ∀ least, e.FitsAt least

namespace Hole

def fill : Hole → Expr → Expr
  | here, e => e
  | unaryMinus inner s, e => .unaryMinus (inner.fill e) s
  | paren inner s, e => .paren (inner.fill e) s
  | cast inner t s, e => .cast (inner.fill e) t s
  | unaryCall f inner s, e => .unaryCall f (inner.fill e) s
  | firstArg f inner b s, e => .binaryCall f (inner.fill e) b s
  | secondArg f a inner s, e => .binaryCall f a (inner.fill e) s
  | left op o inner b s, e => .binary op o (inner.fill e) b s
  | right op o a inner s, e => .binary op o a (inner.fill e) s

/-- The terminals in front of the hole. -/
def front : Hole → List Token
  | here => []
  | unaryMinus inner _ => .symbol .minus :: inner.front
  | paren inner _ => .symbol .leftParen :: inner.front
  | cast inner _ _ => .keyword .cast :: .symbol .leftParen :: inner.front
  | unaryCall f inner _ => .keyword f.keyword :: .symbol .leftParen :: inner.front
  | firstArg f inner _ _ => .keyword f.keyword :: .symbol .leftParen :: inner.front
  | secondArg f a inner _ =>
    .keyword f.keyword :: .symbol .leftParen :: (a.terminals ++ .symbol .comma :: inner.front)
  | left _ _ inner _ _ => inner.front
  | right op _ a inner _ => a.terminals ++ .symbol op.symbol :: inner.front

/-- The terminals behind the hole. -/
def back : Hole → List Token
  | here => []
  | unaryMinus inner _ => inner.back
  | paren inner _ => inner.back ++ [.symbol .rightParen]
  | cast inner t _ => inner.back ++ [.symbol .comma, .keyword t.keyword, .symbol .rightParen]
  | unaryCall _ inner _ => inner.back ++ [.symbol .rightParen]
  | firstArg _ inner b _ => inner.back ++ .symbol .comma :: (b.terminals ++ [.symbol .rightParen])
  | secondArg _ _ inner _ => inner.back ++ [.symbol .rightParen]
  | left op _ inner b _ => inner.back ++ .symbol op.symbol :: b.terminals
  | right _ _ _ inner _ => inner.back

theorem terminals_fill (hole : Hole) (e : Expr) :
    (hole.fill e).terminals = hole.front ++ (e.terminals ++ hole.back) := by
  induction hole with
  | here => simp [fill, front, back]
  | _ => simp_all [fill, front, back, Expr.terminals]

/-- What stands in a hole of a grammatical expression is grammatical. -/
theorem exists_fitsAt {hole : Hole} {e : Expr} {least : Nat} (h : (hole.fill e).FitsAt least) :
    ∃ least', e.FitsAt least' := by
  induction hole generalizing least with
  | here => exact ⟨least, h⟩
  | unaryMinus inner s ih | paren inner s ih | cast inner t s ih | unaryCall f inner s ih => exact ih h
  | firstArg f inner b s ih => exact ih h.1
  | secondArg f a inner s ih => exact ih h.2
  | left op o inner b s ih => exact ih h.2.1
  | right op o a inner s ih => exact ih h.2.2

theorem fitsAt_fill {hole : Hole} {e e' : Expr} {least : Nat} (h : (hole.fill e).FitsAt least)
    (he' : e'.Fits) : (hole.fill e').FitsAt least := by
  induction hole generalizing least with
  | here => exact he' least
  | unaryMinus inner s ih | paren inner s ih | cast inner t s ih | unaryCall f inner s ih => exact ih h
  | firstArg f inner b s ih => exact ⟨ih h.1, h.2⟩
  | secondArg f a inner s ih => exact ⟨h.1, ih h.2⟩
  | left op o inner b s ih => exact ⟨h.1, ih h.2.1, h.2.2⟩
  | right op o a inner s ih => exact ⟨h.1, h.2.1, ih h.2.2⟩

theorem nesting_fill (hole : Hole) {e e' : Expr} {k : Nat} (h : e'.nesting ≤ e.nesting + k) :
    (hole.fill e').nesting ≤ (hole.fill e).nesting + k := by
  induction hole with
  | here => exact h
  | _ =>
    simp only [fill, Expr.nesting]
    omega

/-- Only a string fills a hole to a string. -/
theorem ne_string (hole : Hole) {e : Expr} (he : ∀ t s, e ≠ .string t s) :
    ∀ t s, hole.fill e ≠ .string t s := by
  cases hole with
  | here => exact he
  | _ => exact fun t s => Expr.noConfusion

end Hole

/-! ## Words that mark a place -/

/-- The word is one of the terminals of the expression itself: that of a cast, its target type, or the
function of a call. It stands between the given terminals. -/
inductive Marks (k : Keyword) : Expr → List Token → List Token → Prop
  | cast {v : Expr} {type : ValueType} {s : Span} (word : k = .cast) :
      Marks k (.cast v type s) []
        (.symbol .leftParen :: (v.terminals ++ [.symbol .comma, .keyword type.keyword, .symbol .rightParen]))
  | target {v : Expr} {type : ValueType} {s : Span} (word : k = type.keyword) :
      Marks k (.cast v type s)
        (.keyword .cast :: .symbol .leftParen :: (v.terminals ++ [.symbol .comma])) [.symbol .rightParen]
  | function {f : BinaryFunction} {a b : Expr} {s : Span} (word : k = f.keyword) :
      Marks k (.binaryCall f a b s) []
        (.symbol .leftParen :: (a.terminals ++ .symbol .comma :: (b.terminals ++ [.symbol .rightParen])))

/-- The word is a type, that of a cast or a function of two arguments. -/
def Keyword.marks (k : Keyword) : Bool := k.isType || k == .cast || k == .pow || k == .min || k == .max

theorem ValueType.marks_keyword (type : ValueType) : type.keyword.marks = true := by cases type <;> rfl

theorem BinaryFunction.marks_keyword (f : BinaryFunction) : f.keyword.marks = true := by cases f <;> rfl

section

variable {α : Type} {xs ys before behind : List α} {t : α}

theorem append_eq_append_cons (h : xs ++ ys = before ++ t :: behind) :
    (∃ more, xs = before ++ t :: more ∧ behind = more ++ ys) ∨
      ∃ more, before = xs ++ more ∧ ys = more ++ t :: behind := by
  rcases List.append_eq_append_iff.1 h with ⟨more, rfl, hmore⟩ | ⟨more, rfl, hmore⟩
  · exact .inr ⟨more, rfl, hmore⟩
  · cases more with
    | nil => exact .inr ⟨[], by simp, hmore.symm⟩
    | cons u more =>
      cases hmore
      exact .inl ⟨more, rfl, rfl⟩

/-- What stands in front of the first occurrence. -/
theorem append_cons_inj_of_not_mem (h : xs ++ t :: ys = before ++ t :: behind) (hxs : t ∉ xs)
    (hbefore : t ∉ before) : xs = before ∧ ys = behind := by
  rcases append_eq_append_cons h with ⟨more, rfl, -⟩ | ⟨more, rfl, hmore⟩
  · exact absurd (by simp) hxs
  · cases more with
    | nil =>
      cases hmore
      exact ⟨(List.append_nil xs).symm, rfl⟩
    | cons u more =>
      cases hmore
      exact absurd (by simp) hbefore

theorem behind_of_not_mem (xs : List α) (h : xs ++ ys = before ++ t :: behind) (ht : t ∉ xs) :
    ∃ more, before = xs ++ more ∧ ys = more ++ t :: behind := by
  refine (append_eq_append_cons h).resolve_left ?_
  rintro ⟨more, rfl, -⟩
  exact ht (by simp)

theorem before_of_not_mem (h : xs ++ ys = before ++ t :: behind) (ht : t ∉ ys) :
    ∃ more, xs = before ++ t :: more ∧ behind = more ++ ys := by
  refine (append_eq_append_cons h).resolve_right ?_
  rintro ⟨more, -, rfl⟩
  exact ht (by simp)

end

namespace Expr

variable {k : Keyword} {before behind : List Token}

/-- A word that marks a place is found at its place. By induction on the expression; the word of the
operation itself is told from those of the others by what marks. -/
theorem exists_hole {e : Expr} (hk : k.marks = true) (h : e.terminals = before ++ .keyword k :: behind) :
    ∃ (hole : Hole) (sub : Expr) (xs ys : List Token), e = hole.fill sub ∧ Marks k sub xs ys ∧
      before = hole.front ++ xs ∧ behind = ys ++ hole.back := by
  have hother : ∀ {k' : Keyword}, k'.marks = false → Token.keyword k ≠ .keyword k' := by
    rintro k' hk' ⟨⟩
    rw [hk] at hk'
    cases hk'
  induction e generalizing before behind with
  | unaryMinus e s ih =>
    obtain ⟨before, rfl, he⟩ := behind_of_not_mem [_] h (by simp)
    obtain ⟨hole, sub, xs, ys, rfl, hmarks, rfl, rfl⟩ := ih he
    exact ⟨.unaryMinus hole s, sub, xs, ys, rfl, hmarks, rfl, rfl⟩
  | paren e s ih =>
    obtain ⟨before, rfl, hinner⟩ := behind_of_not_mem [_] h (by simp)
    obtain ⟨behind, he, rfl⟩ := before_of_not_mem hinner (by simp)
    obtain ⟨hole, sub, xs, ys, rfl, hmarks, rfl, rfl⟩ := ih he
    exact ⟨.paren hole s, sub, xs, ys, rfl, hmarks, rfl, by simp [Hole.back]⟩
  | cast e type s ih =>
    rcases List.cons_eq_append_iff.1 h with ⟨rfl, hword⟩ | ⟨before, rfl, hparen⟩
    · cases hword
      exact ⟨.here, .cast e type s, _, _, rfl, .cast rfl, rfl, by simp [Hole.back]⟩
    · obtain ⟨before, rfl, hinner⟩ := behind_of_not_mem [_] hparen (by simp)
      rcases append_eq_append_cons hinner with ⟨behind, he, rfl⟩ | ⟨before, rfl, hbehind⟩
      · obtain ⟨hole, sub, xs, ys, rfl, hmarks, rfl, rfl⟩ := ih he
        exact ⟨.cast hole type s, sub, xs, ys, rfl, hmarks, rfl, by simp [Hole.back]⟩
      · obtain ⟨before, rfl, htype⟩ := behind_of_not_mem [_] hbehind (by simp)
        obtain ⟨rfl, rfl, rfl⟩ : before = [] ∧ k = type.keyword ∧ behind = [.symbol .rightParen] := by
          cases before with
          | nil =>
            cases htype
            exact ⟨rfl, rfl, rfl⟩
          | cons u before =>
            have hmem := congrArg (Token.keyword k ∈ ·) (List.cons_eq_cons.1 htype).2
            simp at hmem
        exact ⟨.here, .cast e type s, _, _, rfl, .target rfl, by simp [Hole.front], rfl⟩
  | unaryCall f e s ih =>
    have hf : f.keyword.marks = false := by cases f <;> rfl
    obtain ⟨before, rfl, hinner⟩ := behind_of_not_mem [_, _] h (by simpa using hother hf)
    obtain ⟨behind, he, rfl⟩ := before_of_not_mem hinner (by simp)
    obtain ⟨hole, sub, xs, ys, rfl, hmarks, rfl, rfl⟩ := ih he
    exact ⟨.unaryCall f hole s, sub, xs, ys, rfl, hmarks, rfl, by simp [Hole.back]⟩
  | binaryCall f a b s iha ihb =>
    rcases List.cons_eq_append_iff.1 h with ⟨rfl, hword⟩ | ⟨before, rfl, hargs⟩
    · cases hword
      exact ⟨.here, .binaryCall f a b s, _, _, rfl, .function rfl, rfl, by simp [Hole.back]⟩
    · obtain ⟨before, rfl, hfirst⟩ := behind_of_not_mem [_] hargs (by simp)
      rcases append_eq_append_cons hfirst with ⟨behind, ha, rfl⟩ | ⟨before, rfl, hbehind⟩
      · obtain ⟨hole, sub, xs, ys, rfl, hmarks, rfl, rfl⟩ := iha ha
        exact ⟨.firstArg f hole b s, sub, xs, ys, rfl, hmarks, rfl, by simp [Hole.back]⟩
      · obtain ⟨before, rfl, hsecond⟩ := behind_of_not_mem [_] hbehind (by simp)
        obtain ⟨behind, hb, rfl⟩ := before_of_not_mem hsecond (by simp)
        obtain ⟨hole, sub, xs, ys, rfl, hmarks, rfl, rfl⟩ := ihb hb
        exact ⟨.secondArg f a hole s, sub, xs, ys, rfl, hmarks, by simp [Hole.front], by simp [Hole.back]⟩
  | binary op o a b s iha ihb =>
    rcases append_eq_append_cons h with ⟨behind, ha, rfl⟩ | ⟨before, rfl, hbehind⟩
    · obtain ⟨hole, sub, xs, ys, rfl, hmarks, rfl, rfl⟩ := iha ha
      exact ⟨.left op o hole b s, sub, xs, ys, rfl, hmarks, rfl, by simp [Hole.back]⟩
    · obtain ⟨before, rfl, hb⟩ := behind_of_not_mem [_] hbehind (by simp)
      obtain ⟨hole, sub, xs, ys, rfl, hmarks, rfl, rfl⟩ := ihb hb
      exact ⟨.right op o a hole s, sub, xs, ys, rfl, hmarks, by simp [Hole.front], rfl⟩
  | constant c s =>
    have hc : c.keyword.marks = false := by cases c <;> rfl
    have hmem : Token.keyword k ∈ (Expr.constant c s).terminals := by rw [h]; simp
    exact absurd (List.mem_singleton.1 hmem) (hother hc)
  | truth value s =>
    have hmem : Token.keyword k ∈ (Expr.truth value s).terminals := by rw [h]; simp
    cases value <;> exact absurd (List.mem_singleton.1 hmem) (hother rfl)
  | name | integer | real | string =>
    have hmem := congrArg (Token.keyword k ∈ ·) h
    simp [terminals] at hmem

end Expr

/-- Arguments stand in parentheses. -/
theorem Expr.comma_not_mem {e : Expr} (h : .symbol .leftParen ∉ e.terminals) : .symbol .comma ∉ e.terminals := by
  induction e with
  | unaryMinus e s ih =>
    rw [terminals, List.mem_cons, not_or] at h ⊢
    exact ⟨by decide, ih h.2⟩
  | binary op o a b s iha ihb =>
    simp only [terminals, List.mem_append, List.mem_cons, not_or] at h ⊢
    exact ⟨iha h.1, by cases op <;> decide, ihb h.2.2⟩
  | paren | cast | unaryCall | binaryCall => simp [terminals] at h
  | truth value => cases value <;> simp [terminals]
  | _ => simp [terminals]

/-! ## Statements with a hole -/

/-- A statement without a block, with a hole for one of its expressions. -/
inductive StmtHole where
  | varDecl (type : ValueType) (name : String) (span : Span)
  | constDecl (type : ValueType) (name : String) (declared span : Span)
  | assignment (target : String) (op : AssignOp) (span : Span)
  | printFirst (after : List PrintArg) (span : Span)
  | printLater (first : PrintArg) (before after : List PrintArg) (span : Span)

namespace StmtHole

def fill : StmtHole → Expr → Stmt
  | varDecl type name s, e => .varDecl ⟨type, name, e, s⟩
  | constDecl type name s s', e => .constDecl ⟨type, name, e, s⟩ s'
  | assignment target op s, e => .assignment target op e s
  | printFirst after s, e => .print (.expr e :: after) s
  | printLater first before after s, e => .print (first :: (before ++ .expr e :: after)) s

/-- The terminals in front of the hole. -/
def front : StmtHole → List Token
  | varDecl type name _ => [.keyword type.keyword, .identifier name, .symbol .assign]
  | constDecl type name _ _ => [.keyword .const, .keyword type.keyword, .identifier name, .symbol .assign]
  | assignment target op _ => [.identifier target, .symbol op.symbol]
  | printFirst _ _ => [.keyword .print, .symbol .leftParen]
  | printLater first before _ _ =>
    .keyword .print :: .symbol .leftParen ::
      (first.terminals ++ (PrintArg.moreTerminals before ++ [.symbol .comma]))

/-- The terminals behind the hole. -/
def back : StmtHole → List Token
  | varDecl .. | constDecl .. | assignment .. => []
  | printFirst after _ | printLater _ _ after _ => PrintArg.moreTerminals after ++ [.symbol .rightParen]

theorem terminals_fill (hole : StmtHole) (e : Expr) :
    (hole.fill e).terminals = hole.front ++ (e.terminals ++ hole.back) := by
  cases hole <;>
    simp [fill, front, back, Stmt.terminals, VarDecl.terminals, PrintArg.listTerminals, PrintArg.moreTerminals,
      PrintArg.terminals]

theorem exists_fitsAt {hole : StmtHole} {e : Expr} (h : (hole.fill e).Grammatical) : e.FitsAt 0 := by
  cases hole with
  | varDecl | constDecl | assignment => exact h
  | printFirst => exact (h.2 _ List.mem_cons_self).1
  | printLater => exact (h.2 (.expr e) (by simp)).1

theorem grammatical_fill {hole : StmtHole} {e e' : Expr} (h : (hole.fill e).Grammatical)
    (hfits : e'.FitsAt 0) (hstring : ∀ t s, e' ≠ .string t s) : (hole.fill e').Grammatical := by
  cases hole with
  | varDecl | constDecl | assignment => exact hfits
  | printFirst after s =>
    have h' := List.forall_mem_cons.1 h.2
    exact ⟨List.cons_ne_nil _ _, List.forall_mem_cons.2 ⟨⟨hfits, hstring⟩, h'.2⟩⟩
  | printLater first before after s =>
    have h' := h.2
    rw [List.forall_mem_cons, List.forall_mem_append, List.forall_mem_cons] at h'
    refine ⟨List.cons_ne_nil _ _, ?_⟩
    rw [List.forall_mem_cons, List.forall_mem_append, List.forall_mem_cons]
    exact ⟨h'.1, h'.2.1, ⟨hfits, hstring⟩, h'.2.2.2⟩

theorem nesting_fill (hole : StmtHole) {e e' : Expr} {k : Nat} (h : e'.nesting ≤ e.nesting + k) :
    (hole.fill e').nesting ≤ (hole.fill e).nesting + k := by
  have hlist : ∀ before after : List PrintArg, PrintArg.listNesting (before ++ .expr e' :: after) ≤
      PrintArg.listNesting (before ++ .expr e :: after) + k := by
    intro before after
    induction before with
    | nil =>
      simp only [PrintArg.listNesting, List.nil_append, List.foldr_cons, PrintArg.nesting]
      omega
    | cons a before ih =>
      simp only [PrintArg.listNesting, List.cons_append, List.foldr_cons] at ih ⊢
      omega
  cases hole with
  | varDecl | constDecl | assignment =>
    simp only [fill, Stmt.nesting]
    omega
  | printFirst after s =>
    have := hlist [] after
    simp only [fill, Stmt.nesting]
    simp only [List.nil_append] at this
    omega
  | printLater first before after s =>
    have := hlist (first :: before) after
    simp only [fill, Stmt.nesting]
    simp only [List.cons_append] at this
    omega

end StmtHole

namespace PrintArg

/-- A word among the arguments behind the first stands in an expression. -/
theorem exists_of_moreTerminals {args : List PrintArg} {k : Keyword} {before behind : List Token}
    (h : moreTerminals args = before ++ .keyword k :: behind) :
    ∃ pre e post xs ys, args = pre ++ .expr e :: post ∧ e.terminals = xs ++ .keyword k :: ys ∧
      before = moreTerminals pre ++ .symbol .comma :: xs ∧ behind = ys ++ moreTerminals post := by
  induction args generalizing before with
  | nil => exact absurd h.symm (by simp [moreTerminals])
  | cons a args ih =>
    obtain ⟨before, rfl, hargs⟩ := behind_of_not_mem [_] h (by simp)
    rcases append_eq_append_cons hargs with ⟨ys, ha, rfl⟩ | ⟨more, rfl, hmore⟩
    · cases a with
      | string text s =>
        have hmem := congrArg (Token.keyword k ∈ ·) ha
        simp [terminals] at hmem
      | expr e => exact ⟨[], e, args, before, ys, rfl, ha, rfl, rfl⟩
    · obtain ⟨pre, e, post, xs, ys, rfl, he, rfl, rfl⟩ := ih hmore
      exact ⟨a :: pre, e, post, xs, ys, rfl, he, by simp [moreTerminals], rfl⟩

end PrintArg

namespace Stmt

variable {s : Stmt} {k : Keyword} {before behind : List Token}

/-- A word that marks a place is the type of a declaration, or stands in an expression. -/
theorem exists_hole (hsimple : s.isSimple = true) (hk : k.marks = true)
    (h : s.terminals = before ++ .keyword k :: behind) :
    (∃ d : VarDecl, k = d.type.keyword ∧
      ((s = .varDecl d ∧ before = []) ∨ ∃ span, s = .constDecl d span ∧ before = [.keyword .const]) ∧
      behind = .identifier d.name :: .symbol .assign :: d.value.terminals) ∨
    ∃ (place : StmtHole) (e : Expr) (xs ys : List Token), s = place.fill e ∧
      e.terminals = xs ++ .keyword k :: ys ∧ before = place.front ++ xs ∧ behind = ys ++ place.back := by
  have hother : ∀ {k' : Keyword}, k'.marks = false → Token.keyword k ≠ .keyword k' := by
    rintro k' hk' ⟨⟩
    rw [hk] at hk'
    cases hk'
  cases s with
  | varDecl d =>
    rcases List.cons_eq_append_iff.1 h with ⟨rfl, hword⟩ | ⟨before, rfl, hrest⟩
    · cases hword
      exact .inl ⟨d, rfl, .inl ⟨rfl, rfl⟩, rfl⟩
    · obtain ⟨xs, rfl, hvalue⟩ := behind_of_not_mem [_, _] hrest (by simp)
      exact .inr ⟨.varDecl d.type d.name d.span, d.value, xs, behind, rfl, hvalue, rfl, by simp [StmtHole.back]⟩
  | constDecl d span =>
    obtain ⟨before, rfl, hd⟩ := behind_of_not_mem [_] h (by simpa using hother rfl)
    rcases List.cons_eq_append_iff.1 hd with ⟨rfl, hword⟩ | ⟨before, rfl, hrest⟩
    · cases hword
      exact .inl ⟨d, rfl, .inr ⟨span, rfl, rfl⟩, rfl⟩
    · obtain ⟨xs, rfl, hvalue⟩ := behind_of_not_mem [_, _] hrest (by simp)
      exact .inr ⟨.constDecl d.type d.name d.span span, d.value, xs, behind, rfl, hvalue, rfl,
        by simp [StmtHole.back]⟩
  | assignment target op e span =>
    obtain ⟨xs, rfl, hvalue⟩ := behind_of_not_mem [_, _] h (by simp)
    exact .inr ⟨.assignment target op span, e, xs, behind, rfl, hvalue, rfl, by simp [StmtHole.back]⟩
  | print args span =>
    obtain ⟨before, rfl, hinner⟩ := behind_of_not_mem [_, _] h (by simpa using hother rfl)
    obtain ⟨behind, hargs, rfl⟩ := before_of_not_mem hinner (by simp)
    cases args with
    | nil => exact absurd hargs.symm (by simp [PrintArg.listTerminals])
    | cons a args =>
      rcases append_eq_append_cons hargs with ⟨ys, ha, rfl⟩ | ⟨more, rfl, hmore⟩
      · cases a with
        | string text s =>
          have hmem := congrArg (Token.keyword k ∈ ·) ha
          simp [PrintArg.terminals] at hmem
        | expr e => exact .inr ⟨.printFirst args span, e, before, ys, rfl, ha, rfl, by simp [StmtHole.back]⟩
      · obtain ⟨pre, e, post, xs, ys, rfl, he, rfl, rfl⟩ := PrintArg.exists_of_moreTerminals hmore
        exact .inr ⟨.printLater a pre post span, e, xs, ys, rfl, he, by simp [StmtHole.front],
          by simp [StmtHole.back]⟩
  | _ => cases hsimple

/-- A type can be exchanged for another one, wherever it stands. -/
theorem exists_retyped {old : ValueType} (hsimple : s.isSimple = true) (hgood : s.Grammatical)
    (h : s.terminals = before ++ .keyword old.keyword :: behind) (type : ValueType) :
    ∃ s' : Stmt, s'.terminals = before ++ .keyword type.keyword :: behind ∧ s'.Grammatical ∧
      s'.nesting ≤ s.nesting := by
  rcases exists_hole hsimple old.marks_keyword h with
    ⟨d, -, ⟨rfl, rfl⟩ | ⟨span, rfl, rfl⟩, rfl⟩ | ⟨place, e, xs, ys, rfl, he, rfl, rfl⟩
  · exact ⟨.varDecl { d with type }, rfl, hgood, Nat.le_refl _⟩
  · exact ⟨.constDecl { d with type } span, rfl, hgood, Nat.le_refl _⟩
  · obtain ⟨hole, sub, xs, ys, rfl, hmarks, rfl, rfl⟩ := Expr.exists_hole old.marks_keyword he
    cases hmarks with
    | cast word => cases old <;> cases word
    | @target v type' s word =>
      have hfits := StmtHole.exists_fitsAt hgood
      obtain ⟨least, hv⟩ := Hole.exists_fitsAt hfits
      refine ⟨place.fill (hole.fill (.cast v type s)), ?_, ?_, ?_⟩
      · simp [StmtHole.terminals_fill, Hole.terminals_fill, Expr.terminals]
      · exact StmtHole.grammatical_fill hgood (Hole.fitsAt_fill hfits fun _ => hv)
          (hole.ne_string fun _ _ => Expr.noConfusion)
      · exact place.nesting_fill (k := 0) (hole.nesting_fill (k := 0) (Nat.le_refl _))
    | @function f a b s word => cases old <;> cases f <;> cases word

/-- Behind the word of a cast stand its value and its target. -/
theorem exists_cast (hsimple : s.isSimple = true) (h : s.terminals = before ++ .keyword .cast :: behind) :
    ∃ (v : Expr) (type : ValueType) (more : List Token),
      behind = .symbol .leftParen ::
        (v.terminals ++ .symbol .comma :: .keyword type.keyword :: .symbol .rightParen :: more) := by
  rcases exists_hole hsimple rfl h with ⟨d, hword, -⟩ | ⟨place, e, xs, ys, rfl, he, rfl, rfl⟩
  · cases d with | mk type => cases type <;> cases hword
  · obtain ⟨hole, sub, xs, ys, rfl, hmarks, rfl, rfl⟩ := Expr.exists_hole rfl he
    cases hmarks with
    | @cast v type s word => exact ⟨v, type, hole.back ++ place.back, by simp⟩
    | @target v type s word => cases type <;> cases word
    | @function f a b s word => cases f <;> cases word

/-- Both arguments of a call can be cast, wherever the call stands. -/
theorem exists_call {f : BinaryFunction} (hsimple : s.isSimple = true) (hgood : s.Grammatical)
    (h : s.terminals = before ++ .keyword f.keyword :: behind) :
    ∃ (a b : Expr) (more : List Token),
      behind = .symbol .leftParen :: (a.terminals ++ .symbol .comma :: (b.terminals ++ .symbol .rightParen :: more)) ∧
      ∀ type : ValueType, ∃ s' : Stmt,
        s'.terminals = before ++ (Expr.binaryCall f (.cast a type .dummy) (.cast b type .dummy) .dummy).terminals ++
          more ∧
        s'.Grammatical ∧ s'.nesting ≤ s.nesting + 1 := by
  rcases exists_hole hsimple f.marks_keyword h with
    ⟨d, hword, -⟩ | ⟨place, e, xs, ys, rfl, he, rfl, rfl⟩
  · cases d with | mk type => cases f <;> cases type <;> cases hword
  · obtain ⟨hole, sub, xs, ys, rfl, hmarks, rfl, rfl⟩ := Expr.exists_hole f.marks_keyword he
    cases hmarks with
    | cast word => cases f <;> cases word
    | @target v type s word => cases f <;> cases type <;> cases word
    | @function f' a b s word =>
      obtain rfl : f = f' := by cases f <;> cases f' <;> first | rfl | cases word
      have hfits := StmtHole.exists_fitsAt hgood
      obtain ⟨least, ha, hb⟩ := Hole.exists_fitsAt hfits
      refine ⟨a, b, hole.back ++ place.back, by simp, fun type => ?_⟩
      refine ⟨place.fill (hole.fill (.binaryCall f (.cast a type .dummy) (.cast b type .dummy) .dummy)), ?_, ?_, ?_⟩
      · simp [StmtHole.terminals_fill, Hole.terminals_fill]
      · exact StmtHole.grammatical_fill hgood (Hole.fitsAt_fill hfits fun _ => ⟨ha, hb⟩)
          (hole.ne_string fun _ _ => Expr.noConfusion)
      · refine place.nesting_fill (hole.nesting_fill ?_)
        simp only [Expr.nesting]
        omega

end Stmt

end EvlCheck
