/-
Expressions anywhere in a tree. Every expression at a node of a tree of the grammar is one of the
grammar by itself, and it needs fewer rules open at once than the tree does.
-/
import EvlCheck.Proofs.Parsing.ReadExpression

namespace EvlCheck

/-! ## The expressions at and below a node -/

mutual

/-- Every expression at the node or below it is as said. -/
def Node.Every (P : Expr → Prop) : Node → Prop
  | .mk kind _ children => (∀ e, kind = .expression e → P e) ∧ Node.AllEvery P children

def Node.AllEvery (P : Expr → Prop) : List Node → Prop
  | [] => True
  | n :: rest => n.Every P ∧ Node.AllEvery P rest

end

namespace Node

variable {P : Expr → Prop}

theorem allEvery_iff {nodes : List Node} : AllEvery P nodes ↔ ∀ n ∈ nodes, n.Every P := by
  induction nodes with
  | nil => exact iff_of_true trivial (by simp)
  | cons n rest ih => rw [AllEvery, ih, List.forall_mem_cons]

theorem AllEvery.append {xs ys : List Node} (hx : AllEvery P xs) (hy : AllEvery P ys) :
    AllEvery P (xs ++ ys) := by
  rw [allEvery_iff] at hx hy ⊢
  exact List.forall_mem_append.2 ⟨hx, hy⟩

theorem Every.child {n c : Node} (h : n.Every P) (hc : c ∈ n.children) : c.Every P := by
  obtain ⟨kind, span, children⟩ := n
  exact allEvery_iff.1 h.2 c hc

theorem Every.expression {n : Node} (h : n.Every P) {e : Expr} (he : n.kind = .expression e) : P e := by
  obtain ⟨kind, span, children⟩ := n
  exact h.1 e he

/-- A node that is no expression says nothing by itself. -/
theorem every_of_kind {kind : NodeKind} {span : Span} {children : List Node}
    (hk : ∀ e, kind ≠ .expression e) (hc : AllEvery P children) :
    (Node.mk kind span children).Every P :=
  ⟨fun e he => absurd he (hk e), hc⟩

end Node

/-! ## Trees of the grammar -/

/-- The expression is one of the grammar, and needs fewer rules open at once than there are. -/
structure Expr.Regular (free : Nat) (e : Expr) : Prop where
  fits : e.FitsAt 0
  nesting : e.nesting < free

variable {free : Nat}

namespace Expr.Regular

theorem of_fits {e : Expr} {least : Nat} (hfits : e.FitsAt least) (hn : e.nesting < free) :
    e.Regular free :=
  ⟨hfits.of_le_rank (Nat.zero_le _), hn⟩

/-- So is every expression inside of it. -/
theorem every_toNode {e : Expr} (h : e.Regular free) : e.toNode.Every (Regular free) := by
  induction e with
  | unaryMinus e s ih =>
    have he := ih (.of_fits h.fits (Nat.lt_of_succ_lt h.nesting))
    exact ⟨by rintro _ ⟨⟩; exact h, he, trivial⟩
  | paren e s ih | cast e t s ih | unaryCall f e s ih =>
    have he := ih ⟨h.fits, Nat.lt_of_succ_lt h.nesting⟩
    exact ⟨by rintro _ ⟨⟩; exact h, he, trivial⟩
  | binaryCall f a b s iha ihb =>
    obtain ⟨hna, hnb⟩ := Nat.max_lt.1 (Nat.lt_of_succ_lt h.nesting)
    exact ⟨by rintro _ ⟨⟩; exact h, iha ⟨h.fits.1, hna⟩, ihb ⟨h.fits.2, hnb⟩, trivial⟩
  | binary op opSpan a b s iha ihb =>
    obtain ⟨hna, hnb⟩ := Nat.max_lt.1 h.nesting
    obtain ⟨-, hfitsa, hfitsb⟩ := h.fits
    exact ⟨by rintro _ ⟨⟩; exact h, iha (.of_fits hfitsa hna),
      ihb (.of_fits hfitsb (Nat.lt_of_succ_lt hnb)), trivial⟩
  | constant | name | integer | real | string | truth => exact ⟨by rintro _ ⟨⟩; exact h, trivial⟩

end Expr.Regular

/-! ## Statements -/

theorem VarDecl.every_toNode {d : VarDecl} (hfits : d.value.FitsAt 0) (hn : d.value.nesting < free) :
    d.toNode.Every (Expr.Regular free) :=
  Node.every_of_kind (by simp) ⟨Expr.Regular.every_toNode ⟨hfits, hn⟩, trivial⟩

theorem PrintArg.every_toNodes {args : List PrintArg} (hgood : ∀ a ∈ args, a.Grammatical)
    (hn : PrintArg.listNesting args ≤ free) :
    Node.AllEvery (Expr.Regular free) (args.map PrintArg.toNode) := by
  induction args with
  | nil => trivial
  | cons a rest ih =>
    obtain ⟨hna, hnrest⟩ := Nat.max_le.1 hn
    obtain ⟨ha, hrest⟩ := List.forall_mem_cons.1 hgood
    refine ⟨?_, ih hrest hnrest⟩
    cases a with
    | string t s => exact Node.every_of_kind (by simp) trivial
    | expr e => exact Node.every_of_kind (by simp) ⟨Expr.Regular.every_toNode ⟨ha.1, hna⟩, trivial⟩

/-- A statement is a node above the node of its kind. -/
theorem Node.every_statement {P : Expr → Prop} {kind : NodeKind} {s s' : Span} {children : List Node}
    (hk : ∀ e, kind ≠ .expression e) (h : AllEvery P children) :
    (Node.mk .statement s [.mk kind s' children]).Every P :=
  every_of_kind (by simp) ⟨every_of_kind hk h, trivial⟩

mutual

/-- The expressions of a statement of the grammar are regular. -/
theorem Stmt.every_toNode (s : Stmt) (hgood : s.Grammatical) (hn : s.nesting ≤ free) :
    s.toNode.Every (Expr.Regular free) := by
  match s with
  | .varDecl d =>
    exact Node.every_of_kind (by simp) ⟨VarDecl.every_toNode hgood (Nat.lt_of_succ_lt hn), trivial⟩
  | .constDecl d span =>
    exact Node.every_statement (by simp)
      ⟨VarDecl.every_toNode hgood (Nat.lt_of_succ_lt hn), trivial⟩
  | .assignment target op e span =>
    exact Node.every_statement (by simp)
      ⟨Expr.Regular.every_toNode ⟨hgood, Nat.lt_of_succ_lt hn⟩, trivial⟩
  | .print args span =>
    exact Node.every_statement (by simp) (PrintArg.every_toNodes hgood.2 (Nat.le_of_succ_le hn))
  | .ifElse c body others span =>
    obtain ⟨hfits, hbody, hothers⟩ := hgood
    obtain ⟨hnc, hn⟩ := Nat.max_le.1 (Nat.le_of_succ_le hn)
    obtain ⟨hnbody, hnothers⟩ := Nat.max_le.1 hn
    refine Node.every_statement (by simp) ?_
    rw [ElseChain.toNodes_eq]
    exact .append ⟨Expr.Regular.every_toNode ⟨hfits, hnc⟩, Block.every_toNode body hbody hnbody,
      trivial⟩ (ElseChain.every_nodes others hothers hnothers)
  | .whileLoop c body span =>
    obtain ⟨hfits, hbody⟩ := hgood
    obtain ⟨hnc, hnbody⟩ := Nat.max_le.1 (Nat.le_of_succ_le hn)
    exact Node.every_statement (by simp)
      ⟨Expr.Regular.every_toNode ⟨hfits, hnc⟩, Block.every_toNode body hbody hnbody, trivial⟩
  | .tryCatch body binding handler span =>
    obtain ⟨hbody, hhandler⟩ := hgood
    obtain ⟨hnbody, hnhandler⟩ := Nat.max_le.1 (Nat.le_of_succ_le hn)
    exact Node.every_statement (by simp)
      ⟨Block.every_toNode body hbody hnbody, Block.every_toNode handler hhandler hnhandler, trivial⟩
  | .block b =>
    exact Node.every_of_kind (by simp)
      ⟨Block.every_toNode b hgood (Nat.le_of_succ_le hn), trivial⟩

theorem Block.every_toNode (b : Block) (hgood : b.Grammatical) (hn : b.nesting ≤ free) :
    b.toNode.Every (Expr.Regular free) := by
  match b with
  | .mk statements span =>
    refine Node.every_of_kind (by simp) ?_
    rw [Stmt.toNodes_eq]
    exact Stmt.every_toNodes statements hgood (Nat.le_of_succ_le hn)

theorem ElseChain.every_nodes (chain : ElseChain) (hgood : chain.Grammatical)
    (hn : chain.nesting ≤ free) : Node.AllEvery (Expr.Regular free) chain.nodes := by
  match chain with
  | .done => trivial
  | .otherwise body => exact ⟨Block.every_toNode body hgood hn, trivial⟩
  | .elseIf c body span rest =>
    obtain ⟨hfits, hbody, hrest⟩ := hgood
    obtain ⟨hnc, hn⟩ := Nat.max_le.1 hn
    obtain ⟨hnbody, hnrest⟩ := Nat.max_le.1 hn
    exact ⟨Node.every_of_kind (by simp) ⟨Expr.Regular.every_toNode ⟨hfits, hnc⟩,
      Block.every_toNode body hbody hnbody, trivial⟩, ElseChain.every_nodes rest hrest hnrest⟩

theorem Stmt.every_toNodes (statements : List Stmt) (hgood : Stmt.ListGrammatical statements)
    (hn : Stmt.listNesting statements ≤ free) :
    Node.AllEvery (Expr.Regular free) (statements.map Stmt.toNode) := by
  match statements with
  | [] => trivial
  | s :: rest =>
    obtain ⟨hs, hrest⟩ := hgood
    obtain ⟨hns, hnrest⟩ := Nat.max_le.1 hn
    exact ⟨Stmt.every_toNode s hs hns, Stmt.every_toNodes rest hrest hnrest⟩

end

/-- The expressions of a program of the grammar are regular. -/
theorem Program.every_toNode {p : Program} (hgood : p.Grammatical) (hn : p.nesting ≤ free) :
    p.toNode.Every (Expr.Regular free) := by
  refine Node.every_of_kind (by simp) ?_
  rw [Stmt.toNodes_eq]
  exact Stmt.every_toNodes p.statements hgood hn

end EvlCheck
