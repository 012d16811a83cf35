/-
How deep a tree is. The rules that are open at once bound the depth of everything in a tree but
operators that stand beside each other: these group to the left and are read one after another by one
rule, while each puts a node above those before it. So the depth is taken apart. `Node.level` counts
a left operand on the level of its operator and is bounded by the nesting of the tree;
`Node.leftSteps` counts the steps to left operands, of which every one passes a token.
-/
import EvlCheck.Proofs.Tree.Placement

namespace EvlCheck

namespace Node

/-! ## Measures -/

mutual

/-- The number of levels on the longest way down, where a left operand is on the level of its
operator. -/
def level : Node → Nat
  | .mk (.expression (.binary ..)) _ [left, right] => max left.level (1 + right.level)
  | .mk _ _ children => 1 + levelAll children

/-- The greatest level of some nodes. -/
def levelAll : List Node → Nat
  | [] => 0
  | n :: rest => max n.level (levelAll rest)

end

mutual

/-- The greatest number of steps to left operands on one way down. -/
def leftSteps : Node → Nat
  | .mk (.expression (.binary ..)) _ [left, right] => max (left.leftSteps + 1) right.leftSteps
  | .mk _ _ children => leftStepsAll children

def leftStepsAll : List Node → Nat
  | [] => 0
  | n :: rest => max n.leftSteps (leftStepsAll rest)

end

theorem levelAll_le_iff {nodes : List Node} {bound : Nat} :
    levelAll nodes ≤ bound ↔ ∀ n ∈ nodes, n.level ≤ bound := by
  induction nodes with
  | nil => exact iff_of_true (Nat.zero_le _) (List.forall_mem_nil _)
  | cons n rest ih => rw [levelAll, Nat.max_le, ih, List.forall_mem_cons]

theorem levelAll_append (xs ys : List Node) :
    levelAll (xs ++ ys) = max (levelAll xs) (levelAll ys) := by
  induction xs with
  | nil => exact (Nat.zero_max _).symm
  | cons n rest ih => rw [List.cons_append, levelAll, levelAll, ih, Nat.max_assoc]

theorem depthAll_le_iff {nodes : List Node} {least bound : Nat} :
    depthAll least nodes ≤ bound ↔ least ≤ bound ∧ ∀ n ∈ nodes, n.depth ≤ bound := by
  induction nodes generalizing least with
  | nil => exact (and_iff_left (List.forall_mem_nil _)).symm
  | cons n rest ih => rw [depthAll, ih, Nat.max_le, List.forall_mem_cons, and_assoc]

theorem level_of_kind {kind : NodeKind} {span : Span} {children : List Node}
    (h : ∀ e, kind ≠ .expression e) : (Node.mk kind span children).level = 1 + levelAll children := by
  cases kind with
  | expression e => exact absurd rfl (h e)
  | _ => simp only [level]

/-! ## The depth by levels and steps to the left -/

mutual

/-- A way down goes a level deeper at each step but those to left operands. -/
theorem depth_le (n : Node) : n.depth ≤ n.level + n.leftSteps := by
  match n with
  | .mk kind span children =>
    have hchildren : depthAll 0 children ≤ levelAll children + leftStepsAll children :=
      depthAll_le_iff.2 ⟨Nat.zero_le _, forall_depth_le children⟩
    unfold depth level leftSteps
    split
    · next left right hnode =>
      cases hnode
      have hleft := depth_le left
      have hright := depth_le right
      simp only [depthAll]
      omega
    · next hnode =>
      cases hnode
      omega

theorem forall_depth_le (nodes : List Node) :
    ∀ n ∈ nodes, n.depth ≤ levelAll nodes + leftStepsAll nodes := by
  match nodes with
  | [] => exact List.forall_mem_nil _
  | n :: rest =>
    have hn := depth_le n
    have hrest := forall_depth_le rest
    rw [levelAll, leftStepsAll, List.forall_mem_cons]
    refine ⟨by omega, fun m hm => ?_⟩
    have hm := hrest m hm
    omega

end

variable {row : Array StreamToken}

mutual

/-- Each step to a left operand leaves tokens behind: those of the right operand. -/
theorem Placed.leftSteps_lt {n : Node} {a b : Nat} (h : n.Placed row a b) :
    a + n.leftSteps < b := by
  match n with
  | .mk kind span children =>
    obtain ⟨⟨hlt, -⟩, -, hplaced⟩ := h
    have hchildren := hplaced.leftStepsAll_lt hlt
    unfold leftSteps
    split
    · next left right hnode =>
      cases hnode
      obtain ⟨c, d, hac, hleft, e, f, hde, hright, hfb⟩ := hplaced
      have hleft := hleft.leftSteps_lt
      have hright := hright.leftSteps_lt
      have hfb : f ≤ b := hfb
      omega
    · next hnode =>
      cases hnode
      exact hchildren

theorem AllPlaced.leftStepsAll_lt {nodes : List Node} {a b : Nat} (h : AllPlaced row nodes a b)
    (hlt : a < b) : a + leftStepsAll nodes < b := by
  match nodes with
  | [] => exact hlt
  | n :: rest =>
    obtain ⟨c, d, hac, hn, hrest⟩ := h
    have hcd := hn.lt
    have hdb := hrest.le
    have hn := hn.leftSteps_lt
    have hrest := (hrest.widen (by omega : a ≤ d) (Nat.le_refl b)).leftStepsAll_lt hlt
    rw [leftStepsAll]
    omega

end

end Node

/-- The depth of an expression does not depend on its places. -/
theorem Expr.depth_bare (e : Expr) : e.bare.toNode.depth = e.toNode.depth := by
  induction e with
  | unaryMinus e s ih | paren e s ih | cast e t s ih | unaryCall f e s ih =>
    simp only [bare, toNode, Node.depth, Node.depthAll, ih]
  | binaryCall f a b s iha ihb | binary op opSpan a b s iha ihb =>
    simp only [bare, toNode, Node.depth, Node.depthAll, iha, ihb]
  | _ => simp only [bare, toNode, Node.depth, Node.depthAll]

/-! ## Levels and nesting -/

/-- Every node of an expression but its root needs a rule of its own, save on a left operand. -/
theorem Expr.level_toNode_le (e : Expr) : e.toNode.level ≤ e.nesting + 1 := by
  induction e with
  | unaryMinus e s ih | paren e s ih | cast e t s ih | unaryCall f e s ih =>
    simp only [toNode, Node.level, Node.levelAll, nesting]
    omega
  | binaryCall f a b s iha ihb =>
    simp only [toNode, Node.level, Node.levelAll, nesting]
    omega
  | binary op opSpan a b s iha ihb =>
    simp only [toNode, Node.level, nesting]
    omega
  | _ => simp [toNode, Node.level, Node.levelAll]

theorem VarDecl.level_toNode_le (d : VarDecl) : d.toNode.level ≤ d.value.nesting + 2 := by
  have hvalue := d.value.level_toNode_le
  simp only [toNode, Node.level, Node.levelAll]
  omega

theorem PrintArg.level_toNode_le (a : PrintArg) : a.toNode.level ≤ a.nesting + 1 := by
  cases a with
  | string t s => simp [toNode, Node.level, Node.levelAll]
  | expr e =>
    have he := e.level_toNode_le
    simp only [toNode, Node.level, Node.levelAll, nesting]
    omega

theorem PrintArg.forall_level_le (args : List PrintArg) :
    ∀ n ∈ args.map toNode, n.level ≤ listNesting args + 1 := by
  induction args with
  | nil => exact List.forall_mem_nil _
  | cons a more ih =>
    have ha := a.level_toNode_le
    have hnesting : listNesting (a :: more) = max a.nesting (listNesting more) := rfl
    rw [List.map_cons, List.forall_mem_cons, hnesting]
    refine ⟨by omega, fun n hn => ?_⟩
    have hn := ih n hn
    omega

/-- A statement has a node of its own above the node of its kind. -/
theorem Node.level_statement {kind : NodeKind} {s s' : Span} {children : List Node}
    (h : ∀ e, kind ≠ .expression e) :
    (Node.mk .statement s [.mk kind s' children]).level = levelAll children + 2 := by
  simp only [level, level_of_kind h, levelAll]
  omega

mutual

theorem Stmt.level_toNode_le (s : Stmt) : s.toNode.level ≤ 2 * s.nesting + 1 := by
  match s with
  | .varDecl d =>
    have hd := d.level_toNode_le
    simp only [Stmt.toNode, Stmt.nesting, Node.level, Node.levelAll]
    omega
  | .constDecl d span =>
    have hd := d.level_toNode_le
    rw [Stmt.toNode, Stmt.nesting, Node.level_statement (by simp), Node.levelAll, Node.levelAll]
    omega
  | .assignment target op e span =>
    have he := e.level_toNode_le
    rw [Stmt.toNode, Stmt.nesting, Node.level_statement (by simp), Node.levelAll, Node.levelAll]
    omega
  | .print args span =>
    have hargs := Node.levelAll_le_iff.2 (PrintArg.forall_level_le args)
    rw [Stmt.toNode, Stmt.nesting, Node.level_statement (by simp)]
    omega
  | .ifElse c body others span =>
    have hc := c.level_toNode_le
    have hbody := body.level_toNode_le
    have hothers := Node.levelAll_le_iff.2 others.forall_level_le
    rw [Stmt.toNode, Stmt.nesting, Node.level_statement (by simp), ElseChain.toNodes_eq,
      Node.levelAll_append]
    simp only [List.reverse_cons, List.reverse_nil, List.nil_append, List.singleton_append,
      Node.levelAll]
    omega
  | .whileLoop c body span =>
    have hc := c.level_toNode_le
    have hbody := body.level_toNode_le
    rw [Stmt.toNode, Stmt.nesting, Node.level_statement (by simp)]
    simp only [Node.levelAll]
    omega
  | .tryCatch body binding handler span =>
    have hbody := body.level_toNode_le
    have hhandler := handler.level_toNode_le
    rw [Stmt.toNode, Stmt.nesting, Node.level_statement (by simp)]
    simp only [Node.levelAll]
    omega
  | .block b =>
    have hb := b.level_toNode_le
    simp only [Stmt.toNode, Stmt.nesting, Node.level, Node.levelAll]
    omega

theorem Block.level_toNode_le (b : Block) : b.toNode.level ≤ 2 * b.nesting := by
  match b with
  | .mk statements span =>
    have hall := Node.levelAll_le_iff.2 (Stmt.forall_level_le statements)
    simp only [Block.toNode, Block.nesting, Stmt.toNodes_eq, List.reverse_nil, List.nil_append,
      Node.level]
    omega

theorem ElseChain.forall_level_le (chain : ElseChain) :
    ∀ n ∈ chain.nodes, n.level ≤ 2 * chain.nesting + 1 := by
  match chain with
  | .done => exact List.forall_mem_nil _
  | .otherwise body =>
    have hbody := body.level_toNode_le
    rw [ElseChain.nodes, List.forall_mem_singleton, ElseChain.nesting]
    omega
  | .elseIf c body span rest =>
    have hc := c.level_toNode_le
    have hbody := body.level_toNode_le
    have hrest := rest.forall_level_le
    rw [ElseChain.nodes, List.forall_mem_cons, ElseChain.nesting]
    refine ⟨?_, fun n hn => ?_⟩
    · simp only [Node.level, Node.levelAll]
      omega
    · have hn := hrest n hn
      omega

theorem Stmt.forall_level_le (statements : List Stmt) :
    ∀ n ∈ statements.map Stmt.toNode, n.level ≤ 2 * Stmt.listNesting statements + 1 := by
  match statements with
  | [] => exact List.forall_mem_nil _
  | s :: rest =>
    have hs := s.level_toNode_le
    have hrest := Stmt.forall_level_le rest
    rw [List.map_cons, List.forall_mem_cons, Stmt.listNesting]
    refine ⟨by omega, fun n hn => ?_⟩
    have hn := hrest n hn
    omega

end

/-- Two levels for each rule that is open at once, and the root and the node of a statement. -/
theorem Program.level_toNode_le (p : Program) : p.toNode.level ≤ 2 * p.nesting + 2 := by
  have hall := Node.levelAll_le_iff.2 (Stmt.forall_level_le p.statements)
  simp only [toNode, Stmt.toNodes_eq, List.reverse_nil, List.nil_append, Node.level, nesting]
  omega

end EvlCheck
