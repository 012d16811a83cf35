/-
Trees over a row of tokens. A node is placed from one index to another when its span runs from the
first to the last token between them, its children are placed inside, one behind the other and with
gaps where tokens were skipped, and, for an expression, the tokens between the two indices are its
terminals without a gap.
-/
import EvlCheck.Proofs.Tree.Grammar
import EvlCheck.Token.Stream
import EvlCheck.Tree.Node
import Mathlib.Tactic.Common

namespace EvlCheck

/-! ## Pieces of a row of tokens -/

/-- The tokens from one index up to another. -/
def valuesFrom (row : Array StreamToken) (a b : Nat) : List Token :=
  ((row.toList.drop a).take (b - a)).map (·.value)

@[simp] theorem valuesFrom_self (row : Array StreamToken) (a : Nat) : valuesFrom row a a = [] := by
  simp [valuesFrom]

theorem valuesFrom_append {row : Array StreamToken} {a b c : Nat} (hab : a ≤ b) (hbc : b ≤ c) :
    valuesFrom row a b ++ valuesFrom row b c = valuesFrom row a c := by
  unfold valuesFrom
  rw [← List.map_append, show c - a = (b - a) + (c - b) by omega, List.take_add, List.drop_drop,
    show a + (b - a) = b by omega]

theorem valuesFrom_succ {row : Array StreamToken} {a : Nat} {t : StreamToken} (h : row[a]? = some t) :
    valuesFrom row a (a + 1) = [t.value] := by
  obtain ⟨ha, rfl⟩ := Array.getElem?_eq_some_iff.1 h
  unfold valuesFrom
  rw [List.drop_eq_getElem_cons (by simpa using ha)]
  simp

theorem length_valuesFrom {row : Array StreamToken} {a b : Nat} (hb : b ≤ row.size) :
    (valuesFrom row a b).length = b - a := by
  simp only [valuesFrom, List.length_map, List.length_take, List.length_drop, Array.length_toList]
  omega

/-- A span covers the tokens from one index up to another, at least one. -/
def Covers (row : Array StreamToken) (a b : Nat) (s : Span) : Prop :=
  a < b ∧ ∃ first last, row[a]? = some first ∧ row[b - 1]? = some last ∧ s = first.span.merge last.span

theorem Span.merge_self (s : Span) : s.merge s = s := by
  simp [Span.merge]

theorem covers_succ {row : Array StreamToken} {a : Nat} {t : StreamToken} (h : row[a]? = some t) :
    Covers row a (a + 1) t.span :=
  ⟨Nat.lt_succ_self a, t, t, h, h, (Span.merge_self t.span).symm⟩

/-- The span from an earlier place of the cursor covers the tokens read since. -/
theorem TokenStream.covers_spanFrom {s : TokenStream} {first : Nat} (h : first < s.position) :
    Covers s.significant first s.position (s.spanFrom first) := by
  have hp := s.position_lt
  have h1 : first < s.significant.size := by omega
  have h2 : s.position - 1 < s.significant.size := by omega
  refine ⟨h, s.significant[first], s.significant[s.position - 1], by simp [h1], by simp [h2], ?_⟩
  simp [TokenStream.spanFrom, TokenStream.spanAt?, h1, h2, h]

/-! ## Placed nodes -/

mutual

/-- The node stands for the tokens from one index up to another. -/
def Node.Placed (row : Array StreamToken) : Node → Nat → Nat → Prop
  | .mk kind span children, a, b =>
    Covers row a b span ∧ (∀ e, kind = .expression e → valuesFrom row a b = e.terminals) ∧
      Node.AllPlaced row children a b

/-- The nodes stand for disjoint pieces of the tokens from one index up to another, in order. -/
def Node.AllPlaced (row : Array StreamToken) : List Node → Nat → Nat → Prop
  | [], a, b => a ≤ b
  | n :: rest, a, b => ∃ c d, a ≤ c ∧ n.Placed row c d ∧ Node.AllPlaced row rest d b

end

namespace Node

variable {row : Array StreamToken}

theorem Placed.lt {n : Node} {a b : Nat} (h : n.Placed row a b) : a < b := by
  cases n; exact h.1.1

theorem AllPlaced.le {nodes : List Node} {a b : Nat} (h : AllPlaced row nodes a b) : a ≤ b := by
  induction nodes generalizing a with
  | nil => exact h
  | cons n rest ih =>
    obtain ⟨c, d, hac, hn, hrest⟩ := h
    have := hn.lt
    have := ih hrest
    omega

/-- The room for the nodes can be wider on both sides. -/
theorem AllPlaced.widen {nodes : List Node} {a a' b b' : Nat} (h : AllPlaced row nodes a b)
    (ha : a' ≤ a) (hb : b ≤ b') : AllPlaced row nodes a' b' := by
  induction nodes generalizing a a' with
  | nil => exact Nat.le_trans ha (Nat.le_trans h hb)
  | cons n rest ih =>
    obtain ⟨c, d, hac, hn, hrest⟩ := h
    exact ⟨c, d, Nat.le_trans ha hac, hn, ih hrest (Nat.le_refl _)⟩

theorem AllPlaced.append {xs ys : List Node} {a b c : Nat} (hx : AllPlaced row xs a b)
    (hy : AllPlaced row ys b c) : AllPlaced row (xs ++ ys) a c := by
  induction xs generalizing a with
  | nil => exact hy.widen hx (Nat.le_refl _)
  | cons n rest ih =>
    obtain ⟨d, e, had, hn, hrest⟩ := hx
    exact ⟨d, e, had, hn, ih hrest⟩

theorem Placed.single {n : Node} {a b : Nat} (h : n.Placed row a b) : AllPlaced row [n] a b :=
  ⟨a, b, Nat.le_refl _, h, Nat.le_refl b⟩

/-- A node that is no expression is placed when its span covers its tokens and its children are
placed among them. -/
theorem placed_of_kind {kind : NodeKind} {span : Span} {children : List Node} {a b : Nat}
    (hk : ∀ e, kind ≠ .expression e) (hs : Covers row a b span) (hc : AllPlaced row children a b) :
    (Node.mk kind span children).Placed row a b :=
  ⟨hs, fun e h => absurd h (hk e), hc⟩

end Node

/-! ## Children without an accumulator -/

/-- The nodes of the branches after the first. -/
def ElseChain.nodes : ElseChain → List Node
  | .done => []
  | .otherwise body => [body.toNode]
  | .elseIf c body s rest => .mk .elseIf s [c.toNode, body.toNode] :: rest.nodes

theorem ElseChain.toNodes_eq (chain : ElseChain) (earlier : List Node) :
    chain.toNodes earlier = earlier.reverse ++ chain.nodes := by
  match chain with
  | .done => simp [ElseChain.toNodes, ElseChain.nodes]
  | .otherwise body => simp [ElseChain.toNodes, ElseChain.nodes]
  | .elseIf c body s rest => simp [ElseChain.toNodes, ElseChain.nodes, rest.toNodes_eq]

theorem Stmt.toNodes_eq (earlier : List Node) (statements : List Stmt) :
    Stmt.toNodes earlier statements = earlier.reverse ++ statements.map Stmt.toNode := by
  induction statements generalizing earlier with
  | nil => simp [Stmt.toNodes]
  | cons s rest ih => simp [Stmt.toNodes, ih]

end EvlCheck
