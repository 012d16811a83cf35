/-
Places for statements in a program. A slot is a list of statements with a gap, or a statement with a gap
in one of its blocks, at any depth. Other statements in the gap change the terminals there and nowhere
else; the program stays one of the grammar, and nests deeper by no more than they do.
-/
import EvlCheck.Proofs.Tree.Grammar
import Mathlib.Tactic.Common

namespace EvlCheck

/-! ## Lists of statements -/

namespace Stmt

theorem listTerminals_append (ss ss' : List Stmt) :
    listTerminals (ss ++ ss') = listTerminals ss ++ listTerminals ss' := by
  induction ss with
  | nil => rfl
  | cons s ss ih => rw [List.cons_append, listTerminals, ih, listTerminals, List.append_assoc]

theorem listGrammatical_append {ss ss' : List Stmt} :
    ListGrammatical (ss ++ ss') ↔ ListGrammatical ss ∧ ListGrammatical ss' := by
  induction ss with
  | nil => exact (true_and _ ▸ Iff.rfl)
  | cons s ss ih => rw [List.cons_append, ListGrammatical, ih, ListGrammatical, and_assoc]

theorem listNesting_append (ss ss' : List Stmt) :
    listNesting (ss ++ ss') = max (listNesting ss) (listNesting ss') := by
  induction ss with
  | nil => exact (Nat.zero_max _).symm
  | cons s ss ih => rw [List.cons_append, listNesting, ih, listNesting, Nat.max_assoc]

theorem listTerminals_single (s : Stmt) : listTerminals [s] = s.terminals := List.append_nil _

/-- The statement that is alone in a block, and where the block stands. -/
def only? : Stmt → Option (Stmt × Span)
  | block (.mk [s] span) => some (s, span)
  | _ => none

theorem eq_block_of_only? {s inner : Stmt} {span : Span} (h : s.only? = some (inner, span)) :
    s = block (.mk [inner] span) := by
  unfold only? at h
  split at h
  · cases h
    rfl
  · cases h

end Stmt

/-! ## Statements with a gap -/

/-- Branches of a conditional behind the first, with a gap for the statements of one of them. -/
inductive ChainFrame where
  | otherwise (body : Span)
  | elseIf (condition : Expr) (body span : Span) (rest : ElseChain)
  | later (condition : Expr) (body : Block) (span : Span) (rest : ChainFrame)

/-- A statement with a gap for the statements of one of its blocks. -/
inductive StmtFrame where
  | block (body : Span)
  | ifBody (condition : Expr) (body : Span) (others : ElseChain) (span : Span)
  | branch (condition : Expr) (body : Block) (others : ChainFrame) (span : Span)
  | whileBody (condition : Expr) (body span : Span)
  | tryBody (body : Span) (binding : Option String) (handler : Block) (span : Span)
  | handlerBody (body : Block) (binding : Option String) (handler span : Span)

/-- The word `catch`, and the name of what was caught. -/
def catchTerminals : Option String → List Token
  | none => [.keyword .catch]
  | some binding => [.keyword .catch, .symbol .leftParen, .identifier binding, .symbol .rightParen]

theorem Stmt.terminals_tryCatch (body : Block) (binding : Option String) (handler : Block) (span : Span) :
    (Stmt.tryCatch body binding handler span).terminals =
      .keyword .try :: (body.terminals ++ (catchTerminals binding ++ handler.terminals)) := by
  cases binding <;> rfl

/-- The terminals of a condition and what stands in front of it. -/
def conditionFront (word : List Keyword) (condition : Expr) : List Token :=
  word.map .keyword ++ .symbol .leftParen :: (condition.terminals ++ [.symbol .rightParen])

namespace ChainFrame

def plug : ChainFrame → List Stmt → ElseChain
  | otherwise body, ss => .otherwise (.mk ss body)
  | elseIf c body span rest, ss => .elseIf c (.mk ss body) span rest
  | later c body span rest, ss => .elseIf c body span (rest.plug ss)

/-- The terminals in front of the gap. -/
def front : ChainFrame → List Token
  | otherwise _ => [.keyword .else, .symbol .leftBrace]
  | elseIf c _ _ _ => conditionFront [.else, .if] c ++ [.symbol .leftBrace]
  | later c body _ rest => conditionFront [.else, .if] c ++ (body.terminals ++ rest.front)

/-- The terminals behind the gap. -/
def back : ChainFrame → List Token
  | otherwise _ => [.symbol .rightBrace]
  | elseIf _ _ _ rest => .symbol .rightBrace :: rest.terminals
  | later _ _ _ rest => rest.back

theorem terminals_plug (f : ChainFrame) (ss : List Stmt) :
    (f.plug ss).terminals = f.front ++ (Stmt.listTerminals ss ++ f.back) := by
  induction f with
  | otherwise => simp [plug, front, back, ElseChain.terminals, Block.terminals]
  | elseIf => simp [plug, front, back, ElseChain.terminals, Block.terminals, conditionFront]
  | later c body span rest ih =>
    simp [plug, front, back, ElseChain.terminals, conditionFront, ih]

theorem grammatical_plug {f : ChainFrame} {ss ss' : List Stmt} (h : (f.plug ss).Grammatical)
    (hss : Stmt.ListGrammatical ss') : (f.plug ss').Grammatical := by
  induction f with
  | otherwise => exact hss
  | elseIf => exact ⟨h.1, hss, h.2.2⟩
  | later c body span rest ih => exact ⟨h.1, h.2.1, ih h.2.2⟩

theorem listGrammatical_of_plug {f : ChainFrame} {ss : List Stmt} (h : (f.plug ss).Grammatical) :
    Stmt.ListGrammatical ss := by
  induction f with
  | otherwise => exact h
  | elseIf => exact h.2.1
  | later c body span rest ih => exact ih h.2.2

theorem nesting_plug (f : ChainFrame) {ss ss' : List Stmt} {k : Nat}
    (h : Stmt.listNesting ss' ≤ Stmt.listNesting ss + k) : (f.plug ss').nesting ≤ (f.plug ss).nesting + k := by
  induction f with
  | otherwise => simp only [plug, ElseChain.nesting, Block.nesting]; omega
  | elseIf => simp only [plug, ElseChain.nesting, Block.nesting]; omega
  | later c body span rest ih => simp only [plug, ElseChain.nesting]; omega

end ChainFrame

namespace StmtFrame

def plug : StmtFrame → List Stmt → Stmt
  | block body, ss => .block (.mk ss body)
  | ifBody c body others span, ss => .ifElse c (.mk ss body) others span
  | branch c body others span, ss => .ifElse c body (others.plug ss) span
  | whileBody c body span, ss => .whileLoop c (.mk ss body) span
  | tryBody body binding handler span, ss => .tryCatch (.mk ss body) binding handler span
  | handlerBody body binding handler span, ss => .tryCatch body binding (.mk ss handler) span

/-- The terminals in front of the gap. -/
def front : StmtFrame → List Token
  | block _ => [.symbol .leftBrace]
  | ifBody c _ _ _ => conditionFront [.if] c ++ [.symbol .leftBrace]
  | branch c body others _ => conditionFront [.if] c ++ (body.terminals ++ others.front)
  | whileBody c _ _ => conditionFront [.while] c ++ [.symbol .leftBrace]
  | tryBody _ _ _ _ => [.keyword .try, .symbol .leftBrace]
  | handlerBody body binding _ _ =>
    .keyword .try :: (body.terminals ++ (catchTerminals binding ++ [.symbol .leftBrace]))

/-- The terminals behind the gap. -/
def back : StmtFrame → List Token
  | block _ | whileBody _ _ _ | handlerBody _ _ _ _ => [.symbol .rightBrace]
  | ifBody _ _ others _ => .symbol .rightBrace :: others.terminals
  | branch _ _ others _ => others.back
  | tryBody _ binding handler _ => .symbol .rightBrace :: (catchTerminals binding ++ handler.terminals)

theorem terminals_plug (f : StmtFrame) (ss : List Stmt) :
    (f.plug ss).terminals = f.front ++ (Stmt.listTerminals ss ++ f.back) := by
  cases f with
  | block => simp [plug, front, back, Stmt.terminals, Block.terminals]
  | ifBody => simp [plug, front, back, Stmt.terminals, Block.terminals, conditionFront]
  | branch c body others =>
    simp [plug, front, back, Stmt.terminals, conditionFront, others.terminals_plug]
  | whileBody => simp [plug, front, back, Stmt.terminals, Block.terminals, conditionFront]
  | tryBody => simp [plug, front, back, Stmt.terminals_tryCatch, Block.terminals]
  | handlerBody => simp [plug, front, back, Stmt.terminals_tryCatch, Block.terminals]

theorem grammatical_plug {f : StmtFrame} {ss ss' : List Stmt} (h : (f.plug ss).Grammatical)
    (hss : Stmt.ListGrammatical ss') : (f.plug ss').Grammatical := by
  cases f with
  | block => exact hss
  | ifBody => exact ⟨h.1, hss, h.2.2⟩
  | branch => exact ⟨h.1, h.2.1, ChainFrame.grammatical_plug h.2.2 hss⟩
  | whileBody => exact ⟨h.1, hss⟩
  | tryBody => exact ⟨hss, h.2⟩
  | handlerBody => exact ⟨h.1, hss⟩

theorem listGrammatical_of_plug {f : StmtFrame} {ss : List Stmt} (h : (f.plug ss).Grammatical) :
    Stmt.ListGrammatical ss := by
  cases f with
  | block => exact h
  | ifBody => exact h.2.1
  | branch => exact ChainFrame.listGrammatical_of_plug h.2.2
  | whileBody => exact h.2
  | tryBody => exact h.1
  | handlerBody => exact h.2

theorem nesting_plug (f : StmtFrame) {ss ss' : List Stmt} {k : Nat}
    (h : Stmt.listNesting ss' ≤ Stmt.listNesting ss + k) : (f.plug ss').nesting ≤ (f.plug ss).nesting + k := by
  cases f with
  | branch c body others =>
    have hothers := others.nesting_plug h
    simp only [plug, Stmt.nesting]
    omega
  | _ => simp only [plug, Stmt.nesting, Block.nesting]; omega

end StmtFrame

/-! ## Slots -/

/-- A place for statements: between the statements of a list, or in a block of one of them. -/
inductive Slot where
  | here (before after : List Stmt)
  | inside (before : List Stmt) (frame : StmtFrame) (inner : Slot) (after : List Stmt)

namespace Slot

/-- The list with statements in the gap. -/
def fill : Slot → List Stmt → List Stmt
  | here before after, ss => before ++ (ss ++ after)
  | inside before frame inner after, ss => before ++ frame.plug (inner.fill ss) :: after

/-- The terminals in front of the gap. -/
def front : Slot → List Token
  | here before _ => Stmt.listTerminals before
  | inside before frame inner _ => Stmt.listTerminals before ++ (frame.front ++ inner.front)

/-- The terminals behind the gap. -/
def back : Slot → List Token
  | here _ after => Stmt.listTerminals after
  | inside _ frame inner after => inner.back ++ (frame.back ++ Stmt.listTerminals after)

theorem terminals_fill (slot : Slot) (ss : List Stmt) :
    Stmt.listTerminals (slot.fill ss) = slot.front ++ (Stmt.listTerminals ss ++ slot.back) := by
  induction slot with
  | here before after => simp [fill, front, back, Stmt.listTerminals_append]
  | inside before frame inner after ih =>
    simp [fill, front, back, Stmt.listTerminals_append, Stmt.listTerminals, frame.terminals_plug, ih]

theorem grammatical_fill {slot : Slot} {ss ss' : List Stmt} (h : Stmt.ListGrammatical (slot.fill ss))
    (hss : Stmt.ListGrammatical ss') : Stmt.ListGrammatical (slot.fill ss') := by
  induction slot with
  | here before after =>
    simp only [fill, Stmt.listGrammatical_append] at h ⊢
    exact ⟨h.1, hss, h.2.2⟩
  | inside before frame inner after ih =>
    simp only [fill, Stmt.listGrammatical_append, Stmt.ListGrammatical] at h ⊢
    exact ⟨h.1, StmtFrame.grammatical_plug h.2.1 (ih (StmtFrame.listGrammatical_of_plug h.2.1)), h.2.2⟩

theorem listGrammatical_of_fill {slot : Slot} {ss : List Stmt} (h : Stmt.ListGrammatical (slot.fill ss)) :
    Stmt.ListGrammatical ss := by
  induction slot with
  | here before after =>
    rw [fill, Stmt.listGrammatical_append, Stmt.listGrammatical_append] at h
    exact h.2.1
  | inside before frame inner after ih =>
    rw [fill, Stmt.listGrammatical_append] at h
    exact ih (StmtFrame.listGrammatical_of_plug h.2.1)

theorem nesting_fill (slot : Slot) {ss ss' : List Stmt} {k : Nat}
    (h : Stmt.listNesting ss' ≤ Stmt.listNesting ss + k) :
    Stmt.listNesting (slot.fill ss') ≤ Stmt.listNesting (slot.fill ss) + k := by
  induction slot with
  | here before after =>
    simp only [fill, Stmt.listNesting_append]
    omega
  | inside before frame inner after ih =>
    have hframe := frame.nesting_plug ih
    simp only [fill, Stmt.listNesting_append, Stmt.listNesting]
    omega

end Slot

end EvlCheck
