/-
Strings that print statements print alone. Where ambiguities are reported, the parser warns of each of
them where it begins. This is stated of the nodes that were made on the way from one state to a later
one (`Tells`), beside what the rules read on it.
-/
import EvlCheck.Proofs.Parsing.Steady
import Mathlib.Data.Prod.Lex

namespace EvlCheck

/-! ## Places -/

/-- The line and the column, in the order of reading. -/
def Position.place (p : Position) : Nat ×ₗ Nat := toLex (p.line, p.charInLine)

/-- The line and the column, in the order of reading. -/
def SyntaxDiagnostic.place (d : SyntaxDiagnostic) : Nat ×ₗ Nat := toLex (d.line, d.column)

/-! ## The strings in a tree -/

/-- The kind is neither that of an expression nor that of a string that is printed alone. -/
def NodeKind.isStructural : NodeKind → Bool
  | .expression _ | .stringArg _ => false
  | _ => true

theorem NodeKind.ne_expression {kind : NodeKind} (h : kind.isStructural = true) (e : Expr) :
    kind ≠ .expression e := by
  rintro rfl
  cases h

namespace Node

/-- Where the node begins, if it is a string that is printed alone. -/
def loneString? : Node → Option (Nat ×ₗ Nat)
  | .mk (.stringArg _) span _ => some span.start.place
  | _ => none

mutual

/-- Where the strings begin that are printed alone, at the node and below it, in order. -/
def loneStrings : Node → List (Nat ×ₗ Nat)
  | .mk kind span children =>
    (loneString? (.mk kind span children)).toList ++ allLoneStrings children

/-- The same for some nodes and below them. -/
def allLoneStrings : List Node → List (Nat ×ₗ Nat)
  | [] => []
  | n :: rest => n.loneStrings ++ allLoneStrings rest

end

theorem allLoneStrings_append (xs ys : List Node) :
    allLoneStrings (xs ++ ys) = allLoneStrings xs ++ allLoneStrings ys := by
  induction xs with
  | nil => rfl
  | cons n rest ih => rw [List.cons_append, allLoneStrings, ih, allLoneStrings, List.append_assoc]

theorem allLoneStrings_single (n : Node) : allLoneStrings [n] = n.loneStrings := by
  rw [allLoneStrings, allLoneStrings, List.append_nil]

/-- A node of another kind is no such string. -/
theorem loneStrings_of_structural {kind : NodeKind} (h : kind.isStructural = true) (span : Span)
    (children : List Node) : (Node.mk kind span children).loneStrings = allLoneStrings children := by
  rw [loneStrings]
  cases kind <;> first | rfl | cases h

theorem loneStrings_expression (e : Expr) (span : Span) (children : List Node) :
    (Node.mk (.expression e) span children).loneStrings = allLoneStrings children := rfl

theorem loneStrings_stringArg (text : String) (span : Span) :
    (Node.mk (.stringArg text) span []).loneStrings = [span.start.place] := rfl

mutual

theorem filterMap_preorderOnto (level : Nat) (earlier : List (Nat × Node)) (n : Node) :
    (n.preorderOnto level earlier).filterMap (fun x => x.2.loneString?) =
      n.loneStrings.reverse ++ earlier.filterMap (fun x => x.2.loneString?) := by
  obtain ⟨kind, span, children⟩ := n
  rw [preorderOnto, filterMap_preorderAllOnto, loneStrings, List.reverse_append, List.append_assoc,
    List.filterMap_cons]
  dsimp only
  cases loneString? (.mk kind span children) <;> rfl

theorem filterMap_preorderAllOnto (level : Nat) (earlier : List (Nat × Node)) (nodes : List Node) :
    (preorderAllOnto level earlier nodes).filterMap (fun x => x.2.loneString?) =
      (allLoneStrings nodes).reverse ++ earlier.filterMap (fun x => x.2.loneString?) := by
  match nodes with
  | [] => rfl
  | n :: rest =>
    rw [preorderAllOnto, filterMap_preorderAllOnto, filterMap_preorderOnto, allLoneStrings,
      List.reverse_append, List.append_assoc]

end

/-- They are those of the nodes from the root on. -/
theorem filterMap_preorder (n : Node) :
    n.preorder.filterMap (fun x => x.2.loneString?) = n.loneStrings := by
  rw [preorder, List.filterMap_reverse, filterMap_preorderOnto, List.filterMap_nil, List.append_nil,
    List.reverse_reverse]

end Node

/-! ## Warnings -/

/-- The warnings among the reports, the last one first. -/
def Reporter.warnings [Build] (r : Reporter) : List SyntaxDiagnostic := r.reported.filter
    (!·.isError)

namespace Parser

variable [Build]

/-- The places that were warned of, the last one first. -/
def warned (p : Parser) : List (Nat ×ₗ Nat) := p.reporter.warnings.map (·.place)

/-- The warning stands where the string does. -/
theorem reported_reportLoneString {p : Parser} (hindexed : p.stream.Indexed) :
    p.reportLoneString = p ∧ (p.preferences.reportAmbiguities = false ∨ p.halted = true) ∨
      ∃ d : SyntaxDiagnostic, d.isError = false ∧ d.place = p.stream.current.span.start.place ∧
        p.reportLoneString.reporter.reported = d :: p.reporter.reported ∧
        p.preferences.reportAmbiguities = true := by
  have hfound := hindexed.current
  unfold reportLoneString
  split
  · next hsilent => exact .inl ⟨rfl, by simpa using hsilent⟩
  · next htells =>
    refine .inr ⟨_, rfl, ?_, Reporter.reported_push _ _, ?_⟩
    · unfold SyntaxDiagnostic.place Reporter.AmbiguityPlace.resolve TokenStream.lineAt?
        TokenStream.columnAt?
      dsimp only [Parser.log]
      rw [hfound]
      rfl
    · rw [Bool.or_eq_true, not_or] at htells
      simpa using htells.1

theorem warned_reportLoneString {p : Parser} (hindexed : p.stream.Indexed)
    (hrunning : p.halted = false) :
    p.reportLoneString.warned =
      (if p.preferences.reportAmbiguities then [p.stream.current.span.start.place] else []) ++
        p.warned := by
  rcases reported_reportLoneString hindexed with ⟨hsame, hsilent⟩ | ⟨d, hd, hplace, hreported, htells⟩
  · rw [hsame, hsilent.resolve_right (by simp [hrunning])]
    rfl
  · unfold warned Reporter.warnings
    rw [hreported, List.filter_cons_of_pos (by rw [hd]; rfl), List.map_cons, hplace, htells]
    rfl

/-- On the way from a state to a later one, the strings among some nodes were warned of, if that is
wished, and nothing else. -/
def Tells (p : Parser) (nodes : List Node) (q : Parser) : Prop :=
  p.stream.Indexed → q.warned =
    (if p.preferences.reportAmbiguities then (Node.allLoneStrings nodes).reverse else []) ++ p.warned

namespace Tells

variable {p q r : Parser} {ns ms : List Node}

theorem of_silent (h : q.warned = p.warned) (hns : Node.allLoneStrings ns = []) : Tells p ns q := by
  intro _
  rw [h, hns, List.reverse_nil, ite_self, List.nil_append]

theorem trans (hpq : Onward p q) (h : Tells p ns q) (h' : Tells q ms r) : Tells p (ns ++ ms) r := by
  intro hindexed
  rw [h' (hindexed.congr hpq.all hpq.tokens), h hindexed, hpq.preferences,
    Node.allLoneStrings_append, List.reverse_append, ← List.append_assoc]
  split <;> rfl

theorem congr (h : Tells p ns q) (hns : Node.allLoneStrings ms = Node.allLoneStrings ns) :
    Tells p ms q := by
  unfold Tells
  rw [hns]
  exact h

/-- The nodes may be below another one. -/
theorem node (h : Tells p ns q) {kind : NodeKind} (hk : kind.isStructural = true) (span : Span) :
    Tells p [.mk kind span ns] q :=
  h.congr (by rw [Node.allLoneStrings_single, Node.loneStrings_of_structural hk])

theorem expression (h : Tells p ns q) (e : Expr) (span : Span) :
    Tells p [.mk (.expression e) span ns] q :=
  h.congr (by rw [Node.allLoneStrings_single, Node.loneStrings_expression])

end Tells

end Parser

/-! ## Warnings that are not wished -/

/-- Warnings are not wished, and there are no more of them than before. -/
structure Parser.Unwarned [Build] (earlier : List SyntaxDiagnostic) (p : Parser) : Prop where
  preference : p.preferences.reportAmbiguities = false
  warnings : p.reporter.warnings = earlier

namespace Parsing

open EvlCheck.Parser

variable [Build] {earlier : List SyntaxDiagnostic} {p : Parser}

theorem unwarned_reportError (h : p.Unwarned earlier) (e : SyntaxError) :
    (p.reportError e).Unwarned earlier := by
  refine ⟨(onward_reportError p e).preferences ▸ h.preference, ?_⟩
  unfold Parser.reportError
  split
  · exact h.warnings
  · unfold Reporter.warnings Reporter.syntaxError
    dsimp only [Parser.log]
    rw [Reporter.reported_push, List.filter_cons_of_neg (by simp [Reporter.errorReport, SyntaxDiagnostic.isError])]
    exact h.warnings

theorem unwarned_reportLoneString (h : p.Unwarned earlier) : p.reportLoneString.Unwarned earlier := by
  unfold Parser.reportLoneString
  rw [if_pos (by rw [h.preference]; rfl)]
  exact h

theorem lasting_unwarned (earlier : List SyntaxDiagnostic) : Lasting (Unwarned earlier) where
  log _ h := ⟨h.preference, h.warnings⟩
  record _ h := ⟨h.preference, h.warnings⟩
  advance h := ⟨h.preference, h.warnings⟩
  reportLoneString := unwarned_reportLoneString
  reportError e h _ := unwarned_reportError h e
  afterFailure {p} inBlock start e h _ := by
    refine ⟨(preferences_afterFailure inBlock start e p).symm ▸ h.preference, ?_⟩
    unfold Reporter.warnings
    rw [reported_afterFailure]
    exact (unwarned_reportError h e).warnings

end Parsing

end EvlCheck
