/-
No step of parsing goes back. Every rule, whether it succeeds or not, keeps the tokens, leaves the
cursor where it was or further on, and forgets no error; so does recovery behind a statement that
failed, which moreover is never without an error.
-/
import EvlCheck.Proofs.Parsing.Rules

namespace EvlCheck

/-! ## Recovery -/

namespace Parser

/-- A stream over the same tokens, at the same place or further on. -/
structure Ahead (s s' : TokenStream) : Prop where
  tokens : s'.significant = s.significant
  all : s'.all = s.all
  position : s.position ≤ s'.position

theorem Ahead.refl (s : TokenStream) : Ahead s s := ⟨rfl, rfl, Nat.le_refl _⟩

theorem ahead_advance (s : TokenStream) : Ahead s s.advance :=
  ⟨s.significant_advance, s.all_advance, s.position_le_advance⟩

theorem Ahead.trans {s s' s'' : TokenStream} (h : Ahead s s') (h' : Ahead s' s'') : Ahead s s'' :=
  ⟨h'.tokens.trans h.tokens, h'.all.trans h.all, Nat.le_trans h.position h'.position⟩

theorem ahead_skipToEnd_go (n : Nat) (s : TokenStream) : Ahead s (skipToEnd.go n s) := by
  induction n generalizing s with
  | zero => exact .refl s
  | succ n ih =>
    unfold skipToEnd.go
    split
    · exact .refl s
    · exact (ahead_advance s).trans (ih s.advance)

theorem ahead_skipToEnd (s : TokenStream) : Ahead s (skipToEnd s) := ahead_skipToEnd_go _ s

theorem ahead_resume? [Build] {inBlock : Bool} {n : Nat} {s s' : TokenStream}
    (h : resume? inBlock n s = some s') : Ahead s s' := by
  induction n generalizing s with
  | zero =>
    unfold resume? at h
    split at h
    · cases h; exact .refl _
    · cases h
  | succ n ih =>
    unfold resume? at h
    split at h
    · cases h; exact .refl _
    · exact (ahead_advance s).trans (ih h)

@[simp] theorem preferences_recover [Build] (p : Parser) (inBlock : Bool) :
    (p.recover inBlock).preferences = p.preferences := by
  unfold recover
  split
  · rfl
  · cases resume? inBlock Limit.recoveryScan p.stream <;> rfl

/-- Recovery reports nothing. -/
@[simp] theorem reported_recover [Build] (p : Parser) (inBlock : Bool) :
    (p.recover inBlock).reporter.reported = p.reporter.reported := by
  unfold recover
  split
  · rfl
  · cases resume? inBlock Limit.recoveryScan p.stream <;> rfl

/-- Recovery moves the cursor on and keeps the errors. -/
theorem recover_ahead [Build] (p : Parser) (inBlock : Bool) :
    Ahead p.stream (p.recover inBlock).stream ∧ (p.recover inBlock).history = p.history := by
  unfold recover
  by_cases hr : p.preferences.recovery = true
  · simp only [hr, Bool.not_true, Bool.false_eq_true, if_false]
    cases hs : resume? inBlock Limit.recoveryScan p.stream with
    | none => exact ⟨ahead_skipToEnd p.stream, rfl⟩
    | some s => exact ⟨ahead_resume? hs, rfl⟩
  · simp only [hr, Bool.not_false, if_true]
    exact ⟨ahead_skipToEnd p.stream, trivial⟩

end Parser

open EvlCheck.Parser

namespace Parsing

variable [Build]

/-- The state behind a failed statement lies ahead, with the errors that were reported. -/
theorem afterFailure_ahead (inBlock : Bool) (start : Nat) (e : SyntaxError) (p : Parser) :
    Ahead p.stream (afterFailure inBlock start e p).stream ∧
      (afterFailure inBlock start e p).history = (p.reportError e).history := by
  obtain ⟨hahead, hhistory⟩ := (p.reportError e).recover_ahead inBlock
  rw [stream_reportError] at hahead
  unfold afterFailure
  dsimp only
  split
  · exact ⟨hahead.trans (ahead_advance _), hhistory⟩
  · exact ⟨hahead, hhistory⟩

/-- Nothing but the error of the statement is reported. -/
@[simp] theorem reported_afterFailure (inBlock : Bool) (start : Nat) (e : SyntaxError) (p : Parser) :
    (afterFailure inBlock start e p).reporter.reported = (p.reportError e).reporter.reported := by
  have hrecover := (p.reportError e).reported_recover inBlock
  unfold afterFailure
  dsimp only
  split
  · exact hrecover
  · exact hrecover

@[simp] theorem errors_afterFailure (inBlock : Bool) (start : Nat) (e : SyntaxError) (p : Parser) :
    (afterFailure inBlock start e p).errors = (p.reportError e).errors :=
  congrArg (List.filter SyntaxDiagnostic.isError) (reported_afterFailure inBlock start e p)

theorem preferences_afterFailure (inBlock : Bool) (start : Nat) (e : SyntaxError) (p : Parser) :
    (afterFailure inBlock start e p).preferences = p.preferences := by
  have hrecover : ((p.reportError e).recover inBlock).preferences = p.preferences := by
    rw [preferences_recover, (onward_reportError p e).preferences]
  unfold afterFailure
  dsimp only
  split
  · exact hrecover
  · exact hrecover

theorem not_clean_afterFailure {inBlock : Bool} {start : Nat} {e : SyntaxError} {p : Parser}
    (hp : p.Ready) : ¬ (afterFailure inBlock start e p).Clean := by
  intro h
  unfold Clean at h
  rw [(afterFailure_ahead inBlock start e p).2] at h
  exact not_clean_reportError hp h

theorem onward_afterFailure (inBlock : Bool) (start : Nat) (e : SyntaxError) (p : Parser) :
    Onward p (afterFailure inBlock start e p) := by
  obtain ⟨hahead, hhistory⟩ := afterFailure_ahead inBlock start e p
  have hclean : (afterFailure inBlock start e p).Clean → (p.reportError e).Clean := by
    intro h; unfold Clean at h ⊢; rwa [← hhistory]
  refine ⟨hahead.tokens, hahead.all, hahead.position, preferences_afterFailure inBlock start e p,
    fun h => (onward_reportError p e).clean (hclean h), fun hp h => ?_⟩
  -- Without a new error the parse has stopped before, which takes an old one.
  obtain ⟨hh, heq⟩ := clean_reportError (hclean h)
  have := hp (heq ▸ hclean h)
  rw [hh] at this
  cases this

end Parsing

/-! ## Steps that never go back -/

/-- What lies behind a state is reached from it by moves that destroy nothing. -/
theorem Parser.unbroken_onward [Build] (p : Parser) : Unbroken (Onward p) where
  log _ h := ⟨h.tokens, h.all, h.position, h.preferences, h.clean, h.running⟩
  record _ h := ⟨h.tokens, h.all, h.position, h.preferences, h.clean, h.running⟩
  reportLoneString h := h.trans (onward_reportLoneString _)
  advance h _ := h.trans (onward_advance _)

/-- What holds on from each state is destroyed by no move. -/
theorem Unbroken.of_onward [Build] {K : Parser → Prop} (hK : ∀ {p q}, Onward p q → K p → K q) :
    Unbroken K where
  log {p} e hp := hK (p.unbroken_onward.log e (.refl p)) hp
  record {p} s hp := hK (p.unbroken_onward.record s (.refl p)) hp
  reportLoneString {p} hp := hK (onward_reportLoneString p) hp
  advance {p} hp _ := hK (onward_advance p) hp

/-- The state behind the step is never before the state it starts from. -/
def ParseM.Steady [Build] {α : Type} (m : ParseM α) : Prop := ∀ p, Onward p (m p).2

namespace ParseM

variable [Build] {α : Type}

theorem Steady.onward {m : ParseM α} (hm : Steady m) {p q : Parser} {r : Except SyntaxError α}
    (h : m p = (r, q)) : Onward p q := by
  have hp := hm p
  rwa [h] at hp

/-- What holds on from each state is kept by a step that never goes back. -/
theorem Leads.of_onward {m : ParseM α} (hm : ∀ p, m.Leads (Onward p) (Onward p) (Onward p))
    {K : Parser → Prop} (hK : ∀ {p q}, Onward p q → K p → K q) : m.Leads K K K where
  ok {p _ _} hp h := hK ((hm p).ok (.refl p) h) hp
  error {p _ _} hp h := ((hm p).error (.refl p) h).imp_left fun hq => hK hq hp

theorem Steady.of_leads {m : ParseM α} (hm : ∀ p, m.Leads (Onward p) (Onward p) (Onward p)) :
    Steady m := by
  intro p
  rcases hr : m p with ⟨e | a, q⟩
  · exact ((hm p).error (.refl p) hr).1
  · exact (hm p).ok (.refl p) hr

theorem steady_of_inner {m : ParseM α} (hm : Inner m) : Steady m :=
  .of_leads fun p => hm p.unbroken_onward.toWordless

end ParseM

namespace Parsing

open ParseM

variable [Build]

theorem steady_expressionFrom_operand (n : Nat) :
    (∀ least, Steady (expressionFrom n least)) ∧ Steady (operand n) := by
  obtain ⟨hexpression, hoperand⟩ := inner_expressionFrom_operand n
  exact ⟨fun least => steady_of_inner (hexpression least), steady_of_inner hoperand⟩

theorem lasting_onward (p : Parser) : Lasting (Onward p) where
  log e h := p.unbroken_onward.log e h
  record s h := p.unbroken_onward.record s h
  advance h := h.trans (onward_advance _)
  reportLoneString h := h.trans (onward_reportLoneString _)
  reportError e h _ := h.trans (onward_reportError _ e)
  afterFailure inBlock start e h _ := h.trans (onward_afterFailure inBlock start e _)

theorem onward_closeBlock (p : Parser) : Onward p (closeBlock p) :=
  (lasting_onward p).closeBlock (.refl p)

/-- Statements and blocks never go back, and fail at the token under the cursor. -/
theorem leads_statement_block (n : Nat) :
    (∀ p, (statement n).Leads (Onward p) (Onward p) (Onward p)) ∧
      ∀ p, (block n).Leads (Onward p) (Onward p) (Onward p) :=
  ⟨fun p => ((lasting_onward p).leads_statement_block n).1,
    fun p => ((lasting_onward p).leads_statement_block n).2⟩

theorem steady_statement_block (n : Nat) : Steady (statement n) ∧ Steady (block n) := by
  obtain ⟨hstatement, hblock⟩ := leads_statement_block n
  exact ⟨.of_leads hstatement, .of_leads hblock⟩

theorem onward_afterTurn {statement : ParseM Stmt} (hs : Steady statement) (inBlock : Bool)
    (p : Parser) : Onward p (afterTurn statement inBlock p) := by
  rcases hr : statement p with ⟨e | s, q⟩
  · rw [afterTurn_of_error hr]
    exact (hs.onward hr).trans (onward_afterFailure inBlock _ e q)
  · rw [afterTurn_of_ok hr]
    exact hs.onward hr

theorem onward_statementsFrom {statement : ParseM Stmt} (hs : Steady statement) (inBlock : Bool)
    (tokens : Nat) (done : Array Stmt) (p : Parser) :
    Onward p (statementsFrom statement inBlock tokens done p).2 :=
  statementsFrom_keeps (fun _ h _ => h.trans (onward_afterTurn hs inBlock _)) tokens done (.refl p)

end Parsing

end EvlCheck
