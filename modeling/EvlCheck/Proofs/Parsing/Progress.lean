/-
Parsing gets on, ends, and reports no more errors than there are tokens. Each turn of the loop over
statements takes the cursor on, since a statement that is read has a token, and recovery goes over
at least one token where a statement is not read. So the turns that the loop may make are enough,
and the loop stops because the list ends.

The errors are counted against the tokens that the cursor went over (`Paid`). A statement that fails
behind its first token has one token left to pay for its own error with (`Spare`); one that fails at
its first token has reported nothing, and the token that recovery then goes over pays for it. The
opening brace of a block pays for the error that the block is not closed.
-/
import EvlCheck.Parsing.Parse
import EvlCheck.Proofs.Parsing.Steady

namespace EvlCheck

/-- Tokens inside statements are not the end. -/
theorem Token.ne_eof_of_isInner {t : Token} (h : t.isInner = true) : t ≠ .eof := by
  rintro rfl
  cases h

theorem TokenStream.current_ne_eof {s : TokenStream} (h : s.atEnd = false) :
    s.current.value ≠ .eof := by
  intro heof
  unfold atEnd at h
  rw [heof] at h
  cases h

namespace Parser

theorem position_lt_advance [Build] {p : Parser} (hp : p.stream.Ended)
    (hc : p.stream.current.value ≠ .eof) :
    p.position < p.advance.position := by
  have hmove : p.advance.position = p.position + 1 := TokenStream.position_advance hp hc
  omega

/-- Under the cursor is the token that its place is at. -/
theorem current_congr [Build] {p q : Parser} (htokens : q.stream.significant = p.stream.significant)
    (hposition : q.position = p.position) : q.stream.current = p.stream.current := by
  have hp := p.stream.getElem?_position
  have hq := q.stream.getElem?_position
  unfold position at hposition
  rw [htokens, hposition, hp] at hq
  exact (Option.some.inj hq).symm

end Parser

namespace Parsing

open EvlCheck.Parser ParseM

/-! ## A statement has a token -/

/-- The cursor is at a place. -/
structure At [Build] (k : Nat) (p : Parser) : Prop where
  ended : p.stream.Ended
  position : p.position = k

/-- The cursor is behind a place. -/
structure Past [Build] (k : Nat) (p : Parser) : Prop where
  ended : p.stream.Ended
  position : k < p.position

theorem Past.onward [Build] {k : Nat} {p q : Parser} (h : Onward p q) (hp : Past k p) : Past k q :=
  ⟨h.ended hp.ended, Nat.lt_of_lt_of_le hp.position h.position⟩

theorem At.advance [Build] {k : Nat} {p : Parser} (hp : At k p)
    (hc : p.stream.current.value ≠ .eof) :
    Past k p.advance := by
  refine ⟨(onward_advance p).ended hp.ended, ?_⟩
  rw [← hp.position]
  exact position_lt_advance hp.ended hc

theorem unbroken_past [Build] (k : Nat) : Unbroken (Past k) := .of_onward Past.onward

theorem stages_past [Build] (k : Nat) :
    Stages (At k) (Past k) (Past k) (Past k) (Past k) (fun _ => True) where
  plain_flat := (unbroken_past k).toFlat
  inner_flat := (unbroken_past k).flat
  first hp ht := hp.advance (Token.ne_eof_of_isInner ht)
  word hp ht := hp.advance (by rw [ht]; simp)
  behind_inner hp := hp
  next hp _ := hp.onward (onward_advance _)
  nextTwo hp _ _ := (hp.onward (onward_advance _)).onward (onward_advance _)
  start_fails _ := trivial
  plain_ends hp := ⟨hp, trivial⟩
  inner_ends hp := ⟨hp, trivial⟩

theorem leads_past_block [Build] (n k : Nat) : (block n).Leads (At k) (Past k) (fun _ => True) := by
  cases n with
  | zero =>
    unfold block
    exact ⟨fun _ h => absurd h tooDeep_ne_ok, fun _ h => ⟨trivial, by cases h; rfl⟩⟩
  | succ n =>
    have hsteady := (steady_statement_block n).1
    have hbody : (blockBody (statement n)).Leads (At k) (Past k) (fun _ => True) := by
      refine leads_blockBody (Past k) (Past k) (fun _ _ => trivial) (fun p hp hc => ?_) ?_ ?_
      · refine hp.advance ?_
        rw [Token.eq_of_sameKind_symbol hc]
        simp
      · exact fun p hp => hp.onward (onward_statementsFrom hsteady true _ _ p)
      · exact fun p hp => hp.onward (onward_closeBlock p)
    unfold block
    exact hbody.withRule (fun _ hp => ⟨hp.ended, hp.position⟩) (fun _ hp => ⟨hp.ended, hp.position⟩)
      fun _ hp => hp

theorem leads_past_statement [Build] (n k : Nat) : (statement n).Leads (At k) (Past k)
    (fun _ => True) := by
  cases n with
  | zero =>
    unfold statement
    exact ⟨fun _ h => absurd h tooDeep_ne_ok, fun _ h => ⟨trivial, by cases h; rfl⟩⟩
  | succ n =>
    have hinside : (block n).Leads (Past k) (Past k) (Past k) :=
      .of_onward (leads_statement_block n).2 Past.onward
    have hvalue := inner_expression n (unbroken_past k).toWordless
    have hbody := (stages_past k).leads_statementBody hvalue hinside hvalue (leads_past_block n k)
    unfold statement
    exact hbody.withRule (fun _ hp => ⟨hp.ended, hp.position⟩) (fun _ hp => ⟨hp.ended, hp.position⟩)
      fun _ hp => hp

/-! ## The loop over statements gets on -/

variable {inBlock : Bool}

theorem atEnd_of_listEnds {s : TokenStream} (h : listEnds inBlock s = false) : s.atEnd = false := by
  unfold listEnds at h
  exact (Bool.or_eq_false_iff.1 h).1

/-- Behind a failed statement the cursor is behind the place where the statement began. -/
theorem lt_position_afterFailure [Build] {p q : Parser} {e : SyntaxError} (h : Onward p q)
    (hp : p.stream.Ended) (hends : p.stream.atEnd = false) :
    p.position < (afterFailure inBlock p.position e q).position := by
  have hahead := ((q.reportError e).recover_ahead inBlock).1
  rw [stream_reportError] at hahead
  have hle : p.position ≤ ((q.reportError e).recover inBlock).position :=
    Nat.le_trans h.position hahead.position
  unfold afterFailure
  dsimp only
  by_cases hstuck : ((q.reportError e).recover inBlock).position = p.position
  · -- Recovery stopped at the first token of the statement, which is not the end.
    rw [if_pos hstuck]
    have hcurrent := current_congr (hahead.tokens.trans h.tokens) hstuck
    rw [← hstuck]
    refine position_lt_advance (hp.congr (hahead.tokens.trans h.tokens)) ?_
    rw [hcurrent]
    exact TokenStream.current_ne_eof hends
  · rw [if_neg hstuck]
    omega

/-- Every turn of the loop takes the cursor on. -/
theorem lt_position_afterTurn [Build] (n : Nat) {p : Parser} (hp : p.stream.Ended)
    (hends : listEnds inBlock p.stream = false) :
    p.position < (afterTurn (statement n) inBlock p).position := by
  rcases hs : statement n p with ⟨e | s, q⟩
  · rw [afterTurn_of_error hs]
    exact lt_position_afterFailure ((steady_statement_block n).1.onward hs) hp
      (atEnd_of_listEnds hends)
  · rw [afterTurn_of_ok hs]
    exact ((leads_past_statement n p.position).ok ⟨hp, rfl⟩ hs).position

/-- With as many turns as there are tokens left, the loop stops because the list ends. -/
theorem listEnds_statementsFrom [Build] (n : Nat) {tokens : Nat} (done : Array Stmt) {p : Parser}
    (hp : p.stream.Ended) (henough : p.stream.size ≤ tokens + p.position) :
    listEnds inBlock (statementsFrom (statement n) inBlock tokens done p).2.stream = true := by
  induction tokens generalizing done p with
  | zero =>
    -- There would be no token under the cursor, not even the end.
    have := p.stream.position_lt
    unfold Parser.position TokenStream.size at henough
    omega
  | succ tokens ih =>
    cases hends : listEnds inBlock p.stream with
    | true =>
      rw [statementsFrom_of_ends hends]
      exact hends
    | false =>
      obtain ⟨done', hnext⟩ := statementsFrom_succ (statement n) hends
      have hmove := onward_afterTurn (steady_statement_block n).1 inBlock p
      have hlt := lt_position_afterTurn n hp hends
      rw [hnext]
      refine ih done' (hmove.ended hp) ?_
      rw [hmove.size_eq]
      omega

theorem listEnds_statements [Build] (n : Nat) {p : Parser} (hp : p.stream.Ended) :
    listEnds inBlock (statements (statement n) inBlock p).2.stream = true :=
  listEnds_statementsFrom n #[] hp (Nat.le_add_right _ _)

/-! ## Errors are paid for with tokens -/

/-- No error was reported since a state, and the cursor is at its place. -/
structure Level [Build] (p₀ p : Parser) : Prop where
  ended : p.stream.Ended
  errors : p.errors.length = p₀.errors.length
  position : p.position = p₀.position

/-- Since a state no more errors were reported than tokens were gone over. -/
structure Paid [Build] (p₀ p : Parser) : Prop where
  ended : p.stream.Ended
  covered : p.errors.length + p₀.position ≤ p₀.errors.length + p.position

/-- Since a state fewer errors were reported than tokens were gone over. -/
structure Spare [Build] (p₀ p : Parser) : Prop where
  ended : p.stream.Ended
  covered : p.errors.length + p₀.position < p₀.errors.length + p.position

theorem Level.refl [Build] {p : Parser} (hp : p.stream.Ended) : Level p p := ⟨hp, rfl, rfl⟩

theorem Spare.paid [Build] {p₀ p : Parser} (h : Spare p₀ p) : Paid p₀ p :=
  ⟨h.ended, Nat.le_of_lt h.covered⟩

theorem Spare.trans [Build] {p₀ p q : Parser} (h : Spare p₀ p) (h' : Paid p q) : Spare p₀ q := by
  refine ⟨h'.ended, ?_⟩
  have := h.covered
  have := h'.covered
  omega

theorem Level.advance [Build] {p₀ p : Parser} (h : Level p₀ p)
    (hc : p.stream.current.value ≠ .eof) :
    Spare p₀ p.advance := by
  refine ⟨(onward_advance p).ended h.ended, ?_⟩
  have := position_lt_advance h.ended hc
  rw [errors_advance, h.errors, ← h.position]
  omega

theorem Spare.advance [Build] {p₀ p : Parser} (h : Spare p₀ p) : Spare p₀ p.advance := by
  refine ⟨(onward_advance p).ended h.ended, ?_⟩
  have := h.covered
  have : p.position ≤ p.advance.position := (onward_advance p).position
  rw [errors_advance]
  omega

theorem unbroken_spare [Build] (p₀ : Parser) : Unbroken (Spare p₀) where
  log _ h := ⟨h.ended, h.covered⟩
  record _ h := ⟨h.ended, h.covered⟩
  reportLoneString {p} h := by
    have honward := onward_reportLoneString p
    refine ⟨honward.ended h.ended, ?_⟩
    have := h.covered
    have : p.position ≤ p.reportLoneString.position := honward.position
    rw [errors_reportLoneString]
    omega
  advance h _ := h.advance

/-- Where a statement fails, it has not begun or can pay for one more error. -/
def Unpaid [Build] (p₀ p : Parser) : Prop := Level p₀ p ∨ Spare p₀ p

theorem stages_paid [Build] (p₀ : Parser) :
    Stages (Level p₀) (Spare p₀) (Spare p₀) (Spare p₀) (Paid p₀) (Unpaid p₀) where
  plain_flat := (unbroken_spare p₀).toFlat
  inner_flat := (unbroken_spare p₀).flat
  first h ht := h.advance (Token.ne_eof_of_isInner ht)
  word h ht := h.advance (by rw [ht]; simp)
  behind_inner h := h
  next h _ := h.advance
  nextTwo h _ _ := h.advance.advance
  start_fails h := .inl h
  plain_ends h := ⟨h.paid, .inr h⟩
  inner_ends h := ⟨h.paid, .inr h⟩

/-- What is paid for since each state leaves a spare token where there was one before. -/
theorem leads_spare [Build] {α : Type} {m : ParseM α}
    (hm : ∀ p, m.Leads (Level p) (Paid p) (Unpaid p)) (p₀ : Parser) :
    m.Leads (Spare p₀) (Spare p₀) (Spare p₀) where
  ok {p _ _} hp h := hp.trans ((hm p).ok (.refl hp.ended) h)
  error {p q _} hp h := by
    obtain ⟨hq, hspan⟩ := (hm p).error (.refl hp.ended) h
    refine ⟨?_, hspan⟩
    rcases hq with hq | hq
    · refine ⟨hq.ended, ?_⟩
      rw [hq.errors, hq.position]
      exact hp.covered
    · exact hp.trans hq.paid

/-- The error of a failed statement is paid for by a spare token of it, or else by the token that
recovery goes over. -/
theorem paid_afterTurn [Build] {n : Nat}
    (hs : ∀ p, (statement n).Leads (Level p) (Paid p) (Unpaid p)) {p : Parser} (hp : p.stream.Ended)
    (hends : listEnds inBlock p.stream = false) :
    Paid p (afterTurn (statement n) inBlock p) := by
  have hlt := lt_position_afterTurn n hp hends
  have hended := (onward_afterTurn (steady_statement_block n).1 inBlock p).ended hp
  rcases hr : statement n p with ⟨e | s, q⟩
  · rw [afterTurn_of_error hr] at hlt hended ⊢
    refine ⟨hended, ?_⟩
    have hone : (afterFailure inBlock p.position e q).errors.length ≤ q.errors.length + 1 := by
      rw [errors_afterFailure]
      exact length_errors_reportError q e
    rcases ((hs p).error (.refl hp) hr).1 with hq | hq
    · have := hq.errors
      omega
    · have := hq.covered
      have := (onward_afterFailure inBlock p.position e q).position
      omega
  · rw [afterTurn_of_ok hr]
    exact (hs p).ok (.refl hp) hr

theorem spare_closeBlock [Build] {p₀ p : Parser} (h : Spare p₀ p) : Paid p₀ (closeBlock p) := by
  have hmove := onward_closeBlock p
  refine ⟨hmove.ended h.ended, ?_⟩
  have hcovered := h.covered
  have hposition := hmove.position
  suffices hone : (closeBlock p).errors.length ≤ p.errors.length + 1 by omega
  cases hc : p.stream.check (.symbol .rightBrace) with
  | true =>
    rw [closeBlock_of_check hc, errors_advance]
    exact Nat.le_succ _
  | false =>
    obtain ⟨e, he⟩ := closeBlock_of_not_check hc
    rw [he]
    exact length_errors_reportError p e

/-- Every error that a statement or a block reports is paid for. -/
theorem leads_paid_statement_block [Build] (n : Nat) :
    (∀ p₀, (statement n).Leads (Level p₀) (Paid p₀) (Unpaid p₀)) ∧
      ∀ p₀, (block n).Leads (Level p₀) (Paid p₀) (Unpaid p₀) := by
  have henter : ∀ {p₀ p : Parser} {r}, Level p₀ p → Level p₀ (p.enter r) :=
    fun h => ⟨h.ended, h.errors, h.position⟩
  have hleave : ∀ {p₀ p : Parser}, Paid p₀ p → Paid p₀ p.leave := fun h => ⟨h.ended, h.covered⟩
  have hfail : ∀ {p₀ p : Parser}, Unpaid p₀ p → Unpaid p₀ p.leave := by
    rintro p₀ p (h | h)
    · exact .inl ⟨h.ended, h.errors, h.position⟩
    · exact .inr ⟨h.ended, h.covered⟩
  have hdeep : ∀ {α : Type} {r : Rule} (p₀ : Parser),
      (tooDeep r : ParseM α).Leads (Level p₀) (Paid p₀) (Unpaid p₀) := by
    refine fun p₀ => ⟨fun _ h => absurd h tooDeep_ne_ok, fun hp h => ?_⟩
    cases h
    exact ⟨.inl ⟨hp.ended, hp.errors, hp.position⟩, rfl⟩
  induction n with
  | zero =>
    constructor
    · intro p₀
      unfold statement
      exact hdeep p₀
    · intro p₀
      unfold block
      exact hdeep p₀
  | succ n ih =>
    constructor
    · intro p₀
      have hvalue := inner_expression n (unbroken_spare p₀).toWordless
      have hbody := (stages_paid p₀).leads_statementBody hvalue (leads_spare ih.2 p₀) hvalue (ih.2 p₀)
      unfold statement
      exact hbody.withRule (fun _ => henter) (fun _ => hleave) fun _ => hfail
    · intro p₀
      have hinside : ∀ p, Spare p₀ p → Spare p₀ (statements (statement n) true p).2 := by
        intro p hp
        refine statementsFrom_keeps (fun q hq hends => ?_) _ _ hp
        exact hq.trans (paid_afterTurn ih.1 hq.ended hends)
      have hbody : (blockBody (statement n)).Leads (Level p₀) (Paid p₀) (Unpaid p₀) := by
        refine leads_blockBody (Spare p₀) (Spare p₀) (fun _ h => .inl h) (fun p hp hc => ?_) hinside
          fun _ => spare_closeBlock
        refine hp.advance ?_
        rw [Token.eq_of_sameKind_symbol hc]
        simp
      unfold block
      exact hbody.withRule (fun _ => henter) (fun _ => hleave) fun _ => hfail

/-- A whole list of statements reports no more errors than it has tokens. -/
theorem paid_statements [Build] (n : Nat) {p : Parser} (hp : p.stream.Ended) :
    Paid p (statements (statement n) inBlock p).2 := by
  have hstart : Paid p p := ⟨hp, Nat.le_refl _⟩
  refine statementsFrom_keeps (fun q hq hends => ?_) _ _ hstart
  have hturn := paid_afterTurn (leads_paid_statement_block n).1 hq.ended hends
  refine ⟨hturn.ended, ?_⟩
  have := hq.covered
  have := hturn.covered
  omega

end Parsing

/-! ## The whole parse -/

/-- Parsing a stream is reading a program from it: what is shown besides is the journal. -/
theorem Parser.exists_program [Build] (stream : TokenStream) (preferences : ParserPreferences)
    (reporter : Reporter) :
    let result := (start stream preferences reporter).parseProgram
    ∃ p : Parser,
      (p.stream = stream ∧ p.preferences = preferences ∧ p.history = {} ∧ p.halted = false ∧
        p.errors = reporter.errors) ∧
      result.1 = (Parsing.program p).1 ∧ result.2.stream = (Parsing.program p).2.stream ∧
        result.2.history = (Parsing.program p).2.history ∧
        result.2.errors = (Parsing.program p).2.errors :=
  ⟨_, ⟨rfl, rfl, rfl, rfl, rfl⟩, rfl, rfl, rfl, rfl⟩

open EvlCheck.Parser EvlCheck.Parsing

/-- Parsing gets on, ends, and reports no more errors than there are tokens. Whatever the tokens
before the end of the source and whatever the preferences: every turn of the loop over statements
takes the cursor on, in every list of statements, so that the loop stops only where its list ends;
the whole parse stops at the end of the source; and it reports at most as many errors as there are
significant tokens before that. -/
theorem parseProgram_progresses [Build] (front : List SpannedToken) (place : Span)
    (preferences : ParserPreferences) (reporter : Reporter) :
    let stream := TokenStream.ofTokens (front ++ [⟨.eof, place⟩] : List SpannedToken).toArray
    let result := (start stream preferences reporter).parseProgram
    (∀ (free : Nat) (inBlock : Bool) (p : Parser), p.stream.Ended →
      (listEnds inBlock p.stream = false →
        p.position < (afterTurn (statement free) inBlock p).position) ∧
      listEnds inBlock (statements (statement free) inBlock p).2.stream = true) ∧
    result.2.stream.atEnd = true ∧
    result.2.errors.length ≤
      reporter.errors.length + (front.filter (·.value.isSignificant)).length := by
  intro stream result
  refine ⟨fun free inBlock p hp => ⟨lt_position_afterTurn free hp,
    listEnds_statements free hp⟩, ?_⟩
  obtain ⟨p, ⟨hstream, -, -, -, herrors⟩, -, hstop, -, hreported⟩ :=
    exists_program stream preferences reporter
  have hended : p.stream.Ended := by
    rw [hstream]
    exact TokenStream.ended_ofTokens rfl
  -- The program is one list of statements.
  obtain ⟨q, hq⟩ : ∃ q, q = (statements (statement Limit.parseDepth) false p).2 := ⟨_, rfl⟩
  have hprogram : (program p).2 = q := hq.symm
  rw [hprogram] at hstop hreported
  constructor
  · have hends : listEnds false q.stream = true := by
      rw [hq]
      exact listEnds_statements Limit.parseDepth hended
    rw [hstop]
    simpa [listEnds] using hends
  · have hpaid : Paid p q := by
      rw [hq]
      exact paid_statements Limit.parseDepth hended
    have hmove : Onward p q := by
      rw [hq]
      exact onward_statementsFrom (steady_statement_block Limit.parseDepth).1 false _ _ p
    have hcovered := hpaid.covered
    have hbegin : p.position = 0 := position_eq_zero hstream
    have hsize : q.stream.size = (front.filter (·.value.isSignificant)).length + 1 := by
      rw [hmove.size_eq, hstream]
      exact TokenStream.size_ofTokens front place
    have hlast : q.position < q.stream.size := q.stream.position_lt
    rw [hreported, ← herrors]
    omega

/-- The tokens of a declaration without a value, a block that is not closed, and a bracket. -/
def brokenTokens : List SpannedToken :=
  [.keyword .int, .identifier "x", .symbol .assign, .symbol .leftBrace, .symbol .rightParen].map
    fun t => ⟨t, .dummy⟩

theorem parseProgram_progresses_broken :
    let stream := TokenStream.ofTokens (brokenTokens ++ [⟨.eof, .dummy⟩] : List SpannedToken).toArray
    stream.Ended ∧ listEnds false stream = false ∧
      let p := start stream {} {}
      p.position < (afterTurn (statement 100) false p).position ∧
      p.parseProgram.2.errors.length ≤ brokenTokens.length := by
  intro stream
  have hended : stream.Ended := TokenStream.ended_ofTokens rfl
  have hends : listEnds false stream = false := by decide
  obtain ⟨hturns, -, hcount⟩ := parseProgram_progresses brokenTokens .dummy {} {}
  exact ⟨hended, hends, (hturns 100 false (.start stream {} {}) hended).1 hends, hcount⟩

end EvlCheck
