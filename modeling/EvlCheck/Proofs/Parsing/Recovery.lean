/-
Recovery contains errors. Tokens without braces that are no statements do not spoil what stands
behind them: where a word follows that opens a statement, or the brace that closes the block they
stand in, the parser is back in step there, and no error is reported behind.

The place where the parser is back in step is a barrier (`Barrier`). No rule gets over it in the
middle of a statement, since the token there stands inside no statement, and no block is opened
before it; recovery stops there at the latest; and a turn of the loop that begins before it ends
there at the latest, as it is only before it that the cursor is moved by force (`Held`). As every
turn takes the cursor on, the loop gets to the barrier.
-/
import EvlCheck.Proofs.Parsing.Acceptance

namespace EvlCheck

/-- The diagnostic is shown at the first character of the token. -/
def SyntaxDiagnostic.IsAt (d : SyntaxDiagnostic) (t : SpannedToken) : Prop :=
  d.line = t.span.start.line ∧ d.column = t.span.start.charInLine

namespace Parsing

open EvlCheck.Parser ParseM

variable [Build]

/-! ## Barriers -/

/-- Before a place that is in reach, no token is a brace or the end; the one at the place stands
inside no statement and opens no block, but parsing can go on there. -/
structure Barrier (p₀ : Parser) (inBlock : Bool) (k : Nat) : Prop where
  ended : p₀.stream.Ended
  reach : k ≤ p₀.position + Limit.recoveryScan
  before : ∀ {s : TokenStream}, s.significant = p₀.stream.significant → p₀.position ≤ s.position →
    s.position < k → listEnds inBlock s = false ∧ s.check (.symbol .leftBrace) = false
  stop : ∀ {s : TokenStream}, s.significant = p₀.stream.significant → s.position = k →
    s.current.value.isInner = false ∧ s.check (.symbol .leftBrace) = false ∧
      canResume inBlock s = true

/-- The diagnostics are reports at tokens from one place up to another. -/
def ReportedAt (row : Array StreamToken) (a k : Nat) (ds : List SyntaxDiagnostic) : Prop :=
  ∀ d ∈ ds, ∃ (i : Nat) (t : StreamToken), a ≤ i ∧ i ≤ k ∧ row[i]? = some t ∧ d.IsAt t.spanned

/-- Since a state the cursor has not got over the barrier, and neither have the errors. -/
structure Held (p₀ : Parser) (k : Nat) (p : Parser) : Prop where
  onward : Onward p₀ p
  position : p.position ≤ k
  errors : ∃ ds, p.errors = ds ++ p₀.errors ∧
    ReportedAt p₀.stream.significant p₀.position k ds

namespace Held

variable {p₀ p : Parser} {k : Nat}

theorem refl (hk : p.position ≤ k) : Held p k p :=
  ⟨.refl p, hk, [], rfl, fun _ hd => nomatch hd⟩

/-- Before the barrier, the cursor moves up to it at most. -/
theorem advance (hp : Held p₀ k p) (hlt : p.position < k) : Held p₀ k p.advance := by
  refine ⟨hp.onward.trans (onward_advance p), ?_, hp.errors⟩
  have hstep : p.advance.position ≤ p.position + 1 := p.stream.position_advance_le
  omega

/-- An error at the token under the cursor is reported before the barrier or at it. -/
theorem reported {e : SyntaxError} (hp : Held p₀ k p)
    (he : e.span? = some p.stream.current.span) :
    ∃ ds, (p.reportError e).errors = ds ++ p₀.errors ∧
      ReportedAt p₀.stream.significant p₀.position k ds := by
  obtain ⟨ds, hds, hat⟩ := hp.errors
  rcases p.errors_reportError e with hsame | ⟨d, hline, hcolumn, hnew⟩
  · exact ⟨ds, by rw [hsame, hds], hat⟩
  · refine ⟨d :: ds, by rw [hnew, hds]; rfl, ?_⟩
    rintro d' (_ | ⟨_, hd'⟩)
    · have hspan : p.errorSpan e = p.stream.current.span := by
        unfold errorSpan
        rw [he]
        rfl
      have hget := p.stream.getElem?_position
      rw [hp.onward.tokens] at hget
      rw [hspan] at hline hcolumn
      exact ⟨p.position, _, hp.onward.position, hp.position, hget, hline, hcolumn⟩
    · exact hat d' hd'

end Held

namespace Barrier

variable {p₀ p q : Parser} {inBlock : Bool} {k : Nat} (h : Barrier p₀ inBlock k)
include h

/-- No block is opened up to the barrier. -/
theorem check_leftBrace (hp : Held p₀ k p) : p.stream.check (.symbol .leftBrace) = false := by
  rcases Nat.lt_or_ge p.position k with hlt | hge
  · exact (h.before hp.onward.tokens hp.onward.position hlt).2
  · exact (h.stop hp.onward.tokens (Nat.le_antisymm hp.position hge)).2.1

/-- A token that stands inside statements is not the one at the barrier. -/
theorem unbroken_held : Unbroken (Held p₀ k) where
  log e hp := ⟨(unbroken_onward p₀).log e hp.onward, hp.position, hp.errors⟩
  record s hp := ⟨(unbroken_onward p₀).record s hp.onward, hp.position, hp.errors⟩
  reportLoneString {p} hp := by
    refine ⟨(unbroken_onward p₀).reportLoneString hp.onward, ?_, ?_⟩
    · unfold position
      rw [stream_reportLoneString]
      exact hp.position
    · rw [errors_reportLoneString]
      exact hp.errors
  advance {p} hp ht := by
    refine hp.advance (Nat.lt_of_le_of_ne hp.position fun hk => ?_)
    rw [(h.stop hp.onward.tokens hk).1] at ht
    cases ht

/-! ## Rules stop at the barrier -/

/-- Before the barrier a statement begins; no block of it is read, and it stops at the barrier at the
latest. -/
theorem stages_held :
    Stages (fun p => Held p₀ k p ∧ p.position < k) (Held p₀ k) (Held p₀ k) (fun _ => False)
      (Held p₀ k) (Held p₀ k) where
  plain_flat := h.unbroken_held.toFlat
  inner_flat := h.unbroken_held.flat
  first hp _ := hp.1.advance hp.2
  word hp _ := hp.1.advance hp.2
  behind_inner hp := hp.elim
  next hp _ := hp.elim
  nextTwo hp _ _ := hp.elim
  start_fails hp := hp.1
  plain_ends hp := ⟨hp, hp⟩
  inner_ends hp := ⟨hp, hp⟩

theorem leads_block (n : Nat) : (block n).Leads (Held p₀ k) (fun _ => False) (Held p₀ k) := by
  have hI := h.unbroken_held.toWordless
  cases n with
  | zero =>
    unfold block
    exact ⟨fun _ hm => absurd hm tooDeep_ne_ok, (leads_tooDeep hI.toFlat _).error⟩
  | succ n =>
    have hbody : (blockBody (statement n)).Leads (Held p₀ k) (fun _ => False) (Held p₀ k) := by
      refine leads_blockBody (fun _ => False) (fun _ => False) (fun _ hp => hp) (fun p hp hc => ?_)
        (fun _ hp => hp.elim) fun _ hp => hp
      rw [h.check_leftBrace hp] at hc
      cases hc
    unfold block
    exact hbody.withRule (fun _ => hI.enter _) (fun _ hp => hp) fun _ => hI.leave

theorem leads_statement (n : Nat) :
    (statement n).Leads (fun p => Held p₀ k p ∧ p.position < k) (Held p₀ k) (Held p₀ k) := by
  have hI := h.unbroken_held.toWordless
  cases n with
  | zero =>
    unfold statement
    exact (leads_tooDeep hI.toFlat _).unseen
  | succ n =>
    have hfirst : (block n).Leads (fun p => Held p₀ k p ∧ p.position < k) (Held p₀ k) (Held p₀ k) :=
      (h.leads_block n).unseen.mono (fun _ hp => hp) (fun _ hp => hp.elim) fun _ hp => hp
    have hvalue := inner_expression n hI
    have hbody := h.stages_held.leads_statementBody hvalue (h.leads_block n) hvalue hfirst
    unfold statement
    exact hbody.withRule (fun _ hp => ⟨hI.enter _ hp.1, hp.2⟩) (fun _ => hI.leave) fun _ => hI.leave

/-! ## Recovery stops at the barrier -/

theorem exists_resume {reach : Nat} {s : TokenStream} (hrow : s.significant = p₀.stream.significant)
    (hbegin : p₀.position ≤ s.position) (hk : s.position ≤ k) (hreach : k ≤ s.position + reach) :
    ∃ s', resume? inBlock reach s = some s' ∧ s'.position ≤ k := by
  induction reach generalizing s with
  | zero =>
    -- The cursor is at the barrier.
    have hstop := (h.stop hrow (Nat.le_antisymm hk (by omega))).2.2
    exact ⟨s, by unfold resume?; rw [if_pos hstop], hk⟩
  | succ reach ih =>
    by_cases hresume : canResume inBlock s = true
    · exact ⟨s, by unfold resume?; rw [if_pos hresume], hk⟩
    · have hlt : s.position < k := by
        refine Nat.lt_of_le_of_ne hk fun heq => hresume ?_
        exact (h.stop hrow heq).2.2
      have hend := atEnd_of_listEnds (h.before hrow hbegin hlt).1
      have hmove :=
        TokenStream.position_advance (h.ended.congr hrow) (TokenStream.current_ne_eof hend)
      have hrow' : s.advance.significant = p₀.stream.significant := by
        rw [s.significant_advance, hrow]
      obtain ⟨s', hs', hle⟩ := ih hrow' (by omega) (by omega) (by omega)
      exact ⟨s', by unfold resume?; rw [if_neg hresume]; exact hs', hle⟩

/-- Behind a failed statement that began before the barrier, parsing goes on at the barrier at the
latest: the forced move is made from before it. -/
theorem held_afterFailure {e : SyntaxError} {start : Nat} (hrecovery : p₀.preferences.recovery = true)
    (hstart : start < k) (hp : Held p₀ k p) (he : e.span? = some p.stream.current.span) :
    Held p₀ k (afterFailure inBlock start e p) := by
  have hrecover : ((p.reportError e).recover inBlock).position ≤ k := by
    have hon : (p.reportError e).preferences.recovery = true := by
      rw [(onward_reportError p e).preferences, hp.onward.preferences, hrecovery]
    obtain ⟨s, hs, hle⟩ := h.exists_resume hp.onward.tokens hp.onward.position hp.position
      (Nat.le_trans h.reach (Nat.add_le_add_right hp.onward.position _))
    unfold recover
    rw [stream_reportError, hs]
    simp only [hon, Bool.not_true, Bool.false_eq_true, if_false]
    exact hle
  refine ⟨hp.onward.trans (onward_afterFailure inBlock start e p), ?_, ?_⟩
  · unfold afterFailure
    dsimp only
    split
    · next hstuck =>
      have hstep : ((p.reportError e).recover inBlock).advance.position ≤
          ((p.reportError e).recover inBlock).position + 1 := TokenStream.position_advance_le _
      omega
    · exact hrecover
  · rw [errors_afterFailure]
    exact hp.reported he

theorem held_afterTurn (n : Nat) (hrecovery : p₀.preferences.recovery = true) (hp : Held p₀ k p)
    (hlt : p.position < k) : Held p₀ k (afterTurn (statement n) inBlock p) := by
  rcases hs : statement n p with ⟨e | s, q⟩
  · rw [afterTurn_of_error hs]
    obtain ⟨hq, he⟩ := (h.leads_statement n).error ⟨hp, hlt⟩ hs
    exact h.held_afterFailure hrecovery hlt hq he
  · rw [afterTurn_of_ok hs]
    exact (h.leads_statement n).ok ⟨hp, hlt⟩ hs

/-- The loop over statements gets to the barrier, with turns left for the tokens behind it. -/
theorem exists_statementsFrom (n : Nat) (hrecovery : p₀.preferences.recovery = true) {tokens : Nat}
    (done : Array Stmt) (hp : Held p₀ k p) (henough : p.stream.size ≤ tokens + p.position) :
    ∃ (tokens' : Nat) (done' : Array Stmt) (q : Parser),
      statementsFrom (statement n) inBlock tokens done p =
        statementsFrom (statement n) inBlock tokens' done' q ∧
      Held p₀ k q ∧ q.position = k ∧ q.stream.size ≤ tokens' + q.position := by
  induction tokens generalizing done p with
  | zero =>
    -- There would be no token under the cursor, not even the end.
    have := p.stream.position_lt
    unfold Parser.position TokenStream.size at henough
    omega
  | succ tokens ih =>
    rcases Nat.lt_or_ge p.position k with hlt | hge
    · have hends : listEnds inBlock p.stream = false :=
        (h.before hp.onward.tokens hp.onward.position hlt).1
      obtain ⟨done', hnext⟩ := statementsFrom_succ (statement n) hends
      have hmove := lt_position_afterTurn n (hp.onward.ended h.ended) hends
      have hsteady := onward_afterTurn (steady_statement_block n).1 inBlock p
      rw [hnext]
      refine ih done' (h.held_afterTurn n hrecovery hp hlt) ?_
      rw [hsteady.size_eq]
      omega
    · exact ⟨tokens + 1, done, p, rfl, hp, Nat.le_antisymm hp.position hge, henough⟩

end Barrier

/-! ## Stretches of tokens -/

/-- A row of tokens before the end: behind those that were read there are some that are no braces,
at most as many as recovery looks at, and then one that makes a barrier. -/
structure Stretch (p₀ : Parser) (inBlock : Bool) (left garbage : List SpannedToken)
    (stop : SpannedToken) (after : List SpannedToken) : Prop where
  ready : p₀.Ready
  recovery : p₀.preferences.recovery = true
  position : p₀.position = left.length
  row : p₀.stream.significant.toList.map StreamToken.spanned = left ++ (garbage ++ stop :: after)
  reach : garbage.length ≤ Limit.recoveryScan
  plain : ∀ t ∈ garbage, t.value ≠ .symbol .leftBrace ∧ t.value ≠ .symbol .rightBrace ∧ t.value ≠ .eof
  outer : stop.value.isInner = false ∧ stop.value ≠ .symbol .leftBrace
  resumes : ∀ s : TokenStream, s.current.value = stop.value → canResume inBlock s = true

namespace Stretch

variable {p₀ : Parser} {inBlock : Bool} {left garbage after : List SpannedToken}
  {stop : SpannedToken} (h : Stretch p₀ inBlock left garbage stop after)
include h

/-- What stands in the row up to the barrier. -/
theorem getElem?_row {i : Nat} {t : StreamToken} (hi : left.length ≤ i)
    (hk : i ≤ left.length + garbage.length) (ht : p₀.stream.significant[i]? = some t) :
    (garbage ++ [stop])[i - left.length]? = some t.spanned := by
  have hget : (left ++ (garbage ++ stop :: after))[i]? = some t.spanned := by
    rw [← h.row, List.getElem?_map, Array.getElem?_toList, ht]
    rfl
  rw [List.getElem?_append_right hi, List.append_cons] at hget
  have hlt : i - left.length < (garbage ++ [stop]).length := by
    rw [List.length_append, List.length_singleton]
    omega
  rwa [List.getElem?_append_left hlt] at hget

theorem current_row {s : TokenStream} (hrow : s.significant = p₀.stream.significant)
    (hi : left.length ≤ s.position) (hk : s.position ≤ left.length + garbage.length) :
    (garbage ++ [stop])[s.position - left.length]? = some s.current.spanned := by
  refine h.getElem?_row hi hk ?_
  rw [← hrow]
  exact s.getElem?_position

theorem barrier : Barrier p₀ inBlock (left.length + garbage.length) where
  ended := h.ready.ended
  reach := by
    rw [h.position]
    exact Nat.add_le_add_left h.reach _
  before {s} hrow hi hk := by
    rw [h.position] at hi
    have hget := h.current_row hrow hi (Nat.le_of_lt hk)
    rw [List.getElem?_append_left (by omega)] at hget
    obtain ⟨hleft, hright, heof⟩ := h.plain _ (List.mem_of_getElem? hget)
    have hvalue : s.current.spanned.value = s.current.value := rfl
    rw [hvalue] at hleft hright heof
    constructor
    · cases hends : listEnds inBlock s with
      | false => rfl
      | true =>
        unfold listEnds at hends
        rcases Bool.or_eq_true_iff.1 hends with hend | hclose
        · unfold TokenStream.atEnd at hend
          cases hv : s.current.value with
          | eof => exact absurd hv heof
          | _ => rw [hv] at hend; cases hend
        · exact absurd (Token.eq_of_sameKind_symbol (Bool.and_eq_true_iff.1 hclose).2) hright
    · cases hc : s.check (.symbol .leftBrace) with
      | false => rfl
      | true => exact absurd (Token.eq_of_sameKind_symbol hc) hleft
  stop {s} hrow hk := by
    have hget := h.current_row hrow (by omega) (Nat.le_of_eq hk)
    rw [hk, Nat.add_sub_cancel_left, List.getElem?_concat_length] at hget
    have hvalue : s.current.value = stop.value := congrArg Spanned.value (Option.some.inj hget).symm
    refine ⟨hvalue ▸ h.outer.1, ?_, h.resumes s hvalue⟩
    cases hc : s.check (.symbol .leftBrace) with
    | false => rfl
    | true => exact absurd (hvalue.symm.trans (Token.eq_of_sameKind_symbol hc)) h.outer.2

/-- The loop over statements gets through the stretch to its last token, and reports errors at its
tokens only. -/
theorem exists_statementsFrom (n : Nat) {tokens : Nat} (done : Array Stmt)
    (henough : p₀.stream.size ≤ tokens + p₀.position) :
    ∃ (tokens' : Nat) (done' : Array Stmt) (q : Parser) (ds : List SyntaxDiagnostic),
      statementsFrom (statement n) inBlock tokens done p₀ =
        statementsFrom (statement n) inBlock tokens' done' q ∧
      q.Ready ∧ q.stream.size = p₀.stream.size ∧ q.stream.size ≤ tokens' + q.position ∧
      q.pending = stop.value :: after.map (·.value) ∧
      q.errors = ds ++ p₀.errors ∧ ∀ d ∈ ds, ∃ t ∈ garbage ++ [stop], d.IsAt t := by
  have hbegin : p₀.position ≤ left.length + garbage.length := by
    rw [h.position]
    exact Nat.le_add_right _ _
  obtain ⟨tokens', done', q, hq, hheld, hk, henough'⟩ :=
    h.barrier.exists_statementsFrom n h.recovery done (.refl hbegin) henough
  obtain ⟨ds, herrors, hat⟩ := hheld.errors
  refine ⟨tokens', done', q, ds, hq, hheld.onward.ready h.ready, hheld.onward.size_eq, henough', ?_,
    herrors, ?_⟩
  · have hrow := h.row
    rw [← hheld.onward.tokens, ← List.append_assoc] at hrow
    rw [pending_of_row hrow (by rw [hk, List.length_append])]
    rfl
  · intro d hd
    obtain ⟨i, t, hi, hik, ht, hdt⟩ := hat d hd
    rw [h.position] at hi
    exact ⟨t.spanned, List.mem_of_getElem? (h.getElem?_row hi hik ht), hdt⟩

end Stretch

/-! ## What stands behind the barrier -/

/-- A brace opens a block that is a statement, whatever stands in it. -/
theorem statement_of_leftBrace {n : Nat} {p q : Parser} {inside : List Stmt}
    (h : p.stream.check (.symbol .leftBrace) = true)
    (hinside : statements (statement n) true ((p.enter .statement).enter .block).advance =
      (inside, q)) :
    ∃ span, statement (n + 2) p = (.ok (.block (.mk inside span)), (closeBlock q).leave.leave) := by
  have hexpect : expect (.symbol .leftBrace) ((p.enter .statement).enter .block) =
      (.ok p.stream.current, ((p.enter .statement).enter .block).advance) := by
    rw [expect_apply]
    exact if_pos h
  have hbody : blockBody (statement n) ((p.enter .statement).enter .block) =
      (.ok (.mk inside ((closeBlock q).stream.spanFrom p.position)), closeBlock q) := by
    rw [blockBody_eq, place_bind, bind_of_ok hexpect]
    have hread : (modifyGet (statements (statement n) true) : ParseM (List Stmt))
        ((p.enter .statement).enter .block).advance = (.ok inside, q) := by
      show (Except.ok (statements _ true _).1, (statements _ true _).2) = _
      rw [hinside]
    rw [bind_of_ok hread]
    rfl
  have hblock : block (n + 1) (p.enter .statement) =
      (.ok (.mk inside ((closeBlock q).stream.spanFrom p.position)), (closeBlock q).leave) := by
    unfold block withRule
    rw [hbody]
  refine ⟨(closeBlock q).stream.spanFrom p.position, ?_⟩
  have hcurrent : (p.enter .statement).stream.current.value = .symbol .leftBrace :=
    Token.eq_of_sameKind_symbol h
  unfold statement withRule statementBody
  rw [current_bind, hcurrent]
  dsimp only
  rw [bind_of_ok hblock]
  rfl

/-- A program of the grammar is accepted behind whatever was read before it. -/
theorem statementsFrom_tree {tree : Program} {p : Parser} {tokens : Nat} {after : List Token}
    (done : Array Stmt) (hgood : tree.Grammatical) (hn : tree.nesting ≤ Limit.parseDepth)
    (hp : p.Ready) (hpending : p.pending = tree.terminals ++ .eof :: after)
    (henough : p.stream.size ≤ tokens + p.position) :
    ∃ more q, statementsFrom (statement Limit.parseDepth) false tokens done p =
        (done.toList ++ more, q) ∧
      Stmt.listBare more = Stmt.listBare tree.statements ∧ q.errors = p.errors := by
  have hlength : (Stmt.listTerminals tree.statements).length ≤ tokens := by
    have hcount := p.length_pending
    rw [hpending, List.length_append] at hcount
    have hsame : tree.terminals = Stmt.listTerminals tree.statements := rfl
    rw [hsame] at hcount
    omega
  obtain ⟨more, q, hq, hbare, hleft⟩ := statementsFrom_accepts done
    (Stmt.listAccepted tree.statements hgood hn) (show Closes false .eof from .inl rfl) hlength hp
    hpending
  exact ⟨more, q, hq, hbare, hleft.errors⟩

/-- A block around a stretch is read, and closed at the barrier. -/
theorem Stretch.statement_of_braces {p : Parser} {left stop : SpannedToken}
    {garbage after : List SpannedToken}
    (h : Stretch ((p.enter .statement).enter .block).advance true [left] garbage stop after) (n : Nat)
    (hstop : stop.value = .symbol .rightBrace)
    (hopen : p.stream.check (.symbol .leftBrace) = true) :
    ∃ (inside : List Stmt) (span : Span) (q : Parser) (ds : List SyntaxDiagnostic),
      statement (n + 2) p = (.ok (.block (.mk inside span)), q) ∧
      q.Ready ∧ q.stream.size = p.stream.size ∧ 0 < q.position ∧
      q.pending = after.map (·.value) ∧
      q.errors = ds ++ p.errors ∧ ∀ d ∈ ds, ∃ t ∈ garbage ++ [stop], d.IsAt t := by
  obtain ⟨tokens, done, q, ds, hloop, hready, hsize, -, hpending, herrors, hat⟩ :=
    h.exists_statementsFrom n #[] (Nat.le_add_right _ _)
  rw [hstop] at hpending
  have hvalue := current_eq hpending
  have hclose : q.stream.check (.symbol .rightBrace) = true := by
    unfold TokenStream.check
    rw [hvalue]
    rfl
  have hinside : statements (statement n) true ((p.enter .statement).enter .block).advance =
      (done.toList, q) := by
    have hends : listEnds true q.stream = true := by
      unfold listEnds
      rw [hclose, Bool.and_self, Bool.or_true]
    unfold statements
    rw [hloop, statementsFrom_of_ends hends]
  obtain ⟨span, hstatement⟩ := statement_of_leftBrace hopen hinside
  rw [closeBlock_of_check hclose] at hstatement
  have hmove := onward_advance q
  have hsame : ((p.enter .statement).enter .block).advance.stream.size = p.stream.size :=
    (onward_advance _).size_eq
  refine ⟨done.toList, span, _, ds, hstatement, ?_, ?_, ?_, ?_, herrors, hat⟩
  · exact ⟨(hmove.ready hready).ended, (hmove.ready hready).running⟩
  · exact hmove.size_eq.trans (hsize.trans hsame)
  · exact Nat.lt_of_le_of_lt (Nat.zero_le _) (position_lt_advance hready.ended (by rw [hvalue]; simp))
  · exact pending_advance hready hpending (by simp)

/-! ## Programs behind garbage -/

section

variable {p : Parser} {garbage after : List SpannedToken} {stop : SpannedToken} {tree : Program}
  {afterEnd : List Token} (hgood : tree.Grammatical) (hn : tree.nesting ≤ Limit.parseDepth)
include hgood hn

/-- Where the barrier is the first token of a program, that program is read from there on. -/
theorem program_of_stretch (h : Stretch p false [] garbage stop after)
    (htree : stop.value :: after.map (·.value) = tree.terminals ++ .eof :: afterEnd) :
    (∃ earlier, Stmt.listBare (program p).1.statements = earlier ++ Stmt.listBare tree.statements) ∧
      ∃ ds, (program p).2.errors = ds ++ p.errors ∧ ∀ d ∈ ds, ∃ t ∈ garbage ++ [stop], d.IsAt t := by
  obtain ⟨tokens, done, q, ds, hloop, hready, -, henough, hpending, herrors, hat⟩ :=
    h.exists_statementsFrom Limit.parseDepth #[] (Nat.le_add_right _ _)
  rw [htree] at hpending
  obtain ⟨more, r, hr, hbare, hsame⟩ := statementsFrom_tree done hgood hn hready hpending henough
  have hprogram : statements (statement Limit.parseDepth) false p = (done.toList ++ more, r) := by
    unfold statements
    rw [hloop, hr]
  unfold program
  rw [hprogram]
  refine ⟨⟨Stmt.listBare done.toList, ?_⟩, ds, hsame.trans herrors, hat⟩
  rw [← hbare]
  exact Stmt.listBare_append _ _

/-- Where the barrier is the brace that closes a block, the program behind that is read. -/
theorem program_of_braces {left : SpannedToken} (hopen : p.stream.check (.symbol .leftBrace) = true)
    (hstop : stop.value = .symbol .rightBrace)
    (h : Stretch ((p.enter .statement).enter .block).advance true [left] garbage stop after)
    (htree : after.map (·.value) = tree.terminals ++ .eof :: afterEnd) :
    (∃ inside, Stmt.listBare (program p).1.statements =
        .block inside :: Stmt.listBare tree.statements) ∧
      ∃ ds, (program p).2.errors = ds ++ p.errors ∧ ∀ d ∈ ds, ∃ t ∈ garbage ++ [stop], d.IsAt t := by
  obtain ⟨inside, span, q, ds, hblock, hready, hsize, hlt, hpending, herrors, hat⟩ :=
    h.statement_of_braces (Limit.parseDepth - 2) hstop hopen
  rw [Nat.sub_add_cancel Limit.two_le_parseDepth] at hblock
  have hstatement : statement Limit.parseDepth p = (.ok (.block (.mk inside span)), q) := hblock
  have hends : listEnds false p.stream = false := by
    unfold listEnds TokenStream.atEnd
    rw [Token.eq_of_sameKind_symbol hopen]
    rfl
  obtain ⟨turns, hturns⟩ : ∃ turns, p.stream.size = turns + 1 :=
    Nat.exists_eq_succ_of_ne_zero (Nat.ne_of_gt p.stream.size_pos)
  have henough : q.stream.size ≤ turns + q.position := by omega
  rw [htree] at hpending
  obtain ⟨more, r, hr, hbare, hsame⟩ :=
    statementsFrom_tree (#[].push (.block (.mk inside span))) hgood hn hready hpending henough
  have hprogram : statements (statement Limit.parseDepth) false p =
      (.block (.mk inside span) :: more, r) := by
    unfold statements
    rw [hturns, statementsFrom_of_ok hends hstatement, hr]
    rfl
  unfold program
  rw [hprogram]
  refine ⟨⟨.mk (Stmt.listBare inside) .dummy, ?_⟩, ds, hsame.trans herrors, hat⟩
  rw [← hbare]
  rfl

end

end Parsing

open EvlCheck.Parser EvlCheck.Parsing

/-- The words that open a statement of their own. -/
def Token.opensStatement : Token → Bool
  | .keyword k => k == .const || k == .print || k == .if || k == .while || k == .try
  | _ => false

theorem Token.not_isInner_of_opens {t : Token} (h : t.opensStatement = true) : t.isInner = false := by
  cases t with
  | keyword k => cases k <;> first | rfl | cases h
  | _ => cases h

theorem canResume_of_opens [Build] {inBlock : Bool} {s : TokenStream}
    (h : s.current.value.opensStatement = true) : canResume inBlock s = true := by
  have hstart : atStatementStart s = true := by
    unfold atStatementStart
    cases hv : s.current.value with
    | keyword k =>
      rw [hv] at h
      cases k <;> first | rfl | cases h
    | _ => rw [hv] at h; cases h
  unfold canResume
  rw [hstart, Bool.or_true, Bool.true_or]

section

variable [Build] {p : Parser} {garbage after : List SpannedToken} (hready : p.Ready)
  (hrecovery : p.preferences.recovery = true) (hposition : p.position = 0)
  (hreach : garbage.length ≤ Limit.recoveryScan)
  (hplain : ∀ t ∈ garbage,
    t.value ≠ .symbol .leftBrace ∧ t.value ≠ .symbol .rightBrace ∧ t.value ≠ .eof)
include hready hrecovery hposition hreach hplain

/-- A stretch reaches from the start up to a word that opens a statement. -/
theorem stretch_before_word {first : SpannedToken} (hopens : first.value.opensStatement = true)
    (hrow : p.stream.significant.toList.map StreamToken.spanned = garbage ++ first :: after) :
    Stretch p false [] garbage first after where
  ready := hready
  recovery := hrecovery
  position := hposition
  row := hrow
  reach := hreach
  plain := hplain
  outer := by
    refine ⟨Token.not_isInner_of_opens hopens, fun hbrace => ?_⟩
    rw [hbrace] at hopens
    cases hopens
  resumes s hs := canResume_of_opens (hs ▸ hopens)

/-- A stretch reaches from behind a brace at the start up to the brace that closes it. -/
theorem stretch_in_braces {left right : SpannedToken} (hleft : left.value = .symbol .leftBrace)
    (hright : right.value = .symbol .rightBrace)
    (hrow : p.stream.significant.toList.map StreamToken.spanned = left :: (garbage ++ right :: after)) :
    Stretch ((p.enter .statement).enter .block).advance true [left] garbage right after := by
  have hmove := onward_advance ((p.enter .statement).enter .block)
  have hfirst : p.stream.current.value = left.value :=
    current_eq (pending_of_row (show _ = [] ++ _ from hrow) hposition)
  have hnoEnd : p.stream.current.value ≠ .eof := by
    rw [hfirst, hleft]
    simp
  have hmoved : ((p.enter .statement).enter .block).advance.position = p.position + 1 :=
    TokenStream.position_advance hready.ended hnoEnd
  refine ⟨hmove.ready ⟨hready.ended, hready.running⟩, hmove.preferences ▸ hrecovery, ?_, ?_, hreach,
    hplain, ⟨by rw [hright]; rfl, by rw [hright]; simp⟩, fun s hs => ?_⟩
  · rw [hmoved, hposition]
    rfl
  · rw [hmove.tokens]
    exact hrow
  · unfold canResume TokenStream.check
    rw [hs, hright]
    simp [Token.sameKind]

end

/-- The parse of some tokens by themselves. -/
def parseTokens [Build] (preferences : ParserPreferences) (reporter : Reporter)
    (tokens : List SpannedToken) : Program × Parser :=
  (start (.ofTokens tokens.toArray) preferences reporter).parseProgram

section

variable [Build] {preferences : ParserPreferences} {reporter : Reporter}
  {garbage rest : List SpannedToken}

/-- Tokens that parse without an error are the terminals of a program, up to the end. -/
theorem exists_tree {front : List SpannedToken} {place : Span}
    (hrow : (TokenStream.ofTokens rest.toArray).significant.toList.map StreamToken.spanned =
      front ++ [⟨.eof, place⟩])
    (hclean : (parseTokens preferences reporter rest).2.history.errors = []) :
    ∃ (tree : Program) (afterEnd : List Token), tree.Grammatical ∧ tree.nesting ≤ Limit.parseDepth ∧
      front.map (·.value) ++ [.eof] = tree.terminals ++ .eof :: afterEnd ∧
      (parseTokens preferences reporter rest).1 = tree := by
  obtain ⟨p, ⟨hready, -, -, -, -⟩, hpending, htree, hlast, -⟩ :=
    exists_program_of_row hrow (TokenStream.position_ofTokens rest.toArray) preferences reporter
  have hq : (program p).2.Clean := by
    unfold Clean
    rw [← hlast]
    exact hclean
  obtain ⟨hgood, hn, afterEnd, hafter⟩ := pending_of_clean hready rfl hq
  exact ⟨(program p).1, afterEnd, hgood, hn, hpending.symm.trans hafter, htree⟩

variable (hrecovery : preferences.recovery = true)
  (hreach : garbage.length ≤ Limit.recoveryScan)
  (hgarbage : ∀ t ∈ garbage, t.value.isSignificant = true ∧ t.value ≠ .symbol .leftBrace ∧
    t.value ≠ .symbol .rightBrace ∧ t.value ≠ .eof)
  (hclean : (parseTokens preferences reporter rest).2.history.errors = [])
include hrecovery hreach hgarbage hclean

theorem contains_before_word {first : SpannedToken} {more : List SpannedToken}
    (hfirst : rest.filter (·.value.isSignificant) = first :: more)
    (hopens : first.value.opensStatement = true) :
    (∃ earlier, Stmt.listBare (parseTokens preferences reporter (garbage ++ rest)).1.statements =
      earlier ++ Stmt.listBare (parseTokens preferences reporter rest).1.statements) ∧
    ∃ ds, (parseTokens preferences reporter (garbage ++ rest)).2.errors = ds ++ reporter.errors ∧
      ∀ d ∈ ds, ∃ t ∈ garbage ++ [first], d.IsAt t := by
  obtain ⟨seen, ends, place, place', hseen, hends, hrow, hrest⟩ :=
    TokenStream.exists_rows rest fun t ht => ⟨(hgarbage t ht).1, (hgarbage t ht).2.2.2⟩
  obtain ⟨tree, afterEnd, hgood, hn, hterminals, htree⟩ := exists_tree hrest hclean
  -- The word is no end of the source, so it is the first of the tokens that are seen.
  obtain ⟨seen, rfl⟩ : ∃ seen', seen = first :: seen' := by
    cases seen with
    | cons t seen =>
      rw [hfirst, List.cons_append] at hseen
      exact ⟨seen, by rw [(List.cons.inj hseen).1]⟩
    | nil =>
      rw [hfirst, List.nil_append] at hseen
      have heof := hends first (hseen ▸ .head _)
      rw [heof] at hopens
      cases hopens
  rw [← List.append_assoc] at hrow
  obtain ⟨p, ⟨hready, -, hstream, hpreferences, herrors⟩, -, hresult, -, hreported⟩ :=
    exists_program_of_row hrow (TokenStream.position_ofTokens _) preferences reporter
  have hstretch : Stretch p false [] garbage first (seen ++ [⟨.eof, place⟩]) := by
    refine stretch_before_word hready (hpreferences ▸ hrecovery) (position_eq_zero hstream) hreach
      (fun t ht => (hgarbage t ht).2) hopens ?_
    rw [hstream, hrow]
    simp
  have hahead : first.value :: (seen ++ [⟨.eof, place⟩] : List SpannedToken).map (·.value) =
      tree.terminals ++ .eof :: afterEnd := by
    rw [← hterminals]
    simp
  obtain ⟨hstatements, ds, hds, hat⟩ := program_of_stretch hgood hn hstretch hahead
  rw [← hresult, ← htree] at hstatements
  rw [← hreported, herrors] at hds
  exact ⟨hstatements, ds, hds, hat⟩

theorem contains_in_braces {left right : SpannedToken} (hleft : left.value = .symbol .leftBrace)
    (hright : right.value = .symbol .rightBrace) :
    (∃ inside, Stmt.listBare
        (parseTokens preferences reporter (left :: (garbage ++ right :: rest))).1.statements =
      .block inside :: Stmt.listBare (parseTokens preferences reporter rest).1.statements) ∧
    ∃ ds, (parseTokens preferences reporter (left :: (garbage ++ right :: rest))).2.errors =
        ds ++ reporter.errors ∧
      ∀ d ∈ ds, ∃ t ∈ garbage ++ [right], d.IsAt t := by
  have hbefore : ∀ t ∈ left :: (garbage ++ [right]),
      t.value.isSignificant = true ∧ t.value ≠ .eof := by
    intro t ht
    rcases List.mem_cons.1 ht with rfl | ht
    · rw [hleft]
      exact ⟨rfl, by simp⟩
    · rcases List.mem_append.1 ht with ht | ht
      · exact ⟨(hgarbage t ht).1, (hgarbage t ht).2.2.2⟩
      · rw [List.mem_singleton.1 ht, hright]
        exact ⟨rfl, by simp⟩
  obtain ⟨seen, ends, place, place', -, -, hrow, hrest⟩ := TokenStream.exists_rows rest hbefore
  obtain ⟨tree, afterEnd, hgood, hn, hterminals, htree⟩ := exists_tree hrest hclean
  have htokens : left :: (garbage ++ [right]) ++ rest = left :: (garbage ++ right :: rest) := by simp
  rw [htokens, ← List.append_assoc] at hrow
  obtain ⟨p, ⟨hready, -, hstream, hpreferences, herrors⟩, hpending, hresult, -, hreported⟩ :=
    exists_program_of_row hrow (TokenStream.position_ofTokens _) preferences reporter
  have hstretch : Stretch ((p.enter .statement).enter .block).advance true [left] garbage right
      (seen ++ [⟨.eof, place⟩]) := by
    refine stretch_in_braces hready (hpreferences ▸ hrecovery) (position_eq_zero hstream) hreach
      (fun t ht => (hgarbage t ht).2) hleft hright ?_
    rw [hstream, hrow]
    simp
  have hopen : p.stream.check (.symbol .leftBrace) = true := by
    have hfirst : p.stream.current.value = left.value := current_eq hpending
    unfold TokenStream.check
    rw [hfirst, hleft]
    rfl
  have hahead : (seen ++ [⟨.eof, place⟩] : List SpannedToken).map (·.value) =
      tree.terminals ++ .eof :: afterEnd := by
    rw [← hterminals, List.map_append]
    rfl
  obtain ⟨hstatements, ds, hds, hat⟩ :=
    program_of_braces hgood hn hopen hright hstretch hahead
  rw [← hresult, ← htree] at hstatements
  rw [← hreported, herrors] at hds
  exact ⟨hstatements, ds, hds, hat⟩

end

/-- Recovery contains errors. Let `rest` be tokens that parse without an error, and `garbage` be at
most as many significant tokens as recovery looks at, none of them a brace or the end. Where `rest`
opens with a word of a statement, the parse of both ends with the statements of `rest`, and every
error is reported at a token of `garbage` or at that word. Where `garbage` stands in braces before
`rest`, whatever this begins with, the parse is a block and the statements of `rest`, and every error
is reported at a token of `garbage` or at the closing brace. -/
theorem recovery_contains [Build] (garbage rest : List SpannedToken)
    (preferences : ParserPreferences) (reporter : Reporter)
    (hrecovery : preferences.recovery = true) (hreach : garbage.length ≤ Limit.recoveryScan)
    (hgarbage : ∀ t ∈ garbage, t.value.isSignificant = true ∧ t.value ≠ .symbol .leftBrace ∧
      t.value ≠ .symbol .rightBrace ∧ t.value ≠ .eof)
    (hclean : (parseTokens preferences reporter rest).2.history.errors = []) :
    let parsed := parseTokens preferences reporter
    (∀ first more, rest.filter (·.value.isSignificant) = first :: more →
      first.value.opensStatement = true →
      (∃ earlier, Stmt.listBare (parsed (garbage ++ rest)).1.statements =
        earlier ++ Stmt.listBare (parsed rest).1.statements) ∧
      ∃ ds, (parsed (garbage ++ rest)).2.errors = ds ++ reporter.errors ∧
        ∀ d ∈ ds, ∃ t ∈ garbage ++ [first], d.IsAt t) ∧
    ∀ left right : SpannedToken, left.value = .symbol .leftBrace → right.value = .symbol .rightBrace →
      (∃ inside, Stmt.listBare (parsed (left :: (garbage ++ right :: rest))).1.statements =
        .block inside :: Stmt.listBare (parsed rest).1.statements) ∧
      ∃ ds, (parsed (left :: (garbage ++ right :: rest))).2.errors = ds ++ reporter.errors ∧
        ∀ d ∈ ds, ∃ t ∈ garbage ++ [right], d.IsAt t := by
  intro parsed
  constructor
  · intro first more hfirst hopens
    exact contains_before_word hrecovery hreach hgarbage hclean hfirst hopens
  · intro left right hleft hright
    exact contains_in_braces hrecovery hreach hgarbage hclean hleft hright

/-- The tokens of a line that breaks off, `int x = (`. -/
def brokenOff : List SpannedToken :=
  [⟨.keyword .int, ⟨0, 1, 1⟩, ⟨3, 1, 4⟩⟩, ⟨.identifier "x", ⟨4, 1, 5⟩, ⟨5, 1, 6⟩⟩,
    ⟨.symbol .assign, ⟨6, 1, 7⟩, ⟨7, 1, 8⟩⟩, ⟨.symbol .leftParen, ⟨8, 1, 9⟩, ⟨9, 1, 10⟩⟩]

/-- The tokens of the line behind it, `print(x)`. -/
def printed : List SpannedToken :=
  [⟨.keyword .print, ⟨10, 2, 1⟩, ⟨15, 2, 6⟩⟩, ⟨.symbol .leftParen, ⟨15, 2, 6⟩, ⟨16, 2, 7⟩⟩,
    ⟨.identifier "x", ⟨16, 2, 7⟩, ⟨17, 2, 8⟩⟩, ⟨.symbol .rightParen, ⟨17, 2, 8⟩, ⟨18, 2, 9⟩⟩]

theorem recovery_contains_broken :
    (parseTokens {} {} printed).2.history.errors = [] ∧
    (∃ earlier, Stmt.listBare (parseTokens {} {} (brokenOff ++ printed)).1.statements =
      earlier ++ Stmt.listBare (parseTokens {} {} printed).1.statements) ∧
    ∃ ds, (parseTokens {} {} (brokenOff ++ printed)).2.errors = ds ∧
      ∀ d ∈ ds, ∃ t ∈ brokenOff ++ [⟨.keyword .print, ⟨10, 2, 1⟩, ⟨15, 2, 6⟩⟩], d.IsAt t := by
  have hclean : (parseTokens {} {} printed).2.history.errors = [] := rfl
  have hgarbage : ∀ t ∈ brokenOff, t.value.isSignificant = true ∧ t.value ≠ .symbol .leftBrace ∧
      t.value ≠ .symbol .rightBrace ∧ t.value ≠ .eof := by decide
  obtain ⟨hword, -⟩ := recovery_contains brokenOff printed {} {} rfl (by decide) hgarbage hclean
  obtain ⟨hstatements, ds, hds, hat⟩ := hword _ _ rfl rfl
  exact ⟨hclean, hstatements, ds, hds.trans (List.append_nil _), hat⟩

end EvlCheck
