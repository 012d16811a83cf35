/-
Steps of parsing. What every step keeps is `Onward`: the tokens stay, the cursor never moves back,
and an error once met is not forgotten. What a step reads is `Took`: the tokens between the two
places of the cursor. What a step has before it is `pending`: the tokens from the cursor on.

The rules are monadic programs; they are taken apart by `bind_ok` and put together by the equations
of the single steps, so that no later proof looks into the monad.
-/
import EvlCheck.Parsing.Statement
import EvlCheck.Proofs.Token.Stream
import EvlCheck.Proofs.Tree.Placement

namespace EvlCheck

/-! ## Words of the grammar -/

theorem ValueType.keyword_of_ofKeyword? {k : Keyword} {t : ValueType} (h : ofKeyword? k = some t) :
    k = t.keyword := by
  cases k <;> simp [ofKeyword?] at h <;> subst h <;> rfl

theorem BuiltinConstant.keyword_of_ofKeyword? {k : Keyword} {c : BuiltinConstant}
    (h : ofKeyword? k = some c) : k = c.keyword := by
  cases k <;> simp [ofKeyword?] at h <;> subst h <;> rfl

theorem BinaryOp.symbol_of_ofToken? {t : Token} {op : BinaryOp} (h : ofToken? t = some op) :
    t = .symbol op.symbol := by
  cases t with
  | symbol s => cases s <;> simp [ofToken?, ofSymbol?] at h <;> subst h <;> rfl
  | _ => cases h

theorem AssignOp.symbol_of_ofToken? {t : Token} {op : AssignOp} (h : ofToken? t = some op) :
    t = .symbol op.symbol := by
  cases t with
  | symbol s => cases s <;> simp [ofToken?, ofSymbol?] at h <;> subst h <;> rfl
  | _ => cases h

theorem Parsing.stringText?_eq_some {t : Token} {text : String} (h : stringText? t = some text) :
    t = .string text := by
  cases t <;> cases h; rfl

theorem ErrorHistory.record_ne_nil [Build] (h : ErrorHistory) (e : SyntaxError) :
    (h.record e).errors ≠ [] := by
  unfold ErrorHistory.record
  split <;> simp

namespace Parser

variable [Build]

/-! ## What every step keeps -/

def Clean (p : Parser) : Prop := p.history.errors = []

/-- The last token is the end of the source, and parsing stops early only behind an error. -/
structure Ready (p : Parser) : Prop where
  ended : p.stream.Ended
  running : p.Clean → p.halted = false

/-- What stays the same or only grows from one state to a later one. -/
structure Onward (p q : Parser) : Prop where
  tokens : q.stream.significant = p.stream.significant
  all : q.stream.all = p.stream.all
  position : p.position ≤ q.position
  preferences : q.preferences = p.preferences
  clean : q.Clean → p.Clean
  running : (p.Clean → p.halted = false) → q.Clean → q.halted = false

theorem Onward.refl (p : Parser) : Onward p p := ⟨rfl, rfl, Nat.le_refl _, rfl, id, id⟩

theorem Onward.trans {p q r : Parser} (h : Onward p q) (h' : Onward q r) : Onward p r :=
  ⟨h'.tokens.trans h.tokens, h'.all.trans h.all, Nat.le_trans h.position h'.position,
    h'.preferences.trans h.preferences, fun hr => h.clean (h'.clean hr),
    fun hp => h'.running (h.running hp)⟩

theorem Onward.ended {p q : Parser} (h : Onward p q) (hp : p.stream.Ended) : q.stream.Ended :=
  hp.congr h.tokens

theorem Onward.ready {p q : Parser} (h : Onward p q) (hp : p.Ready) : q.Ready :=
  ⟨h.ended hp.ended, h.running hp.running⟩

theorem Onward.size_eq {p q : Parser} (h : Onward p q) : q.stream.size = p.stream.size := by
  unfold TokenStream.size
  rw [h.tokens]

theorem onward_advance (p : Parser) : Onward p p.advance :=
  ⟨p.stream.significant_advance, p.stream.all_advance, p.stream.position_le_advance, rfl, id, id⟩

theorem stream_reportError (p : Parser) (e : SyntaxError) : (p.reportError e).stream = p.stream := by
  unfold reportError
  split <;> rfl

/-- An error leaves a trace, unless the parse has stopped before. -/
theorem clean_reportError {p : Parser} {e : SyntaxError} (h : (p.reportError e).Clean) :
    p.halted = true ∧ p.reportError e = p := by
  unfold reportError at h ⊢
  by_cases hh : p.halted = true
  · exact ⟨hh, if_pos hh⟩
  · rw [if_neg hh] at h
    exact absurd h (ErrorHistory.record_ne_nil p.history e)

theorem onward_reportError (p : Parser) (e : SyntaxError) : Onward p (p.reportError e) where
  tokens := by rw [stream_reportError]
  all := by rw [stream_reportError]
  position := Nat.le_of_eq (by unfold position; rw [stream_reportError])
  preferences := by unfold reportError; split <;> rfl
  clean h := (clean_reportError h).2 ▸ h
  running hp h := (clean_reportError h).2.symm ▸ hp ((clean_reportError h).2 ▸ h)

/-- No error is kept from a parse that has met none. -/
theorem not_clean_reportError {p : Parser} {e : SyntaxError} (hp : p.Ready) :
    ¬ (p.reportError e).Clean := by
  intro h
  obtain ⟨hh, heq⟩ := clean_reportError h
  rw [heq] at h
  simp [hp.running h] at hh

theorem stream_reportLoneString (p : Parser) : p.reportLoneString.stream = p.stream := by
  unfold reportLoneString
  split <;> rfl

@[simp] theorem history_reportLoneString (p : Parser) : p.reportLoneString.history = p.history := by
  unfold reportLoneString
  split <;> rfl

@[simp] theorem halted_reportLoneString (p : Parser) : p.reportLoneString.halted = p.halted := by
  unfold reportLoneString
  split <;> rfl

theorem onward_reportLoneString (p : Parser) : Onward p p.reportLoneString := by
  unfold reportLoneString
  split
  · exact .refl p
  · exact ⟨rfl, rfl, Nat.le_refl _, rfl, id, id⟩

/-- The cursor begins at the first token. -/
theorem position_eq_zero {p : Parser} {tokens : Array SpannedToken}
    (h : p.stream = .ofTokens tokens) : p.position = 0 := by
  unfold position
  rw [h]
  exact TokenStream.position_ofTokens tokens

/-- Rules that are opened or closed change nothing that the tokens depend on. -/
theorem onward_leave {p : Parser} {r : Rule} {q : Parser} (h : Onward (p.enter r) q) :
    Onward p q.leave :=
  ⟨h.tokens, h.all, h.position, h.preferences, h.clean, h.running⟩

/-! ## Reported errors -/

/-- The errors that were reported so far, the last one first. -/
def errors (p : Parser) : List SyntaxDiagnostic := p.reporter.errors

@[simp] theorem errors_advance (p : Parser) : p.advance.errors = p.errors := rfl

@[simp] theorem errors_reportLoneString (p : Parser) : p.reportLoneString.errors = p.errors := by
  unfold reportLoneString
  split
  · rfl
  · exact Reporter.errors_ambiguity _ _ _ _

/-- The place that an error is reported at: its own, or that of the token under the cursor. -/
def errorSpan (p : Parser) (e : SyntaxError) : Span := e.span?.getD p.stream.current.span

/-- An error is reported once, unless the parse has stopped before. -/
theorem errors_reportError (p : Parser) (e : SyntaxError) :
    (p.reportError e).errors = p.errors ∨ ∃ d : SyntaxDiagnostic,
      d.line = (p.errorSpan e).start.line ∧ d.column = (p.errorSpan e).start.charInLine ∧
        (p.reportError e).errors = d :: p.errors := by
  unfold reportError
  split
  · exact .inl rfl
  · exact .inr ⟨_, rfl, rfl, Reporter.errors_syntaxError _ _ _ _ _⟩

theorem length_errors_reportError (p : Parser) (e : SyntaxError) :
    (p.reportError e).errors.length ≤ p.errors.length + 1 := by
  rcases p.errors_reportError e with h | ⟨d, -, -, h⟩
  · rw [h]; exact Nat.le_succ _
  · rw [h]; exact Nat.le_refl _

/-! ## What lies ahead -/

def pending (p : Parser) : List Token :=
  (p.stream.significant.toList.drop p.position).map (·.value)

theorem pending_eq_cons (p : Parser) :
    ∃ rest, p.pending = p.stream.current.value :: rest := by
  have hp := p.stream.position_lt
  unfold pending position
  rw [List.drop_eq_getElem_cons (by simpa using hp)]
  exact ⟨(p.stream.significant.toList.drop (p.stream.position + 1)).map (·.value),
    by simp [TokenStream.current]⟩

theorem current_eq {p : Parser} {t : Token} {rest : List Token} (h : p.pending = t :: rest) :
    p.stream.current.value = t := by
  obtain ⟨rest', h'⟩ := p.pending_eq_cons
  rw [h] at h'
  cases h'; rfl

theorem pending_advance {p : Parser} {t : Token} {rest : List Token} (hp : p.Ready)
    (h : p.pending = t :: rest) (ht : t ≠ .eof) : p.advance.pending = rest := by
  have hc : p.stream.current.value ≠ .eof := current_eq h ▸ ht
  have hpos : p.advance.position = p.position + 1 := TokenStream.position_advance hp.ended hc
  have hrow : p.advance.stream.significant = p.stream.significant := p.stream.significant_advance
  unfold pending at h ⊢
  rw [hrow, hpos, ← List.tail_drop, List.map_tail, h, List.tail_cons]

theorem length_pending (p : Parser) : p.pending.length = p.stream.size - p.position := by
  unfold pending TokenStream.size
  simp

theorem length_pending_le (p : Parser) : p.pending.length ≤ p.stream.size := by
  rw [length_pending]
  exact Nat.sub_le _ _

/-- What lies ahead in a row. -/
theorem pending_of_row {p : Parser} {before after : List SpannedToken}
    (h : p.stream.significant.toList.map StreamToken.spanned = before ++ after)
    (hposition : p.position = before.length) : p.pending = after.map (·.value) := by
  have hafter := congrArg (List.drop before.length) h
  rw [List.drop_left, ← List.map_drop] at hafter
  unfold pending
  rw [hposition, ← hafter, List.map_map]
  rfl

end Parser

/-! ## Taking steps apart -/

namespace ParseM

variable [Build] {α β : Type}

theorem bind_of_ok {m : ParseM α} {f : α → ParseM β} {p q : Parser} {a : α}
    (h : m p = (.ok a, q)) : (m >>= f) p = f a q := by
  simp only [bind, ExceptT.bind, ExceptT.mk, StateT.bind]
  rw [h]
  rfl

theorem bind_of_error {m : ParseM α} {f : α → ParseM β} {p q : Parser} {e : SyntaxError}
    (h : m p = (.error e, q)) : (m >>= f) p = (.error e, q) := by
  simp only [bind, ExceptT.bind, ExceptT.mk, StateT.bind]
  rw [h]
  rfl

/-- A sequence of two steps succeeds when both do. -/
theorem bind_ok {m : ParseM α} {f : α → ParseM β} {p r : Parser} {b : β}
    (h : (m >>= f) p = (.ok b, r)) : ∃ a q, m p = (.ok a, q) ∧ f a q = (.ok b, r) := by
  rcases hm : m p with ⟨e | a, q⟩
  · rw [bind_of_error hm] at h; cases h
  · rw [bind_of_ok hm] at h; exact ⟨a, q, rfl, h⟩

/-- A step that looks at the token under the cursor goes on as one of its alternatives. -/
theorem current_ok {f : StreamToken → ParseM β} {p r : Parser} {b : β}
    (h : (current >>= f) p = (.ok b, r)) : ∃ m, m = f p.stream.current ∧ m p = (.ok b, r) :=
  ⟨f p.stream.current, rfl, h⟩

theorem get_ok {f : Parser → ParseM β} {p r : Parser} {b : β}
    (h : ((get : ParseM Parser) >>= f) p = (.ok b, r)) : ∃ m, m = f p ∧ m p = (.ok b, r) :=
  ⟨f p, rfl, h⟩

@[simp] theorem get_bind (f : Parser → ParseM β) (p : Parser) : ((get : ParseM Parser) >>= f) p = f p p :=
  rfl

@[simp] theorem current_bind (f : StreamToken → ParseM β) (p : Parser) :
    (current >>= f) p = f p.stream.current p := rfl

@[simp] theorem check_bind (t : Token) (f : Bool → ParseM β) (p : Parser) :
    (check t >>= f) p = f (p.stream.check t) p := rfl

@[simp] theorem place_bind (f : Nat → ParseM β) (p : Parser) : (place >>= f) p = f p.position p := rfl

@[simp] theorem spanFrom_bind (first : Nat) (f : Span → ParseM β) (p : Parser) :
    (spanFrom first >>= f) p = f (p.stream.spanFrom first) p := rfl

@[simp] theorem advance_bind (f : StreamToken → ParseM β) (p : Parser) :
    (advance >>= f) p = f p.stream.current p.advance := rfl

@[simp] theorem modify_bind (g : Parser → Parser) (f : PUnit → ParseM β) (p : Parser) :
    ((modify g : ParseM PUnit) >>= f) p = f ⟨⟩ (g p) := rfl

theorem expect_apply (t : Token) (p : Parser) :
    expect t p = if p.stream.check t then (.ok p.stream.current, p.advance)
      else (.error (if p.stream.current.value.isEof
          then .unexpectedEnd t.expectation p.stream.current.span
          else .unexpectedToken t.expectation p.stream.current.value.text p.stream.current.span), p) := by
  unfold expect TokenStream.expect TokenStream.check
  rw [get_bind]
  by_cases h : p.stream.current.value.sameKind t = true
  · simp only [h, if_true]; rfl
  · by_cases he : p.stream.current.value.isEof = true
    · simp only [h, he, if_true]; rfl
    · simp only [h, he]; rfl

theorem expect_ok {t : Token} {p q : Parser} {tok : StreamToken}
    (h : expect t p = (.ok tok, q)) :
    p.stream.check t = true ∧ tok = p.stream.current ∧ q = p.advance := by
  rw [expect_apply] at h
  by_cases hc : p.stream.check t = true
  · rw [if_pos hc] at h; cases h; exact ⟨hc, rfl, rfl⟩
  · rw [if_neg hc] at h; cases h

theorem noViableAlternative_ne_ok {p q : Parser} {a : α} :
    (noViableAlternative : ParseM α) p ≠ (.ok a, q) := by
  intro h; cases h

theorem unexpected_ne_ok {expected : String} {p q : Parser} {a : α} :
    (unexpected expected : ParseM α) p ≠ (.ok a, q) := by
  intro h; cases h

theorem tooDeep_ne_ok {r : Rule} {p q : Parser} {a : α} :
    (tooDeep r : ParseM α) p ≠ (.ok a, q) := by
  intro h; cases h

theorem withRule_ok {r : Rule} {m : ParseM α} {p q : Parser} {a : α}
    (h : withRule r m p = (.ok a, q)) : ∃ q', m (p.enter r) = (.ok a, q') ∧ q = q'.leave := by
  unfold withRule at h
  rcases hm : m (p.enter r) with ⟨a', q'⟩
  rw [hm] at h
  cases h
  exact ⟨q', rfl, rfl⟩

theorem withRule_error {r : Rule} {m : ParseM α} {p q : Parser} {e : SyntaxError}
    (h : withRule r m p = (.error e, q)) : ∃ q', m (p.enter r) = (.error e, q') ∧ q = q'.leave := by
  unfold withRule at h
  rcases hm : m (p.enter r) with ⟨a', q'⟩
  rw [hm] at h
  cases h
  exact ⟨q', rfl, rfl⟩

end ParseM

end EvlCheck
