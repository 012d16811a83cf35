/-
Parsing that is to stop at the first error. A statement that fails does stop it: the cursor goes to
the end, and nothing is reported from then on (`Stopped`). A block that is not closed is an error too,
but one that stops nothing. It takes the end of the source inside of the block, so that the block
around it is not closed either: one error is reported for each block that is open there, unless
something else is still missing behind one of them.

The invariant of a parse that has not stopped is `Going`. It counts the blocks that are open: around
the cursor, and among those that the source leaves open as many as were reported.
-/
import EvlCheck.Proofs.Parsing.Recovery
import Mathlib.Data.List.TakeWhile

namespace EvlCheck

/-! ## Open blocks -/

namespace Token

/-- What a token does to the number of open blocks. -/
def nesting : Token → Int
  | .symbol .leftBrace => 1
  | .symbol .rightBrace => -1
  | _ => 0

@[simp] theorem nesting_leftBrace : nesting (.symbol .leftBrace) = 1 := rfl

@[simp] theorem nesting_rightBrace : nesting (.symbol .rightBrace) = -1 := rfl

@[simp] theorem nesting_keyword (k : Keyword) : nesting (.keyword k) = 0 := rfl

@[simp] theorem nesting_eof : nesting .eof = 0 := rfl

theorem nesting_of_isInner {t : Token} (h : t.isInner = true) : t.nesting = 0 := by
  cases t with
  | symbol s => cases s <;> first | rfl | cases h
  | _ => rfl

/-- How many more blocks some tokens open than they close. -/
def openBlocks : List Token → Int
  | [] => 0
  | t :: ts => t.nesting + openBlocks ts

@[simp] theorem openBlocks_concat (ts : List Token) (t : Token) :
    openBlocks (ts ++ [t]) = openBlocks ts + t.nesting := by
  induction ts with
  | nil => exact Int.add_comm _ _
  | cons first ts ih =>
    rw [List.cons_append, openBlocks, ih, openBlocks]
    omega

end Token

/-! ## The end of the source -/

theorem Token.eq_eof_of_isEof {t : Token} (h : t.isEof = true) : t = .eof := by
  cases t with
  | eof => rfl
  | _ => cases h

namespace TokenStream

/-- The tokens that the parser sees, without their places. -/
def values (s : TokenStream) : List Token := s.significant.toList.map (·.value)

/-- The tokens before the end of the source. -/
def front (s : TokenStream) : List Token := s.values.takeWhile fun t => !t.isEof

/-- The end of the source. -/
def ending (s : TokenStream) : StreamToken := s.clamped s.front.length

theorem values_eq {s : TokenStream} (h : s.Ended) : ∃ rest, s.values = s.front ++ .eof :: rest := by
  have hsplit : s.front ++ s.values.dropWhile (fun t => !t.isEof) = s.values :=
    List.takeWhile_append_dropWhile
  cases hdrop : s.values.dropWhile fun t => !t.isEof with
  | nil =>
    -- The last token is the end of the source.
    obtain ⟨last, hlast, heof⟩ := h
    have hmem : Token.eof ∈ s.values := by
      rw [← heof]
      exact List.mem_map_of_mem (Array.mem_toList_iff.2 (Array.mem_of_back? hlast))
    have hnone := List.dropWhile_eq_nil_iff.1 hdrop _ hmem
    cases hnone
  | cons t rest =>
    have hhead : t.isEof = true := by
      have := List.head?_dropWhile_not (fun t : Token => !t.isEof) s.values
      rw [hdrop] at this
      simpa using this
    rw [hdrop, Token.eq_eof_of_isEof hhead] at hsplit
    exact ⟨rest, hsplit.symm⟩

section

variable {s s₀ : TokenStream} (hrow : s.significant = s₀.significant)
include hrow

theorem getElem?_values : s₀.values[s.position]? = some s.current.value := by
  unfold values
  rw [← hrow, List.getElem?_map, Array.getElem?_toList, s.getElem?_position]
  rfl

theorem current_eq_ending (h : s.position = s₀.front.length) : s.current = s₀.ending := by
  have hlt := s.position_lt
  have hget := s.getElem?_position
  rw [hrow] at hlt
  rw [hrow, Array.getElem?_eq_getElem hlt] at hget
  have hmin : min s₀.front.length (s₀.size - 1) = s.position := by
    unfold size
    omega
  unfold ending clamped
  simp only [hmin]
  exact (Option.some.inj hget).symm

variable (hs₀ : s₀.Ended)
include hs₀

theorem getElem?_front (h : s.position < s₀.front.length) :
    s₀.front[s.position]? = some s.current.value := by
  obtain ⟨rest, hrest⟩ := values_eq hs₀
  have hvalue := getElem?_values hrow
  rw [hrest, List.getElem?_append_left h] at hvalue
  exact hvalue

/-- Before the last of the places up to the end of the source the cursor is not at the end. -/
theorem atEnd_eq_false (h : s.position < s₀.front.length) : s.atEnd = false := by
  have hmem := List.mem_of_getElem? (getElem?_front hrow hs₀ h)
  have hnot := List.mem_takeWhile_imp hmem
  rwa [Bool.not_eq_true'] at hnot

theorem atEnd_of_position_eq (h : s.position = s₀.front.length) : s.atEnd = true := by
  obtain ⟨rest, hrest⟩ := values_eq hs₀
  have hvalue := getElem?_values hrow
  rw [hrest, h, List.getElem?_append_right (Nat.le_refl _), Nat.sub_self] at hvalue
  unfold atEnd
  rw [← Option.some.inj hvalue]
  rfl

end

end TokenStream

/-! ## Reports -/

/-- The report of an error at a place. -/
def SyntaxError.report (e : SyntaxError) (place : Span) : SyntaxDiagnostic :=
  Reporter.errorReport e.offending? place.start.line place.start.charInLine e.message

/-- A closing brace is missing at the end of the source. -/
def TokenStream.unclosed (s : TokenStream) : SyntaxError :=
  .unexpectedEnd (Token.symbol .rightBrace).expectation s.ending.span

/-- An error more is remembered, up to the limit. -/
theorem ErrorHistory.length_record [Build] {h : ErrorHistory}
    (hle : h.errors.length ≤ Limit.errorHistory) (e : SyntaxError) :
    (h.record e).errors.length = min (h.errors.length + 1) Limit.errorHistory := by
  have hpos := Limit.errorHistory_pos
  unfold ErrorHistory.record
  by_cases hfull : h.errors.length ≥ Limit.errorHistory
  · rw [if_pos hfull, List.length_append, List.length_tail, List.length_singleton]
    omega
  · rw [if_neg hfull, List.length_append, List.length_singleton]
    omega

namespace Parser

theorem errors_reportError_of_running [Build] {p : Parser} (h : p.halted = false)
    (e : SyntaxError) :
    (p.reportError e).errors = e.report (p.errorSpan e) :: p.errors := by
  unfold reportError
  rw [h, if_neg Bool.false_ne_true]
  exact Reporter.errors_syntaxError _ _ _ _ _

theorem reportError_of_halted [Build] {p : Parser} (h : p.halted = true) (e : SyntaxError) :
    p.reportError e = p :=
  if_pos h

theorem halted_reportError [Build] (p : Parser) (e : SyntaxError) :
    (p.reportError e).halted = p.halted := by
  unfold reportError
  split <;> rfl

/-- Recovery stops the parse where that is wanted, and takes up no parse that has stopped. -/
theorem halted_recover [Build] (p : Parser) (inBlock : Bool) :
    (p.recover inBlock).halted = (p.halted || !p.preferences.recovery) := by
  unfold recover
  cases p.preferences.recovery with
  | false => simp
  | true => cases resume? inBlock Limit.recoveryScan p.stream <;> simp [log]

end Parser

namespace Parsing

open EvlCheck.Parser ParseM

variable [Build]

theorem halted_afterFailure (inBlock : Bool) (start : Nat) (e : SyntaxError) (p : Parser) :
    (afterFailure inBlock start e p).halted = (p.halted || !p.preferences.recovery) := by
  have hrecover := (p.reportError e).halted_recover inBlock
  rw [halted_reportError, (onward_reportError p e).preferences] at hrecover
  unfold afterFailure
  dsimp only
  split
  · exact hrecover
  · exact hrecover

/-- At the end of the source a block is not closed. -/
theorem closeBlock_of_atEnd {p : Parser} (h : p.stream.atEnd = true) :
    closeBlock p = p.reportError
      (.unexpectedEnd (Token.symbol .rightBrace).expectation p.stream.current.span) := by
  have heof : p.stream.current.value = .eof := Token.eq_eof_of_isEof h
  unfold closeBlock TokenStream.expect
  dsimp only
  rw [heof]
  rfl

/-! ## A parse that stops at the first error -/

/-- The parse has not stopped, and the cursor is inside so many blocks. Only blocks that the source
leaves open were reported, and only at its end. -/
structure Going (s₀ : TokenStream) (base : List SyntaxDiagnostic) (depth missing : Nat) (p : Parser) :
    Prop where
  tokens : p.stream.significant = s₀.significant
  position : p.position ≤ s₀.front.length
  halts : p.preferences.recovery = false
  running : p.halted = false
  errors : p.errors = List.replicate missing (s₀.unclosed.report s₀.ending.span) ++ base
  blocks : Token.openBlocks (s₀.front.take p.position) = depth + missing
  ended : missing = 0 ∨ p.position = s₀.front.length

/-- The parse has stopped at an error, which is the first one unless the source leaves blocks open. -/
structure Stopped (s₀ : TokenStream) (base : List SyntaxDiagnostic) (p : Parser) : Prop where
  tokens : p.stream.significant = s₀.significant
  halted : p.halted = true
  errors : ∃ (d : SyntaxDiagnostic) (missing : Nat),
    p.errors = d :: (List.replicate missing (s₀.unclosed.report s₀.ending.span) ++ base) ∧
      (missing = 0 ∨ d.IsAt s₀.ending.spanned ∧ missing ≤ Token.openBlocks s₀.front)

/-- The parse goes on inside so many blocks, or it has stopped. -/
def Kept (s₀ : TokenStream) (base : List SyntaxDiagnostic) (depth : Nat) (p : Parser) : Prop :=
  (∃ missing, Going s₀ base depth missing p) ∨ Stopped s₀ base p

variable {s₀ : TokenStream} {base : List SyntaxDiagnostic}

/-- A parse that has stopped reports nothing. -/
theorem lasting_stopped : Lasting (Stopped s₀ base) where
  log _ h := ⟨h.tokens, h.halted, h.errors⟩
  record _ h := ⟨h.tokens, h.halted, h.errors⟩
  advance {p} h := ⟨(onward_advance p).tokens.trans h.tokens, h.halted, h.errors⟩
  reportLoneString {p} h := by
    refine ⟨(onward_reportLoneString p).tokens.trans h.tokens, p.halted_reportLoneString.trans h.halted, ?_⟩
    rw [errors_reportLoneString]
    exact h.errors
  reportError e h _ := by
    rw [reportError_of_halted h.halted]
    exact h
  afterFailure {p} inBlock start e h _ := by
    refine ⟨(onward_afterFailure inBlock start e p).tokens.trans h.tokens, ?_, ?_⟩
    · rw [halted_afterFailure, h.halted, Bool.true_or]
    · rw [errors_afterFailure, reportError_of_halted h.halted]
      exact h.errors

namespace Going

section

variable {depth missing : Nat} {p q : Parser} (h : Going s₀ base depth missing p)
include h

theorem congr (hstream : q.stream = p.stream) (hpreferences : q.preferences = p.preferences)
    (hhalted : q.halted = p.halted) (herrors : q.errors = p.errors) :
    Going s₀ base depth missing q := by
  have hposition : q.position = p.position := congrArg TokenStream.position hstream
  refine ⟨hstream ▸ h.tokens, hposition ▸ h.position, hpreferences ▸ h.halts, hhalted ▸ h.running,
    herrors.trans h.errors, ?_, ?_⟩
  · rw [hposition]
    exact h.blocks
  · rw [hposition]
    exact h.ended

/-- A statement that fails stops the parse. -/
theorem afterFailure {inBlock : Bool} {start : Nat} {e : SyntaxError}
    (he : e.span? = some p.stream.current.span) :
    Stopped s₀ base (afterFailure inBlock start e p) := by
  refine ⟨(onward_afterFailure inBlock start e p).tokens.trans h.tokens, ?_,
    e.report (p.errorSpan e), missing, ?_, ?_⟩
  · rw [halted_afterFailure, h.halts]
    exact Bool.or_true _
  · rw [errors_afterFailure, errors_reportError_of_running h.running, h.errors]
  · rcases h.ended with hnone | hend
    · exact .inl hnone
    · right
      have hspan : p.errorSpan e = s₀.ending.span := by
        unfold errorSpan
        rw [he, TokenStream.current_eq_ending h.tokens hend]
        rfl
      have hblocks := h.blocks
      rw [hend, List.take_length] at hblocks
      rw [hspan]
      exact ⟨⟨rfl, rfl⟩, by omega⟩

variable (hs₀ : s₀.Ended)
include hs₀

theorem position_eq (hend : p.stream.atEnd = true) : p.position = s₀.front.length := by
  refine Nat.le_antisymm h.position (Nat.le_of_not_lt fun hlt => ?_)
  rw [TokenStream.atEnd_eq_false h.tokens hs₀ hlt] at hend
  cases hend

/-- The cursor goes over a token, and the blocks around it change as the token says. -/
theorem advance {depth' : Nat} (hdepth : (depth' : Int) = depth + p.stream.current.value.nesting) :
    Going s₀ base depth' missing p.advance := by
  rcases Nat.lt_or_eq_of_le h.position with hlt | heq
  · have hend := TokenStream.atEnd_eq_false h.tokens hs₀ hlt
    have hmove : p.advance.position = p.position + 1 :=
      TokenStream.position_advance (hs₀.congr h.tokens) (TokenStream.current_ne_eof hend)
    obtain rfl : missing = 0 := h.ended.resolve_right (Nat.ne_of_lt hlt)
    refine ⟨p.stream.significant_advance.trans h.tokens, by omega, h.halts, h.running, h.errors, ?_,
      .inl rfl⟩
    have hblocks := h.blocks
    have htoken := TokenStream.getElem?_front h.tokens hs₀ hlt
    rw [hmove, List.take_add_one]
    unfold Parser.position at htoken hblocks ⊢
    rw [htoken, Option.toList_some, Token.openBlocks_concat, hblocks]
    omega
  · -- At the end of the source the cursor stays.
    have hend := TokenStream.atEnd_of_position_eq h.tokens hs₀ heq
    have hstay : p.advance.stream = p.stream := TokenStream.advance_of_atEnd hend
    rw [Token.eq_eof_of_isEof hend, Token.nesting_eof] at hdepth
    obtain rfl : depth' = depth := by omega
    exact h.congr hstay rfl rfl rfl

end

variable {depth missing : Nat} {p : Parser} (h : Going s₀ base (depth + 1) missing p) (hs₀ : s₀.Ended)
include h hs₀

/-- Another block that is not closed is reported at the end of the source. -/
theorem reportUnclosed (hend : p.stream.atEnd = true) :
    Going s₀ base depth (missing + 1) (Parsing.closeBlock p) := by
  have hlast := h.position_eq hs₀ hend
  have hclose : Parsing.closeBlock p = p.reportError s₀.unclosed := by
    rw [closeBlock_of_atEnd hend, TokenStream.current_eq_ending h.tokens hlast]
    rfl
  have hstream := p.stream_reportError s₀.unclosed
  have hposition : (p.reportError s₀.unclosed).position = p.position :=
    congrArg TokenStream.position hstream
  rw [hclose]
  refine ⟨hstream ▸ h.tokens, hposition ▸ h.position, ?_, ?_, ?_, ?_, .inr (hposition.trans hlast)⟩
  · rw [(onward_reportError p _).preferences]
    exact h.halts
  · rw [halted_reportError]
    exact h.running
  · rw [errors_reportError_of_running h.running, h.errors]
    rfl
  · have hblocks := h.blocks
    rw [hposition]
    omega

/-- Behind its statements a block is closed, or else the source has ended and leaves it open. -/
theorem closeBlock (hends : listEnds true p.stream = true) :
    ∃ missing', Going s₀ base depth missing' (Parsing.closeBlock p) := by
  cases hc : p.stream.check (.symbol .rightBrace) with
  | true =>
    rw [closeBlock_of_check hc]
    refine ⟨missing, h.advance hs₀ ?_⟩
    rw [Token.eq_of_sameKind_symbol hc, Token.nesting_rightBrace]
    omega
  | false =>
    have hend : p.stream.atEnd = true := by
      unfold listEnds at hends
      rwa [hc, Bool.and_false, Bool.or_false] at hends
    exact ⟨missing + 1, h.reportUnclosed hs₀ hend⟩

end Going

/-! ## The rules -/

namespace Kept

variable {depth : Nat} {p : Parser} (h : Kept s₀ base depth p)
include h

/-- What changes neither the tokens nor the errors. -/
theorem congr {q : Parser} (hstream : q.stream = p.stream) (hpreferences : q.preferences = p.preferences)
    (hhalted : q.halted = p.halted) (herrors : q.errors = p.errors) : Kept s₀ base depth q := by
  rcases h with ⟨missing, h⟩ | h
  · exact .inl ⟨missing, h.congr hstream hpreferences hhalted herrors⟩
  · exact .inr ⟨hstream ▸ h.tokens, hhalted ▸ h.halted, herrors ▸ h.errors⟩

theorem afterFailure {inBlock : Bool} {start : Nat} {e : SyntaxError}
    (he : e.span? = some p.stream.current.span) :
    Kept s₀ base depth (afterFailure inBlock start e p) := by
  rcases h with ⟨missing, h⟩ | h
  · exact .inr (h.afterFailure he)
  · exact .inr (lasting_stopped.afterFailure inBlock start e h he)

variable (hs₀ : s₀.Ended)
include hs₀

theorem advance {depth' : Nat} (hdepth : (depth' : Int) = depth + p.stream.current.value.nesting) :
    Kept s₀ base depth' p.advance := by
  rcases h with ⟨missing, h⟩ | h
  · exact .inl ⟨missing, h.advance hs₀ hdepth⟩
  · exact .inr (lasting_stopped.advance h)

theorem advance_keyword {k : Keyword} (hk : p.stream.current.value = .keyword k) :
    Kept s₀ base depth p.advance :=
  h.advance hs₀ (by rw [hk, Token.nesting_keyword, Int.add_zero])

theorem advance_inner (ht : p.stream.current.value.isInner = true) : Kept s₀ base depth p.advance :=
  h.advance hs₀ (by rw [Token.nesting_of_isInner ht, Int.add_zero])

theorem streamEnded : p.stream.Ended := by
  rcases h with ⟨missing, h⟩ | h
  · exact hs₀.congr h.tokens
  · exact hs₀.congr h.tokens

theorem openBlock (hc : p.stream.check (.symbol .leftBrace) = true) :
    Kept s₀ base (depth + 1) p.advance := by
  apply h.advance hs₀
  rw [Token.eq_of_sameKind_symbol hc, Token.nesting_leftBrace]
  exact Int.natCast_succ depth

omit h in
theorem closeBlock (h : Kept s₀ base (depth + 1) p) (hends : listEnds true p.stream = true) :
    Kept s₀ base depth (Parsing.closeBlock p) := by
  rcases h with ⟨missing, h⟩ | h
  · exact .inl (h.closeBlock hs₀ hends)
  · exact .inr (lasting_stopped.closeBlock h)

end Kept

section

variable (hs₀ : s₀.Ended) (depth : Nat)
include hs₀

theorem unbroken_kept : Unbroken (Kept s₀ base depth) where
  log _ h := h.congr rfl rfl rfl rfl
  record _ h := h.congr rfl rfl rfl rfl
  reportLoneString {p} h :=
    h.congr p.stream_reportLoneString (onward_reportLoneString p).preferences
      p.halted_reportLoneString p.errors_reportLoneString
  advance h ht := h.advance_inner hs₀ ht

/-- A statement opens and closes its blocks, and goes over nothing else with braces. -/
theorem stages_kept : Stages (Kept s₀ base depth) (Kept s₀ base depth) (Kept s₀ base depth)
    (Kept s₀ base depth) (Kept s₀ base depth) (Kept s₀ base depth) where
  plain_flat := (unbroken_kept hs₀ depth).toFlat
  inner_flat := (unbroken_kept hs₀ depth).flat
  first h ht := h.advance_inner hs₀ ht
  word h hk := h.advance_keyword hs₀ hk
  behind_inner h := h
  next h hk := h.advance_keyword hs₀ hk
  nextTwo h hk hk' := (h.advance_keyword hs₀ hk).advance_keyword hs₀ hk'
  start_fails h := h
  plain_ends h := ⟨h, h⟩
  inner_ends h := ⟨h, h⟩

end

theorem kept_statements {n depth : Nat}
    (hs : (statement n).Leads (Kept s₀ base depth) (Kept s₀ base depth) (Kept s₀ base depth))
    (inBlock : Bool) {p : Parser} (h : Kept s₀ base depth p) :
    Kept s₀ base depth (statements (statement n) inBlock p).2 :=
  statementsFrom_of_leads hs (fun _ _ _ hq he => hq.afterFailure he) _ _ h

/-- Statements and blocks leave the cursor inside as many blocks as before. -/
theorem leads_kept_statement_block (hs₀ : s₀.Ended) (n : Nat) :
    (∀ depth, (statement n).Leads (Kept s₀ base depth) (Kept s₀ base depth) (Kept s₀ base depth)) ∧
      ∀ depth, (block n).Leads (Kept s₀ base depth) (Kept s₀ base depth) (Kept s₀ base depth) := by
  induction n with
  | zero =>
    constructor
    · intro depth
      unfold statement
      exact leads_tooDeep (unbroken_kept hs₀ depth).toFlat _
    · intro depth
      unfold block
      exact leads_tooDeep (unbroken_kept hs₀ depth).toFlat _
  | succ n ih =>
    constructor
    · intro depth
      unfold statement
      have hkept : Unbroken (Kept s₀ base depth) := unbroken_kept hs₀ depth
      have hvalue := inner_expression n hkept.toWordless
      refine leads_withRule hkept.toWordless ?_
      exact (stages_kept hs₀ depth).leads_statementBody hvalue (ih.2 depth) hvalue (ih.2 depth)
    · intro depth
      unfold block
      refine leads_withRule (unbroken_kept hs₀ depth).toWordless ?_
      refine leads_blockBody (Kept s₀ base (depth + 1))
        (fun p => Kept s₀ base (depth + 1) p ∧ listEnds true p.stream = true) (fun _ h => h)
        (fun _ h hc => h.openBlock hs₀ hc) (fun p h => ?_) fun _ h => .closeBlock hs₀ h.1 h.2
      exact ⟨kept_statements (ih.1 (depth + 1)) true h, listEnds_statements n (h.streamEnded hs₀)⟩

/-! ## What is remembered -/

/-- As many errors are remembered as were reported, up to the limit. -/
def Remembered (base : List SyntaxDiagnostic) (p : Parser) : Prop :=
  ∃ reported, p.errors = reported ++ base ∧
    p.history.errors.length = min reported.length Limit.errorHistory

theorem Remembered.reportError {base : List SyntaxDiagnostic} {p : Parser} (h : Remembered base p)
    (e : SyntaxError) : Remembered base (p.reportError e) := by
  obtain ⟨reported, herrors, hlength⟩ := h
  cases hhalted : p.halted with
  | true =>
    rw [reportError_of_halted hhalted]
    exact ⟨reported, herrors, hlength⟩
  | false =>
    have hhistory : (p.reportError e).history = p.history.record e := by
      unfold Parser.reportError
      rw [hhalted, if_neg Bool.false_ne_true]
      rfl
    refine ⟨e.report (p.errorSpan e) :: reported, ?_, ?_⟩
    · rw [errors_reportError_of_running hhalted, herrors]
      rfl
    · rw [hhistory, ErrorHistory.length_record (by omega), hlength, List.length_cons]
      omega

theorem lasting_remembered (base : List SyntaxDiagnostic) : Lasting (Remembered base) where
  log _ h := h
  record _ h := h
  advance h := h
  reportLoneString {p} h := by
    obtain ⟨reported, herrors, hlength⟩ := h
    exact ⟨reported, p.errors_reportLoneString.trans herrors, p.history_reportLoneString ▸ hlength⟩
  reportError e h _ := h.reportError e
  afterFailure {p} inBlock start e h _ := by
    obtain ⟨reported, herrors, hlength⟩ := h.reportError e
    refine ⟨reported, ?_, ?_⟩
    · rw [errors_afterFailure]
      exact herrors
    · rw [(afterFailure_ahead inBlock start e p).2]
      exact hlength

/-! ## The whole parse -/

/-- At the end of the source, what a parse that is in no block has reported. -/
theorem Kept.reports {p : Parser} (h : Kept s₀ base 0 p) (hs₀ : s₀.Ended)
    (hend : p.stream.atEnd = true) : ∃ (missing : Nat) (others : List SyntaxDiagnostic),
      p.errors = others ++ (List.replicate missing (s₀.unclosed.report s₀.ending.span) ++ base) ∧
      ((others = [] ∧ missing = Token.openBlocks s₀.front) ∨ ∃ d, others = [d] ∧
        (missing = 0 ∨ d.IsAt s₀.ending.spanned ∧ missing ≤ Token.openBlocks s₀.front)) := by
  rcases h with ⟨missing, h⟩ | ⟨-, -, d, missing, herrors, hplace⟩
  · have hblocks := h.blocks
    rw [h.position_eq hs₀ hend, List.take_length] at hblocks
    exact ⟨missing, [], h.errors, .inl ⟨rfl, by omega⟩⟩
  · exact ⟨missing, [d], herrors, .inr ⟨d, rfl, hplace⟩⟩

end Parsing

open EvlCheck.Parser EvlCheck.Parsing

/-- Parsing that is to stop at the first error. Whatever the tokens, it stops at the first statement
that fails; only blocks that the source leaves open are reported besides, each at the end of the
source, and another error behind them is one at that place as well. So no more than one error is
reported, and remembered, unless the tokens open more blocks than they close. -/
theorem parseProgram_halts [Build] (tokens : Array SpannedToken) (preferences : ParserPreferences)
    (reporter : Reporter) (hrecovery : preferences.recovery = false) :
    let stream := TokenStream.ofTokens tokens
    let result := (start stream preferences reporter).parseProgram.2
    ∃ (missing : Nat) (others : List SyntaxDiagnostic),
      result.errors = others ++
        (List.replicate missing (stream.unclosed.report stream.ending.span) ++ reporter.errors) ∧
      result.history.errors.length = min (others.length + missing) Limit.errorHistory ∧
      ((others = [] ∧ missing = Token.openBlocks stream.front) ∨ ∃ d, others = [d] ∧
        (missing = 0 ∨ d.IsAt stream.ending.spanned ∧ missing ≤ Token.openBlocks stream.front)) ∧
      (Token.openBlocks stream.front ≤ 0 → others.length + missing ≤ 1) := by
  intro stream result
  obtain ⟨p, ⟨hstream, hpreferences, hhistory, hhalted, herrors⟩, -, -, hlast, hreported⟩ :=
    exists_program stream preferences reporter
  have hended : stream.Ended := TokenStream.ended_ofTokens_any tokens
  have hposition : p.position = 0 := position_eq_zero hstream
  have hstart : Kept stream reporter.errors 0 p := by
    refine .inl ⟨0, hstream ▸ rfl, by omega, hpreferences ▸ hrecovery, hhalted, herrors, ?_, .inl rfl⟩
    rw [hposition]
    rfl
  -- The program is one list of statements, which ends with the source.
  have hkept : Kept stream reporter.errors 0 (program p).2 :=
    kept_statements ((leads_kept_statement_block hended Limit.parseDepth).1 0) false hstart
  have hend : (program p).2.stream.atEnd = true := by
    have hends : listEnds false (program p).2.stream = true :=
      listEnds_statements Limit.parseDepth (hstream ▸ hended)
    simpa [listEnds] using hends
  obtain ⟨missing, others, hreports, hcases⟩ := hkept.reports hended hend
  obtain ⟨reported, hsame, hlength⟩ : Remembered reporter.errors (program p).2 :=
    (lasting_remembered reporter.errors).program ⟨[], herrors, by rw [hhistory]; rfl⟩
  have hcount : reported.length = others.length + missing := by
    have := congrArg List.length (hsame.symm.trans hreports)
    simp only [List.length_append, List.length_replicate] at this
    omega
  refine ⟨missing, others, hreported.trans hreports, ?_, hcases, fun hclosed => ?_⟩
  · rw [hlast, hlength, hcount]
  · rcases hcases with ⟨rfl, hopen⟩ | ⟨d, rfl, hnone | ⟨-, hopen⟩⟩
    · rw [List.length_nil]
      omega
    · rw [List.length_singleton]
      omega
    · rw [List.length_singleton]
      omega

/-- The tokens of a block that is closed, and two brackets behind it that begin no statement. -/
def closedTokens : Array SpannedToken :=
  #[⟨.symbol .leftBrace, .dummy⟩, ⟨.symbol .rightBrace, .dummy⟩, ⟨.symbol .rightParen, .dummy⟩,
    ⟨.symbol .rightParen, .dummy⟩, ⟨.eof, .dummy⟩]

theorem parseProgram_halts_closed :
    let preferences : ParserPreferences := { recovery := false }
    let stream := TokenStream.ofTokens closedTokens
    preferences.recovery = false ∧ Token.openBlocks stream.front ≤ 0 ∧
      (start stream preferences {}).parseProgram.2.errors.length ≤ 1 ∧
      (start stream preferences {}).parseProgram.2.history.errors.length ≤ 1 := by
  intro preferences stream
  have hclosed : Token.openBlocks stream.front ≤ 0 := by decide
  obtain ⟨missing, others, herrors, hlength, -, hone⟩ :=
    parseProgram_halts closedTokens preferences {} rfl
  have hcount := hone hclosed
  refine ⟨rfl, hclosed, ?_, ?_⟩
  · have hnone : ({} : Reporter).errors = [] := rfl
    rw [herrors, hnone, List.append_nil, List.length_append, List.length_replicate]
    exact hcount
  · rw [hlength]
    omega

/-- The tokens of two blocks, one in the other, that are not closed. -/
def openTokens : Array SpannedToken :=
  #[⟨.symbol .leftBrace, ⟨0, 1, 1⟩, ⟨1, 1, 2⟩⟩, ⟨.symbol .leftBrace, ⟨2, 1, 3⟩, ⟨3, 1, 4⟩⟩,
    ⟨.eof, ⟨3, 1, 4⟩, ⟨3, 1, 4⟩⟩]

/-- Each of them is reported, though the parse is to stop at the first error. -/
theorem parseProgram_halts_open :
    let result := (start (.ofTokens openTokens) { recovery := false } {}).parseProgram.2
    result.errors.map (·.message) =
      ["missing '\x7d' at '<EOF>' (token: \"<EOF>\")", "missing '\x7d' at '<EOF>' (token: \"<EOF>\")"] ∧
    result.history.errors.length = 2 := by
  decide +kernel

end EvlCheck
