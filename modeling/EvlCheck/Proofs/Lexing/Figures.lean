/-
The figures of an analyzer account for every token. Each figure is the number of tokens of its class,
the total is the sum of them, and the counts by terminal add up to the total. Each error token has its
one fault, and the listener hears of each fault once, where the token starts, unless the fault is an
invalid character and these are not wanted.
-/
import EvlCheck.Lexing.Analyzer
import EvlCheck.Proofs.Lexing.Lines
import Mathlib.Algebra.Ring.Nat
import Mathlib.Data.List.Forall2

namespace EvlCheck

/-! ## Figures by class -/

/-- The figures that count tokens of one class. -/
inductive Figure where
  | keywords | identifiers | literals | operators | invalid | comments
  deriving DecidableEq

namespace Figure

/-- The figure in which a token is counted; blanks and the end of the source are in none. -/
def of? : Token → Option Figure
  | .keyword _ => some .keywords
  | .identifier _ => some .identifiers
  | .integer _ | .real _ | .string _ => some .literals
  | .symbol _ => some .operators
  | .error _ => some .invalid
  | .lineComment _ | .blockComment _ => some .comments
  | .whitespace _ | .eof => none

/-- A token belongs to the class of the figure. -/
def Holds (f : Figure) (t : SpannedToken) : Bool := of? t.value = some f

/-- What the figures say. -/
def read (m : LexMetrics) : Figure → Nat
  | .keywords => m.keywords
  | .identifiers => m.identifiers
  | .literals => m.literals
  | .operators => m.operators
  | .invalid => m.invalid
  | .comments => m.comments

/-- The figure of a token goes up by one, and no other does. -/
theorem read_recordClass (m : LexMetrics) (t : Token) (f : Figure) :
    f.read (m.recordClass t) = f.read m + if of? t = some f then 1 else 0 := by
  cases t <;> cases f <;> rfl

theorem read_record (p : LexicalPreferences) (m : LexMetrics) (t : Token) (f : Figure) :
    f.read (m.record p t) = f.read m + if of? t = some f then 1 else 0 := by
  rw [← read_recordClass]
  unfold LexMetrics.record
  dsimp only
  split
  · cases f <;> rfl
  · rfl

end Figure

namespace LexMetrics

/-- The sum of the figures that the total is made of. -/
def sum (p : LexicalPreferences) (m : LexMetrics) : Nat :=
  m.keywords + m.identifiers + m.literals + m.operators + m.invalid +
    if p.countComments then m.comments else 0

/-- A token that counts adds one to the total. -/
theorem total_record (p : LexicalPreferences) (m : LexMetrics) (t : Token) :
    (m.record p t).total = m.total + if counts p t then 1 else 0 := by
  have hclass : (m.recordClass t).total = m.total := by cases t <;> rfl
  unfold record
  dsimp only
  split
  · exact congrArg (· + 1) hclass
  · exact hclass

/-- A token that counts adds one to the sum. -/
theorem sum_record (p : LexicalPreferences) (m : LexMetrics) (t : Token) :
    (m.record p t).sum p = m.sum p + if counts p t then 1 else 0 := by
  have hclass : (m.recordClass t).sum p = m.sum p + if counts p t then 1 else 0 := by
    unfold sum
    cases t <;> simp only [recordClass, counts] <;> split <;> simp_all <;> omega
  rw [← hclass]
  unfold record
  dsimp only
  split <;> rfl

/-! ## Counts by terminal -/

/-- The count of the terminal goes up by one, from nothing if it has none, and no other does. -/
theorem lookup_bump (terminal other : String) (counted : List (String × Nat)) :
    (bump terminal counted).lookup other =
      if other = terminal then some ((counted.lookup terminal).getD 0 + 1)
      else counted.lookup other := by
  induction counted with
  | nil =>
    by_cases h : other = terminal
    · simp [bump, h]
    · have hne : (other == terminal) = false := beq_false_of_ne h
      simp [bump, List.lookup_cons, h, hne]
  | cons entry rest ih =>
    obtain ⟨t, n⟩ := entry
    rw [bump]
    by_cases ht : t = terminal
    · subst ht
      by_cases h : other = t
      · simp [h]
      · have hne : (other == t) = false := beq_false_of_ne h
        simp [List.lookup_cons, hne, h]
    · rw [if_neg ht]
      have hback : (terminal == t) = false := beq_false_of_ne (Ne.symm ht)
      by_cases h : other = t
      · subst h
        simp [ht]
      · have hne : (other == t) = false := beq_false_of_ne h
        simpa only [List.lookup_cons, hne, hback] using ih

theorem mem_bump {terminal other : String} {counted : List (String × Nat)}
    (h : other ∈ (bump terminal counted).map (·.1)) :
    other = terminal ∨ other ∈ counted.map (·.1) := by
  induction counted with
  | nil => exact .inl (List.mem_singleton.1 h)
  | cons entry rest ih =>
    obtain ⟨t, n⟩ := entry
    rw [bump] at h
    split at h
    · exact .inr h
    · rw [List.map_cons, List.mem_cons] at h ⊢
      rcases h with rfl | h
      · exact .inr (.inl rfl)
      · exact (ih h).imp_right .inr

/-- No terminal has two counts. -/
theorem nodup_bump (terminal : String) {counted : List (String × Nat)}
    (h : (counted.map (·.1)).Nodup) : ((bump terminal counted).map (·.1)).Nodup := by
  induction counted with
  | nil => exact List.pairwise_singleton _ _
  | cons entry rest ih =>
    obtain ⟨t, n⟩ := entry
    rw [List.map_cons, List.nodup_cons] at h
    rw [bump]
    split
    · exact List.nodup_cons.2 h
    · next ht =>
      refine List.nodup_cons.2 ⟨fun hmem => ?_, ih h.2⟩
      rcases mem_bump hmem with heq | hmem
      · exact ht heq
      · exact h.1 hmem

theorem sum_bump (terminal : String) (counted : List (String × Nat)) :
    ((bump terminal counted).map (·.2)).sum = (counted.map (·.2)).sum + 1 := by
  induction counted with
  | nil => rfl
  | cons entry rest ih =>
    obtain ⟨t, n⟩ := entry
    rw [bump]
    split
    · simp only [List.map_cons, List.sum_cons]
      omega
    · simp only [List.map_cons, List.sum_cons, ih]
      omega

/-- A token that counts enters the counts by terminal, where these are wanted. -/
theorem terminals_record (p : LexicalPreferences) (m : LexMetrics) (t : Token) :
    (m.record p t).terminals =
      if counts p t ∧ p.detailedMetrics then bump t.terminal m.terminals else m.terminals := by
  have hclass : (m.recordClass t).terminals = m.terminals := by cases t <;> rfl
  unfold record
  dsimp only
  by_cases hcounts : counts p t = true
  · simp only [hcounts, if_true, true_and, hclass]
  · rw [if_neg hcounts, if_neg (hcounts ·.1)]
    exact hclass

/-! ## Figures about tokens -/

/-- The token counts as one. -/
def Counted (p : LexicalPreferences) (t : SpannedToken) : Bool := counts p t.value

/-- The token counts as one of a terminal. -/
def CountedAs (p : LexicalPreferences) (terminal : String) (t : SpannedToken) : Bool :=
  Counted p t && t.value.terminal == terminal

/-- Figures that account for some tokens: each is the number of tokens of its class, the total is the
sum of the figures, and the counts by terminal, where these are wanted, are those of the terminals
that occur. -/
structure AccountsFor (p : LexicalPreferences) (m : LexMetrics) (tokens : List SpannedToken) :
    Prop where
  figure : ∀ f : Figure, f.read m = tokens.countP f.Holds
  total : m.total = m.sum p
  counted : m.total = tokens.countP (Counted p)
  distinct : (m.terminals.map (·.1)).Nodup
  terminals : p.detailedMetrics = true → (m.terminals.map (·.2)).sum = m.total ∧
    ∀ terminal, m.terminals.lookup terminal =
      let n := tokens.countP (CountedAs p terminal)
      if n = 0 then none else some n

theorem AccountsFor.nil (p : LexicalPreferences) : AccountsFor p {} [] where
  figure f := by cases f <;> rfl
  total := by simp [sum]
  counted := rfl
  distinct := .nil
  terminals _ := ⟨rfl, fun _ => rfl⟩

/-- One more token is accounted for once it is recorded. -/
theorem AccountsFor.record {p : LexicalPreferences} {m : LexMetrics} {tokens : List SpannedToken}
    (h : AccountsFor p m tokens) (t : SpannedToken) :
    AccountsFor p (m.record p t.value) (tokens ++ [t]) where
  figure f := by
    rw [Figure.read_record, h.figure, List.countP_append, List.countP_singleton]
    simp [Figure.Holds]
  total := by rw [total_record, sum_record, h.total]
  counted := by
    rw [total_record, h.counted, List.countP_append, List.countP_singleton]
    rfl
  distinct := by
    rw [terminals_record]
    split
    · exact nodup_bump _ h.distinct
    · exact h.distinct
  terminals hdetailed := by
    obtain ⟨hsum, hlookup⟩ := h.terminals hdetailed
    simp only [terminals_record, total_record, hdetailed, and_true, List.countP_append,
      List.countP_singleton]
    by_cases hcounts : counts p t.value = true
    · have hcountedAs : ∀ terminal, CountedAs p terminal t = (terminal == t.value.terminal) :=
        fun terminal => by simp [CountedAs, Counted, hcounts, eq_comm]
      simp only [hcounts, if_true, sum_bump, hsum, lookup_bump, hlookup, hcountedAs, beq_iff_eq]
      refine ⟨trivial, fun terminal => ?_⟩
      by_cases heq : terminal = t.value.terminal
      · subst heq
        simp only [if_true, Nat.add_eq_zero_iff]
        split <;> simp_all
      · simp [heq]
    · have hcountedAs : ∀ terminal, CountedAs p terminal t = false :=
        fun terminal => by simp [CountedAs, Counted, hcounts]
      simpa [hcounts, hcountedAs, hsum] using hlookup

/-- The figures about some tokens account for them. -/
theorem accountsFor_ofTokens (p : LexicalPreferences) (tokens : Array SpannedToken) :
    AccountsFor p (ofTokens p tokens) tokens.toList := by
  have hfold : ∀ (more : List SpannedToken) {m : LexMetrics} {before : List SpannedToken},
      AccountsFor p m before →
        AccountsFor p (more.foldl (fun m t => m.record p t.value) m) (before ++ more) := by
    intro more
    induction more with
    | nil =>
      intro m before h
      rwa [List.append_nil]
    | cons t more ih =>
      intro m before h
      rw [List.append_cons]
      exact ih (h.record t)
  unfold ofTokens
  rw [← Array.foldl_toList]
  exact hfold tokens.toList (.nil p)

end LexMetrics

/-! ## The limit on tokens -/

namespace Lexing

open LexMetrics

/-- The token that stands for what is behind a breach is the last one that counts. -/
theorem countP_counted_breach (p : LexicalPreferences) (cs : List Char) (place : Position)
    (fault : LexFault) (tokens : Array SpannedToken) (reports : Array LexReport) :
    (breach cs place fault tokens reports).tokens.toList.countP (Counted p) =
      tokens.toList.countP (Counted p) + 1 := by
  unfold breach
  rw [Array.toList_push, Array.toList_push, List.countP_append, List.countP_append]
  rfl

/-- Lexing that starts within the limit ends with at most one token more than that. -/
theorem countP_counted_tokenizeFrom_le [Build] (p : LexicalPreferences) (cs : List Char)
    (place : Position) (counted : Nat) (tokens : Array SpannedToken) (reports : Array LexReport)
    (hcounted : tokens.toList.countP (Counted p) = counted) (hle : counted ≤ Limit.tokens) :
    (tokenizeFrom p cs place counted tokens reports).tokens.toList.countP (Counted p) ≤
      Limit.tokens + 1 := by
  fun_induction tokenizeFrom p cs place counted tokens reports with
  | case1 place counted tokens reports =>
    rw [Array.toList_push, List.countP_append, hcounted]
    exact Nat.le_succ_of_le hle
  | case2 place counted tokens reports c rest h =>
    rw [countP_counted_breach]
    omega
  | case3 place counted tokens reports c rest h lexeme stop t hok ih =>
    refine ih ?_ (by split <;> omega)
    rw [Array.toList_push, List.countP_append, List.countP_singleton, hcounted]
    unfold Counted
    split <;> rfl
  | case4 place counted tokens reports c rest h lexeme fault hfault hb =>
    rw [countP_counted_breach]
    omega
  | case5 place counted tokens reports c rest h lexeme stop fault hfault hb text ih =>
    refine ih ?_ (by omega)
    rw [Array.toList_push, List.countP_append, List.countP_singleton, hcounted]
    rfl

theorem countP_counted_tokenize_le [Build] (p : LexicalPreferences) (source : String) :
    (tokenize p source).tokens.toList.countP (Counted p) ≤ Limit.tokens + 1 := by
  by_cases hsize : source.utf8ByteSize ≤ Limit.sourceBytes
  · rw [tokenize_of_le hsize]
    exact countP_counted_tokenizeFrom_le p _ _ 0 #[] #[] rfl (Nat.zero_le _)
  · rw [tokenize_of_large (Nat.lt_of_not_le hsize)]
    exact Nat.le_add_left 1 _

/-! ## Faults and error tokens -/

/-- A report is about an error token: it is made where the token starts, and it either tells of the
text of the token and of the fault that the text shows, or of a limit that was breached there. -/
structure Concerns (r : LexReport) (t : SpannedToken) : Prop where
  place : r.place = t.span.start
  lexeme : r.lexeme = if r.fault.isBreach then none else some t.value.text
  fault : r.fault.isBreach = false → r.fault = LexReport.faultOf t.value.text.toList

/-- The error tokens among the tokens. -/
def errorTokens (tokens : Array SpannedToken) : List SpannedToken :=
  tokens.toList.filter (·.value.isError)

/-- Each error token has its report, in the order of the tokens. -/
def FaultByToken (tokens : Array SpannedToken) (reports : Array LexReport) : Prop :=
  List.Forall₂ Concerns reports.toList (errorTokens tokens)

theorem FaultByToken.push {tokens : Array SpannedToken} {reports : Array LexReport}
    (h : FaultByToken tokens reports) {t : SpannedToken} (ht : t.value.isError = false) :
    FaultByToken (tokens.push t) reports := by
  unfold FaultByToken errorTokens
  rw [Array.toList_push, List.filter_append, List.filter_cons_of_neg (by simp [ht]),
    List.filter_nil, List.append_nil]
  exact h

theorem FaultByToken.push_both {tokens : Array SpannedToken} {reports : Array LexReport}
    (h : FaultByToken tokens reports) {t : SpannedToken} {r : LexReport}
    (ht : t.value.isError = true) (hr : Concerns r t) :
    FaultByToken (tokens.push t) (reports.push r) := by
  unfold FaultByToken errorTokens
  have herror : [t].filter (·.value.isError) = [t] := List.filter_cons_of_pos ht
  rw [Array.toList_push, Array.toList_push, List.filter_append, herror]
  exact List.rel_append h (.cons hr .nil)

theorem FaultByToken.breach {tokens : Array SpannedToken} {reports : Array LexReport}
    (h : FaultByToken tokens reports) (cs : List Char) (place : Position) {fault : LexFault}
    (hb : fault.isBreach = true) :
    FaultByToken (breach cs place fault tokens reports).tokens
      (breach cs place fault tokens reports).reports := by
  refine (h.push_both rfl ⟨rfl, ?_, fun hno => ?_⟩).push rfl
  · exact (if_pos hb).symm
  · rw [hb] at hno
    cases hno

theorem faultByToken_tokenizeFrom [Build] (p : LexicalPreferences) (cs : List Char)
    (place : Position) (counted : Nat) (tokens : Array SpannedToken) (reports : Array LexReport)
    (h : FaultByToken tokens reports) :
    FaultByToken (tokenizeFrom p cs place counted tokens reports).tokens
      (tokenizeFrom p cs place counted tokens reports).reports := by
  fun_induction tokenizeFrom p cs place counted tokens reports with
  | case1 place counted tokens reports => exact h.push rfl
  | case2 place counted tokens reports c rest => exact h.breach _ _ rfl
  | case3 place counted tokens reports c rest _ lexeme stop t hok ih =>
    exact ih (h.push (isError_of_scan hok))
  | case4 place counted tokens reports c rest _ lexeme fault hfault hb => exact h.breach _ _ hb
  | case5 place counted tokens reports c rest _ lexeme stop fault hfault hb text ih =>
    have hlocal : fault.isBreach = false := by simpa using hb
    refine ih (h.push_both rfl ⟨rfl, ?_, fun _ => ?_⟩)
    · rw [if_neg hb]
      rfl
    · rw [Token.text, String.toList_ofList]
      exact (fault_scan hfault hlocal).symm

theorem faultByToken_tokenize [Build] (p : LexicalPreferences) (source : String) :
    FaultByToken (tokenize p source).tokens (tokenize p source).reports := by
  by_cases hsize : source.utf8ByteSize ≤ Limit.sourceBytes
  · rw [tokenize_of_le hsize]
    exact faultByToken_tokenizeFrom p _ _ 0 #[] #[] .nil
  · unfold tokenize
    rw [if_pos (Nat.lt_of_not_le hsize)]
    exact .cons ⟨rfl, rfl, nofun⟩ .nil

/-- The reports that are wanted, as diagnostics at the start of their tokens. -/
theorem diagnostics_of_concerns [Build] {reports : List LexReport} {tokens : List SpannedToken}
    (h : List.Forall₂ Concerns reports tokens) (wanted : LexReport → Bool) :
    (reports.filter wanted).map LexReport.diagnostic =
      ((reports.zip tokens).filter (wanted ·.1)).map fun e =>
        Reporter.errorReport none e.2.span.start.line e.2.span.start.charInLine e.1.notice := by
  induction h with
  | nil => rfl
  | @cons r t reports tokens hr _ ih =>
    rw [List.zip_cons_cons, List.filter_cons, List.filter_cons]
    split
    · rw [List.map_cons, List.map_cons, ih, LexReport.diagnostic, hr.place]
    · exact ih

end Lexing

/-- What an analyzer tells of a source, whatever it read before. The figures account for the tokens,
and no more tokens count than permitted and one. There is one fault for each error token, in order, and
the listener hears of each fault that it wants to hear of once, at the start of its token. -/
theorem Analyzer.tokenize_accounts [Build] (a : Analyzer) (source : String) (out : Reporter) :
    let run := a.tokenize source out
    let faults := run.analyzer.faults.toList
    let errors := Lexing.errorTokens run.tokens
    LexMetrics.AccountsFor a.preferences run.analyzer.metrics run.tokens.toList ∧
      run.analyzer.metrics.total ≤ Limit.tokens + 1 ∧
      List.Forall₂ Lexing.Concerns faults errors ∧
      run.reporter.reported.reverse = out.reported.reverse ++
        ((faults.zip errors).filter fun e => TokenizedSource.reaches a.preferences e.1.fault).map
          fun e => Reporter.errorReport none e.2.span.start.line e.2.span.start.charInLine
            e.1.notice := by
  intro run faults errors
  -- Figures are counted again for each source, whatever the analyzer had before.
  have hfigures := LexMetrics.accountsFor_ofTokens a.preferences run.tokens
  have hfaults : List.Forall₂ Lexing.Concerns faults errors :=
    Lexing.faultByToken_tokenize a.preferences source
  refine ⟨hfigures, ?_, hfaults, ?_⟩
  · have hlimit := Lexing.countP_counted_tokenize_le a.preferences source
    exact hfigures.counted.trans_le hlimit
  · have hheard := TokenizedSource.reported_report a.preferences source
      (Lexing.tokenize a.preferences source) out
    exact hheard.trans (congrArg _ (Lexing.diagnostics_of_concerns hfaults _))

end EvlCheck
