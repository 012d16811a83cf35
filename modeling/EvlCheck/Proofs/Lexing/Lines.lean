/-
Lines are lexed on their own. A text, a line feed and another text have the tokens and the reports of
the one and then those of the other, further on by the bytes and the lines of what stands before,
as long as the first text does not end inside a comment.

Only blanks and block comments hold a line feed (`Spells.of_lineEnd`). So a piece of the first text
is read in front of the line feed as it is read alone, unless nothing but blanks follows; there the
blanks before and behind the line feed make one piece, and `Cut.skip_blanks` takes them together.
-/
import EvlCheck.Proofs.Fix.Place
import EvlCheck.Proofs.Lexing.Reading

namespace EvlCheck

open EvlCheck.Text

/-! ## Moving places -/

/-- The place in the same column, that many bytes and lines further on. -/
def Position.moved (bytes lines : Nat) (p : Position) : Position :=
  ⟨p.offset + bytes, p.line + lines, p.column⟩

def Span.moved (bytes lines : Nat) (s : Span) : Span :=
  ⟨s.start.moved bytes lines, s.stop.moved bytes lines⟩

def SpannedToken.moved (bytes lines : Nat) (t : SpannedToken) : SpannedToken :=
  ⟨t.value, t.span.moved bytes lines⟩

@[simp] theorem SpannedToken.value_moved (bytes lines : Nat) (t : SpannedToken) :
    (t.moved bytes lines).value = t.value := rfl

def LexReport.moved (bytes lines : Nat) (r : LexReport) : LexReport :=
  { r with place := r.place.moved bytes lines }

def SyntaxDiagnostic.moved (lines : Nat) (d : SyntaxDiagnostic) : SyntaxDiagnostic :=
  { d with line := d.line + lines }

namespace Position

theorem moved_advance (bytes lines : Nat) (p : Position) (c : Char) :
    (p.moved bytes lines).advance c = (p.advance c).moved bytes lines := by
  unfold advance moved
  split
  · simp only [mk.injEq, and_true]; omega
  · simp only [mk.injEq, and_true]; omega

theorem moved_advanceAll (bytes lines : Nat) (p : Position) (cs : List Char) :
    (p.moved bytes lines).advanceAll cs = (p.advanceAll cs).moved bytes lines := by
  induction cs generalizing p with
  | nil => rfl
  | cons c cs ih => rw [advanceAll_cons, advanceAll_cons, moved_advance, ih]

/-- Behind a line feed a text begins as a source does. -/
theorem start_advanceAll_lineFeed (cs : List Char) :
    start.advanceAll (cs ++ ['\n']) = start.moved (byteSize cs + 1) (cs.count '\n' + 1) := by
  have hoffset := offset_advanceAll start cs
  have hline := line_advanceAll start cs
  have hstart : start.offset = 0 ∧ start.line = 1 := ⟨rfl, rfl⟩
  rw [advanceAll_append, advanceAll_cons, advanceAll_nil, advance, if_pos rfl, moved, mk.injEq]
  exact ⟨by omega, by omega, rfl⟩

end Position

/-! ## Reports and error tokens -/

namespace LexReport

/-- The fault of a piece of text by its first characters. -/
def faultOf : List Char → LexFault
  | '/' :: '*' :: _ => .unterminatedComment
  | c :: _ => if c = '"' then .unterminatedString else .invalidCharacter c
  | [] => .unterminatedString

/-- The report of an error token. -/
def ofToken (t : SpannedToken) : LexReport :=
  ⟨faultOf t.value.text.toList, t.span.start, some t.value.text⟩

/-- What a report says as a diagnostic. -/
def diagnostic [Build] (r : LexReport) : SyntaxDiagnostic :=
  Reporter.errorReport none r.place.line r.place.charInLine r.notice

/-- The text of a report about one lexeme does not depend on the place. -/
theorem diagnostic_moved [Build] {r : LexReport} (h : r.lexeme.isSome = true) (bytes lines : Nat) :
    (r.moved bytes lines).diagnostic = r.diagnostic.moved lines := by
  have hnotice : (r.moved bytes lines).notice = r.notice := by
    unfold notice moved
    cases hr : r.lexeme with
    | some text => rfl
    | none => rw [hr] at h; cases h
  rw [diagnostic, hnotice]
  rfl

end LexReport

/-- The listener hears of the reports in their order, save those that are not wanted. -/
theorem TokenizedSource.reported_report [Build] (p : LexicalPreferences) (source : String)
    (s : TokenizedSource) (out : Reporter) :
    (s.report p source out).reported.reverse = out.reported.reverse ++
      (s.reports.toList.filter fun r => reaches p r.fault).map LexReport.diagnostic := by
  have hfold : ∀ (reports : List LexReport) (out : Reporter),
      (reports.foldl (reportFault p) out).reported.reverse = out.reported.reverse ++
        (reports.filter fun r => reaches p r.fault).map LexReport.diagnostic := by
    intro reports
    induction reports with
    | nil => simp
    | cons r rest ih =>
      intro out
      rw [List.foldl_cons, ih, List.filter_cons]
      unfold reportFault
      by_cases hr : reaches p r.fault = true
      · simp [hr, Reporter.syntaxError, LexReport.diagnostic]
      · simp [hr]
  unfold report
  simp only [← Array.foldl_toList, Reporter.reported_log, hfold]

namespace Lexing

section

variable {c : Char} {rest : List Char} {fault : LexFault}

theorem isBreach_commentOutcome [Build] {make : String → Token} {taken : List Char}
    (h : commentOutcome make taken = .error fault) : fault.isBreach = true := by
  unfold commentOutcome at h
  dsimp only at h
  split at h <;> cases h
  rfl

theorem isBreach_wordOutcome [Build] {taken : List Char} (h : wordOutcome taken = .error fault) :
    fault.isBreach = true := by
  unfold wordOutcome at h
  dsimp only at h
  split at h <;> cases h
  rfl

/-- A comment within the limits is at fault where nothing closes it, and then takes all of the text. -/
theorem scanBlockComment_error [Build] {body : List Char}
    (h : (scanBlockComment body).outcome = .error fault) :
    fault.isBreach = true ∨
      fault = .unterminatedComment ∧ (scanBlockComment body).taken = '/' :: '*' :: body := by
  unfold scanBlockComment at h ⊢
  cases hclose : closeComment ['*', '/'] body with
  | mk taken after =>
    rw [hclose] at h
    cases after with
    | some after => exact .inl (isBreach_commentOutcome h)
    | none =>
      cases h
      exact .inr ⟨rfl, closeComment_none hclose⟩

theorem scanNumber_ne_error (cs : List Char) : (scanNumber cs).outcome ≠ .error fault := by
  intro h
  unfold scanNumber at h
  split at h
  · split at h <;> cases h
  · cases h

/-- A string within the limits is at fault where nothing closes it. -/
theorem scanString_error [Build] {body : List Char} (h : (scanString body).outcome = .error fault) :
    fault.isBreach = true ∨ fault = .unterminatedString ∧ ∃ more, (scanString body).taken = '"' :: more := by
  unfold scanString at h ⊢
  cases hclose : closeString ['"'] body with
  | mk taken after =>
    obtain ⟨after, closed⟩ := after
    rw [hclose] at h
    cases closed with
    | true =>
      dsimp only at h
      split at h <;> cases h
      exact .inl rfl
    | false =>
      cases h
      exact .inr ⟨rfl, _, taken_of_closeString hclose⟩

/-- What is no symbol is at fault, and taken alone. -/
theorem scanSymbol_error (h : (scanSymbol c rest).outcome = .error fault) :
    fault = .invalidCharacter c ∧ (scanSymbol c rest).taken = [c] := by
  have hsingle : (scanSingle c rest).outcome = .error fault →
      fault = .invalidCharacter c ∧ (scanSingle c rest).taken = [c] := by
    intro h
    unfold scanSingle at h ⊢
    split at h <;> cases h
    exact ⟨rfl, rfl⟩
  unfold scanSymbol at h ⊢
  split at h
  · split at h
    · cases h
    · exact hsingle h
  · exact hsingle h

/-- The characters that a lexeme at fault takes show the fault. -/
theorem fault_scan [Build] (h : (scan c rest).outcome = .error fault)
    (hb : fault.isBreach = false) :
    LexReport.faultOf (scan c rest).taken = fault := by
  have hlimit : ¬ fault.isBreach = true := Bool.eq_false_iff.1 hb
  unfold scan at h ⊢
  split at h
  · cases h
  split at h
  · exact absurd (isBreach_commentOutcome h) hlimit
  split at h
  · next hgap hline hblock =>
    obtain ⟨rfl, htaken⟩ := (scanBlockComment_error h).resolve_left hlimit
    rw [if_neg hgap, if_neg hline, if_pos hblock, htaken]
    rfl
  split at h
  · exact absurd h (scanNumber_ne_error _)
  split at h
  · next hgap hline hblock hdigit hquote =>
    obtain ⟨rfl, more, htaken⟩ := (scanString_error h).resolve_left hlimit
    rw [if_neg hgap, if_neg hline, if_neg hblock, if_neg hdigit, if_pos hquote, htaken]
    rfl
  split at h
  · exact absurd (isBreach_wordOutcome h) hlimit
  · next hgap hline hblock hdigit hquote hname =>
    obtain ⟨rfl, htaken⟩ := scanSymbol_error h
    rw [if_neg hgap, if_neg hline, if_neg hblock, if_neg hdigit, if_neg hquote, if_neg hname, htaken]
    simp [LexReport.faultOf, hquote]

end

/-- What the scanner takes for a token is no error token. -/
theorem isError_of_scan [Build] {c : Char} {rest : List Char} {t : Token}
    (h : (scan c rest).outcome = .ok t) : t.isError = false := by
  have hreads := reads_scan c rest
  rw [Reads, h] at hreads
  cases t with
  | error s => exact absurd rfl (hreads.1.spells.ne_error s)
  | _ => rfl

/-- Where no limit stops the lexing, the reports are those of the error tokens. -/
theorem reports_tokenizeFrom [Build] (p : LexicalPreferences) (cs : List Char) (place : Position)
    (counted : Nat) (tokens : Array SpannedToken) (reports : Array LexReport)
    (hlimit : ¬ (tokenizeFrom p cs place counted tokens reports).Limited)
    (hsofar : reports.toList = (tokens.toList.filter (·.value.isError)).map LexReport.ofToken) :
    (tokenizeFrom p cs place counted tokens reports).reports.toList =
      ((tokenizeFrom p cs place counted tokens reports).tokens.toList.filter
        (·.value.isError)).map LexReport.ofToken := by
  fun_induction tokenizeFrom p cs place counted tokens reports with
  | case1 place counted tokens reports => simp [hsofar, Token.isError]
  | case2 place counted tokens reports c rest h =>
    exact absurd (limited_breach _ place tokens reports rfl) hlimit
  | case3 place counted tokens reports c rest h lexeme stop t hok ih =>
    exact ih hlimit (by simp [hsofar, isError_of_scan hok])
  | case4 place counted tokens reports c rest h lexeme fault hfault hb =>
    exact absurd (limited_breach _ place tokens reports hb) hlimit
  | case5 place counted tokens reports c rest h lexeme stop fault hfault hb text ih =>
    have hof : LexReport.faultOf lexeme.taken = fault := fault_scan hfault (by simpa using hb)
    refine ih hlimit ?_
    simp [hsofar, Token.isError, LexReport.ofToken, Token.text, text, hof]

theorem tokenize_eq_tokenizeFrom [Build] {p : LexicalPreferences} {source : String}
    (h : ¬ (tokenize p source).Limited) :
    tokenize p source = tokenizeFrom p source.toList .start 0 #[] #[] :=
  tokenize_of_le (Nat.le_of_not_lt fun hlt => h (limited_of_large hlt))

theorem reports_tokenize [Build] {p : LexicalPreferences} {source : String}
    (h : ¬ (tokenize p source).Limited) :
    (tokenize p source).reports.toList =
      ((tokenize p source).tokens.toList.filter (·.value.isError)).map LexReport.ofToken := by
  have hfrom := tokenize_eq_tokenizeFrom h
  rw [hfrom] at h ⊢
  exact reports_tokenizeFrom p _ _ _ _ _ h rfl

/-! ## Words and line feeds -/

theorem StringBody.not_mem_lineEnd {body : List Char} (h : StringBody body) {d : Char}
    (hd : d = '\r' ∨ d = '\n') : d ∉ body := by
  induction h with
  | nil => exact List.not_mem_nil
  | plain quote backslash cr lf body ih => rcases hd with rfl | rfl <;> simp [cr.symm, lf.symm, ih]
  | escape cr lf body ih => rcases hd with rfl | rfl <;> simp [cr.symm, lf.symm, ih]

/-- A word with a character that ends lines is a run of blanks or a block comment. -/
theorem Spells.of_lineEnd {w : List Char} {t : Token} (h : Spells w t) {d : Char} (hmem : d ∈ w)
    (hd : d = '\r' ∨ d = '\n') :
    (∀ c ∈ w, isGap c = true) ∨
      ∃ body, w = '/' :: '*' :: (body ++ ['*', '/']) ∧ ¬ ['*', '/'] <:+: body ++ ['*'] := by
  have hdigit : ¬ d.isDigit = true := by rcases hd with rfl | rfl <;> decide
  cases h with
  | whitespace nonempty blank => exact .inl fun c hc => (isGap_iff c).2 (blank c hc)
  | lineComment line =>
    have hslash : d ≠ '/' := by rcases hd with rfl | rfl <;> decide
    simp only [List.mem_cons, hslash, false_or] at hmem
    exact absurd hd (not_or.2 (line d hmem))
  | blockComment first => exact .inr ⟨_, rfl, first⟩
  | integer nonempty digits => exact absurd (digits d hmem) hdigit
  | real whole_ne part_ne whole_digits part_digits =>
    have hpoint : d ≠ '.' := by rcases hd with rfl | rfl <;> decide
    rcases List.mem_append.1 hmem with hmem | hmem
    · exact absurd (whole_digits d hmem) hdigit
    · exact absurd (part_digits d ((List.mem_cons.1 hmem).resolve_left hpoint)) hdigit
  | string inside =>
    have hquote : d ≠ '"' := by rcases hd with rfl | rfl <;> decide
    exact absurd (by simpa [hquote] using hmem) (inside.not_mem_lineEnd hd)
  | symbol s => rcases hd with rfl | rfl <;> cases s <;> exact absurd hmem (by decide)
  | keyword k => rcases hd with rfl | rfl <;> cases k <;> exact absurd hmem (by decide)
  | identifier start more free =>
    have hpart : ¬ (d.isAlphanum = true ∨ d = '_') := by rcases hd with rfl | rfl <;> decide
    rcases List.mem_cons.1 hmem with rfl | hmem
    · exact absurd start (by rcases hd with rfl | rfl <;> decide)
    · exact absurd (more d hmem) hpart

theorem takeWhile_lineFeed (q : Char → Bool) (h : q '\n' = false) (cs more : List Char) :
    (cs ++ '\n' :: more).takeWhile q = cs.takeWhile q := by
  induction cs with
  | nil => simp [h]
  | cons c cs ih => by_cases hc : q c = true <;> simp [hc, ih]

/-- A text begins with a comment that it does not close. -/
def OpensComment (cs : List Char) : Prop :=
  ∃ rest, cs = '/' :: '*' :: rest ∧ ¬ ['*', '/'] <:+: rest

section

variable {cs more w : List Char} {t : Token} (hsolid : ∃ c ∈ cs, isGap c = false)
  (hopen : ¬ OpensComment cs)
include hsolid hopen

/-- A word at the head of a text that is neither blank nor an open comment stops before the line
feed behind the text. -/
theorem Spells.prefix_line (hs : Spells w t) (hw : w <+: cs ++ '\n' :: more) : w <+: cs := by
  rcases List.prefix_or_prefix_of_prefix hw (List.prefix_append cs _) with hbefore | hcs
  · exact hbefore
  obtain ⟨tail, rfl⟩ := hcs
  cases tail with
  | nil => simp
  | cons d tail =>
    obtain ⟨rfl, htail⟩ := List.cons_prefix_cons.1 ((List.prefix_append_right_inj cs).1 hw)
    exfalso
    rcases hs.of_lineEnd (List.mem_append_right cs List.mem_cons_self) (.inr rfl) with hblank | ⟨body, hbody, hfirst⟩
    · obtain ⟨c, hc, hgap⟩ := hsolid
      rw [hblank c (List.mem_append_left _ hc)] at hgap
      cases hgap
    · -- The text is the comment up to some character before the closing slash.
      match cs, hsolid, hopen with
      | [], ⟨_, hc, _⟩, _ => cases hc
      | [c], _, _ => cases hbody
      | c :: d :: rest, _, hopen =>
        simp only [List.cons_append, List.cons.injEq] at hbody
        obtain ⟨rfl, rfl, hrest⟩ := hbody
        refine hopen ⟨rest, rfl, fun hmark => hfirst (hmark.trans ?_)⟩
        have hbody' : body ++ ['*'] <+: body ++ ['*', '/'] := ⟨['/'], by simp⟩
        refine (List.prefix_of_prefix_length_le ⟨_, hrest⟩ hbody' ?_).isInfix
        have hlength := congrArg List.length hrest
        simp only [List.length_append, List.length_cons, List.length_nil] at hlength ⊢
        omega

/-- What stands at the head of such a text is read in front of a line feed as it is read alone. -/
theorem Reading.in_line (h : Reading False cs w t) :
    Reading False (cs ++ '\n' :: more) w t := by
  cases h with
  | word longest sound =>
    refine .word ⟨longest.at_head.trans (List.prefix_append cs _), longest.spells,
      fun v u hv hu => longest.longest v u (hu.prefix_line hsolid hopen hv) hu⟩
      (not_faulty (longest.at_head.trans (List.prefix_append cs _)) longest.spells ?_)
    intro rest hrest
    match cs, hsolid, hopen with
    | [], ⟨_, hc, _⟩, _ => cases hc
    | [c], _, _ => cases hrest
    | c :: d :: cs, _, hopen =>
      cases hrest
      by_contra hmark
      exact hopen ⟨cs, rfl, fun hin => hmark (hin.trans (List.prefix_append cs _).isInfix)⟩
  | fault faulty =>
    refine .fault ?_
    cases faulty with
    | unclosedString hnone =>
      rw [← takeWhile_lineFeed _ rfl _ more]
      exact .unclosedString fun v s hv hs => hnone v s (hs.prefix_line hsolid hopen hv) hs
    | @unclosedComment rest hnone => exact absurd ⟨rest, rfl, hnone⟩ hopen
    | stray quote hnone =>
      exact .stray quote fun v u hv hu => hnone v u (hu.prefix_line hsolid hopen hv) hu
  | stopped breach => exact breach.elim

end

/-! ## Blanks -/

theorem reading_blanks {g rest : List Char} (hne : g ≠ []) (hg : ∀ c ∈ g, isGap c = true)
    (hrest : ∀ d ∈ rest.head?, isGap d = false) :
    Reading False (g ++ rest) g (.whitespace (String.ofList g)) :=
  reading_of_stops (.whitespace hne fun c hc => (isGap_iff c).1 (hg c hc)) hrest

/-- A piece that begins with a blank is all the blanks up to another character. -/
theorem Reading.of_gap {c : Char} {w rest : List Char} {t : Token}
    (h : Reading False (c :: w ++ rest) (c :: w) t) (hc : isGap c = true) :
    t = .whitespace (String.ofList (c :: w)) ∧ (∀ d ∈ c :: w, isGap d = true) ∧
      ∀ d ∈ rest.head?, isGap d = false := by
  have hsplit := List.takeWhile_append_dropWhile (p := isGap) (l := c :: w ++ rest)
  have hbehind : ∀ d ∈ ((c :: w ++ rest).dropWhile isGap).head?, isGap d = false := by
    intro d hd
    have hdrop := List.head?_dropWhile_not isGap (c :: w ++ rest)
    rw [hd] at hdrop
    simpa using hdrop
  have hsome : (c :: w ++ rest).takeWhile isGap ≠ [] := by simp [hc]
  have hblanks := reading_blanks hsome (fun d hd => List.mem_takeWhile_imp hd) hbehind
  rw [hsplit] at hblanks
  obtain ⟨htaken, ht⟩ := h.unique hblanks
  rw [← htaken] at ht
  rw [← htaken, List.append_cancel_left_eq] at hsplit
  rw [hsplit] at hbehind
  exact ⟨ht, fun d hd => List.mem_takeWhile_imp (htaken ▸ hd), hbehind⟩

def isWhitespace : Token → Bool
  | .whitespace _ => true
  | _ => false

/-- The token is more than blanks. -/
def solid (t : SpannedToken) : Bool := !isWhitespace t.value

/-- Blanks in front of a text add no token but blanks. -/
theorem Cut.skip_blanks {place : Position} {g cs : List Char} {tokens : List SpannedToken}
    (h : Cut (Reading False) (place.advanceAll g) cs tokens) (hne : g ≠ [])
    (hg : ∀ c ∈ g, isGap c = true) :
    ∃ more, Cut (Reading False) place (g ++ cs) more ∧ more.filter solid = tokens.filter solid := by
  have hspace : ∀ {v rest : List Char} {ts : List SpannedToken}, v ≠ [] →
      (∀ c ∈ v, isGap c = true) → (∀ d ∈ rest.head?, isGap d = false) →
      Cut (Reading False) (place.advanceAll v) rest ts → Cut (Reading False) place (v ++ rest)
        (⟨.whitespace (String.ofList v), ⟨place, place.advanceAll v⟩⟩ :: ts) :=
    fun hv hblank hrest next => .piece hv (by simp) rfl (reading_blanks hv hblank hrest) next
  generalize hp : place.advanceAll g = behind at h
  cases h with
  | done =>
    subst hp
    exact ⟨_, hspace hne hg (by simp) (.done _), by simp [solid, isWhitespace]⟩
  | @piece _ taken rest t tokens nonempty inside text ok next =>
    subst hp
    obtain ⟨c, cs, rfl⟩ := List.exists_cons_of_ne_nil nonempty
    by_cases hc : isGap c = true
    · -- The blanks behind belong to the same piece.
      obtain ⟨rfl, hblank, hrest⟩ := ok.of_gap hc
      rw [← Position.advanceAll_append] at next
      have hcut := hspace (by simp) (List.forall_mem_append.2 ⟨hg, hblank⟩) hrest next
      rw [List.append_assoc] at hcut
      exact ⟨_, hcut, by simp [solid, isWhitespace]⟩
    · exact ⟨_, hspace hne hg (by simpa using hc) (.piece nonempty inside text ok next),
        by simp [solid, isWhitespace]⟩

/-- Blanks alone make no such token. -/
theorem Cut.of_blanks {place : Position} {cs : List Char} {tokens : List SpannedToken}
    (h : Cut (Reading False) place cs tokens) (hblank : ∀ c ∈ cs, isGap c = true) :
    tokens.filter (fun t => solid t && !t.value.isEof) = [] := by
  induction h with
  | done place => simp [Token.isEof]
  | @piece place taken rest t tokens nonempty inside text ok next ih =>
    obtain ⟨c, cs, rfl⟩ := List.exists_cons_of_ne_nil nonempty
    obtain ⟨rfl, -⟩ := ok.of_gap (hblank c (by simp))
    simpa [solid, isWhitespace] using ih fun d hd => hblank d (List.mem_append_right _ hd)

/-! ## Texts with a line feed between them -/

theorem Cut.moved {place : Position} {cs : List Char} {tokens : List SpannedToken}
    (h : Cut (Reading False) place cs tokens) (bytes lines : Nat) :
    Cut (Reading False) (place.moved bytes lines) cs (tokens.map (·.moved bytes lines)) := by
  induction h with
  | done place => exact .done _
  | piece nonempty inside text ok next ih =>
    rw [← Position.moved_advanceAll] at ih
    have hcut := Cut.piece nonempty inside text ok ih
    rw [Position.moved_advanceAll] at hcut
    exact hcut

/-- No text is cut in two ways. -/
theorem Cut.unique {place : Position} {cs : List Char} {ts us : List SpannedToken}
    (h : Cut (Reading False) place cs ts) (h' : Cut (Reading False) place cs us) : ts = us := by
  induction h generalizing us with
  | done place =>
    generalize hcs : ([] : List Char) = cs at h'
    cases h' with
    | done => rfl
    | piece nonempty => simp [nonempty] at hcs
  | @piece place taken rest t tokens nonempty inside text ok next ih =>
    generalize hcs : taken ++ rest = cs at h'
    cases h' with
    | done => simp [nonempty] at hcs
    | piece nonempty' inside' text' ok' next' =>
      rw [← hcs] at ok'
      obtain ⟨rfl, rfl⟩ := ok.unique ok'
      rw [ih (List.append_cancel_left hcs ▸ next')]

/-- Behind a text without an open comment a line feed ends the last token, and what follows is cut
as it is alone. -/
theorem Cut.append_line {place : Position} {cs more : List Char} {ts us : List SpannedToken}
    (h : Cut (Reading False) place cs ts)
    (hopen : ∀ t ∈ ts, ∀ rest, t.value ≠ .error (String.ofList ('/' :: '*' :: rest)))
    (h' : Cut (Reading False) (place.advanceAll (cs ++ ['\n'])) more us) :
    ∃ all, Cut (Reading False) place (cs ++ '\n' :: more) all ∧
      all.filter solid = (ts.filter fun t => solid t && !t.value.isEof) ++ us.filter solid := by
  have hall := h
  induction h with
  | done place =>
    obtain ⟨all, hall, hfilter⟩ := h'.skip_blanks (by simp) (by simp [isGap])
    exact ⟨all, hall, by simpa [Token.isEof] using hfilter⟩
  | @piece place taken rest t tokens nonempty inside text ok next ih =>
    by_cases hsolid : ∃ c ∈ taken ++ rest, isGap c = false
    · have hclosed : ¬ OpensComment (taken ++ rest) := by
        rintro ⟨after, hafter, hmark⟩
        rw [hafter] at ok
        obtain ⟨-, rfl⟩ := ok.unique (.fault (.unclosedComment hmark))
        exact hopen _ List.mem_cons_self after rfl
      rw [List.append_assoc, Position.advanceAll_append] at h'
      obtain ⟨all, hall, hfilter⟩ := ih (fun u hu => hopen u (List.mem_cons_of_mem _ hu)) h' next
      have hread : Reading False ((taken ++ rest) ++ '\n' :: more) taken t :=
        ok.in_line hsolid hclosed
      rw [List.append_assoc] at hread
      have heof : t.isEof = false := by cases t <;> first | rfl | exact absurd rfl inside
      have hcut := Cut.piece nonempty inside text hread hall
      rw [← List.append_assoc] at hcut
      refine ⟨_, hcut, ?_⟩
      simp only [List.filter_cons, hfilter, heof, Bool.not_false, Bool.and_true]
      split <;> rfl
    · -- The blanks of the text, the line feed and those behind it are one piece.
      have hblank : ∀ c ∈ taken ++ rest, isGap c = true := by simpa using hsolid
      obtain ⟨all, hcut, hfilter⟩ := h'.skip_blanks (by simp)
        (List.forall_mem_append.2 ⟨hblank, by simp [isGap]⟩)
      rw [List.append_assoc] at hcut
      rw [hall.of_blanks hblank]
      exact ⟨all, hcut, hfilter⟩

/-- Where no limit stops the lexing, the tokens are the cut of the source. -/
theorem cut_of_not_limited [Build] {p : LexicalPreferences} {source : String}
    (h : ¬ (tokenize p source).Limited) :
    Cut (Reading False) .start source.toList (tokenize p source).tokens.toList := by
  have hsize : source.utf8ByteSize ≤ Limit.sourceBytes := by
    by_contra hlt
    exact h (limited_of_large (Nat.lt_of_not_le hlt))
  exact (cut_tokenize hsize).imp fun _ _ _ hread => hread.unlimited h

/-- The tokens behind a line feed are those of the text there, moved, where no comment is open. -/
theorem filter_solid_tokenize [Build] {p : LexicalPreferences} {a b : String}
    (ha : ¬ (tokenize p a).Limited) (hb : ¬ (tokenize p b).Limited)
    (hab : ¬ (tokenize p (a ++ "\n" ++ b)).Limited)
    (hopen : ∀ r ∈ (tokenize p a).reports, r.fault ≠ .unterminatedComment) :
    (tokenize p (a ++ "\n" ++ b)).tokens.toList.filter solid =
      ((tokenize p a).tokens.toList.filter fun t => solid t && !t.value.isEof) ++
        ((tokenize p b).tokens.toList.filter solid).map
          (·.moved (a.utf8ByteSize + 1) (a.toList.count '\n' + 1)) := by
  have hbehind := (cut_of_not_limited hb).moved (byteSize a.toList + 1) (a.toList.count '\n' + 1)
  rw [← Position.start_advanceAll_lineFeed] at hbehind
  have hclosed : ∀ t ∈ (tokenize p a).tokens.toList, ∀ rest,
      t.value ≠ .error (String.ofList ('/' :: '*' :: rest)) := by
    intro t ht rest hvalue
    have hreport : LexReport.ofToken t ∈ (tokenize p a).reports := by
      rw [← Array.mem_toList_iff, reports_tokenize ha]
      exact List.mem_map_of_mem (List.mem_filter.2 ⟨ht, by rw [hvalue]; rfl⟩)
    refine hopen _ hreport ?_
    rw [LexReport.ofToken, hvalue, Token.text, String.toList_ofList]
    rfl
  obtain ⟨all, hall, hfilter⟩ := (cut_of_not_limited ha).append_line hclosed hbehind
  have hcut := cut_of_not_limited hab
  have hsource : (a ++ "\n" ++ b).toList = a.toList ++ '\n' :: b.toList := by simp
  rw [hsource] at hcut
  have hsize : a.utf8ByteSize = byteSize a.toList := by
    rw [← utf8ByteSize_ofList, String.ofList_toList]
  rw [hcut.unique hall, hfilter, hsize, List.filter_map]
  rfl

end Lexing

/-- The tokens that the parser sees, with the end of the source. -/
def TokenizedSource.significant (s : TokenizedSource) : List SpannedToken :=
  s.tokens.toList.filter (·.value.isSignificant)

/-- What the listener hears of a lexing, in order. -/
def TokenizedSource.heard [Build] (p : LexicalPreferences) (source : String) :
    List SyntaxDiagnostic :=
  ((Lexing.tokenize p source).report p source .fresh).reported.reverse

namespace Lexing

theorem isSignificant_of_solid (t : SpannedToken) :
    (t.value.isSignificant && solid t) = t.value.isSignificant := by
  unfold solid
  cases t.value <;> rfl

theorem isError_of_solid (t : SpannedToken) : (t.value.isError && solid t) = t.value.isError := by
  unfold solid
  cases t.value <;> rfl

section

variable [Build] {p : LexicalPreferences} {a b : String} (ha : ¬ (tokenize p a).Limited)
  (hb : ¬ (tokenize p b).Limited) (hab : ¬ (tokenize p (a ++ "\n" ++ b)).Limited)
  (hopen : ∀ r ∈ (tokenize p a).reports, r.fault ≠ .unterminatedComment)
include ha hb hab hopen

theorem significant_lines :
    (tokenize p (a ++ "\n" ++ b)).significant =
      ((tokenize p a).significant.filter fun t => !t.value.isEof) ++ (tokenize p b).significant.map (·.moved (a.utf8ByteSize + 1) (a.toList.count '\n' + 1)) := by
  have h := congrArg (List.filter (·.value.isSignificant)) (filter_solid_tokenize ha hb hab hopen)
  rw [List.filter_append, List.filter_map] at h
  simp only [List.filter_filter, Function.comp_def, SpannedToken.value_moved, ← Bool.and_assoc,
    isSignificant_of_solid] at h
  unfold TokenizedSource.significant
  rw [h, List.filter_filter]
  simp only [Bool.and_comm]

theorem reports_lines :
    (tokenize p (a ++ "\n" ++ b)).reports.toList = (tokenize p a).reports.toList ++
      (tokenize p b).reports.toList.map
        (·.moved (a.utf8ByteSize + 1) (a.toList.count '\n' + 1)) := by
  have heof : ∀ t : SpannedToken, (t.value.isError && !t.value.isEof) = t.value.isError := by
    intro t
    cases t.value <;> rfl
  have h := congrArg (List.filter (·.value.isError)) (filter_solid_tokenize ha hb hab hopen)
  rw [List.filter_append, List.filter_map] at h
  simp only [List.filter_filter, Function.comp_def, SpannedToken.value_moved, ← Bool.and_assoc,
    isError_of_solid, heof] at h
  rw [reports_tokenize ha, reports_tokenize hb, reports_tokenize hab, h, List.map_append,
    List.map_map, List.map_map]
  rfl

theorem heard_lines :
    TokenizedSource.heard p (a ++ "\n" ++ b) = TokenizedSource.heard p a ++
      (TokenizedSource.heard p b).map (·.moved (a.toList.count '\n' + 1)) := by
  have hlexeme : ∀ r ∈ (tokenize p b).reports.toList, r.lexeme.isSome = true := by
    rw [reports_tokenize hb]
    intro r hr
    obtain ⟨t, -, rfl⟩ := List.mem_map.1 hr
    rfl
  simp only [TokenizedSource.heard, TokenizedSource.reported_report, Reporter.reported_fresh,
    reports_lines ha hb hab hopen, List.filter_append, List.filter_map, List.map_append,
    List.map_map, List.reverse_nil, List.nil_append]
  refine congrArg _ (List.map_congr_left fun r hr => ?_)
  exact LexReport.diagnostic_moved (hlexeme r (List.mem_filter.1 hr).1) _ _

end

/-- Lines are lexically independent. Where no limit stops the lexing of two texts and of the text
that they make with a line feed between them, and the first text does not end inside a comment, the
significant tokens of the whole are those of the first text but for its end, and then those of the
second, further on by the bytes of the first text and one more and by its line feeds and one more, in
the same column. The reports of the lexer are those of the first text and then those of the second,
moved in the same way, and so the listener hears of them. -/
theorem tokenize_lines [Build] (p : LexicalPreferences) (a b : String)
    (ha : ¬ (tokenize p a).Limited) (hb : ¬ (tokenize p b).Limited)
    (hab : ¬ (tokenize p (a ++ "\n" ++ b)).Limited)
    (hopen : ∀ r ∈ (tokenize p a).reports, r.fault ≠ .unterminatedComment) :
    let whole := a ++ "\n" ++ b
    let bytes := a.utf8ByteSize + 1
    let lines := a.toList.count '\n' + 1
    (∃ front stop, (tokenize p a).significant = front ++ [⟨.eof, stop⟩] ∧
      (tokenize p whole).significant =
        front ++ (tokenize p b).significant.map (·.moved bytes lines)) ∧
    (tokenize p whole).reports.toList =
      (tokenize p a).reports.toList ++ (tokenize p b).reports.toList.map (·.moved bytes lines) ∧
    TokenizedSource.heard p whole =
      TokenizedSource.heard p a ++ (TokenizedSource.heard p b).map (·.moved lines) := by
  intro whole bytes lines
  obtain ⟨front, hfront, hne, -⟩ := (cut_of_not_limited ha).exists_front
  have hfirst : (tokenize p a).significant =
      front.filter (·.value.isSignificant) ++ [⟨.eof, .point (Position.start.advanceAll a.toList)⟩] := by
    unfold TokenizedSource.significant
    rw [hfront, List.filter_append]
    rfl
  have hsecond := significant_lines ha hb hab hopen
  -- Of the first text only its end is left out.
  rw [hfirst, List.filter_append, List.filter_eq_self.2] at hsecond
  · exact ⟨⟨_, _, hfirst, by simpa [Token.isEof] using hsecond⟩, reports_lines ha hb hab hopen,
      heard_lines ha hb hab hopen⟩
  · intro t ht
    have hend := hne t (List.mem_filter.1 ht).1
    cases hvalue : t.value with
    | eof => exact absurd hvalue hend
    | _ => rfl

/-- An unterminated string ends at the line feed although a backslash stands before it, and a slash
behind it begins no comment with the one on the next line. -/
theorem tokenize_lines_open_string :
    let a := "é /\nx = \"a\\"
    let b := "/ 2 # y"
    ¬ (tokenize {} a).Limited ∧ ¬ (tokenize {} b).Limited ∧
      ¬ (tokenize {} (a ++ "\n" ++ b)).Limited ∧
      (∀ r ∈ (tokenize {} a).reports, r.fault ≠ .unterminatedComment) ∧
      (tokenize {} (a ++ "\n" ++ b)).reports.toList = (tokenize {} a).reports.toList ++
        (tokenize {} b).reports.toList.map (·.moved 13 2) := by
  intro a b
  have ha : ¬ (tokenize {} a).Limited := by unfold TokenizedSource.Limited; decide +kernel
  have hb : ¬ (tokenize {} b).Limited := by unfold TokenizedSource.Limited; decide +kernel
  have hab : ¬ (tokenize {} (a ++ "\n" ++ b)).Limited := by
    unfold TokenizedSource.Limited; decide +kernel
  have hopen : ∀ r ∈ (tokenize {} a).reports, r.fault ≠ .unterminatedComment := by decide +kernel
  have hplace : a.utf8ByteSize + 1 = 13 ∧ a.toList.count '\n' + 1 = 2 := by decide +kernel
  have hreports := (tokenize_lines {} a b ha hb hab hopen).2.1
  rw [hplace.1, hplace.2] at hreports
  exact ⟨ha, hb, hab, hopen, hreports⟩

end Lexing

end EvlCheck
