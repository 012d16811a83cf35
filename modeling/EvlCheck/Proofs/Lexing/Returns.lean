/-
A text with a carriage return in front of each line feed is lexed as the text itself. Only blanks and
block comments hold a character that ends lines, so where there is no block comment, the same words
stand at the same places, and between them each run of blanks grows by the carriage returns in it. The
tokens are the same but for the texts of blanks, in the same lines and columns: a carriage return takes
up a column only where the line feed behind it ends the line.
-/
import EvlCheck.Proofs.Check.LineEnds
import EvlCheck.Proofs.Lexing.LineReading
import EvlCheck.Proofs.Tree.MapSpan

namespace EvlCheck

open Text

/-! ## Texts and places -/

namespace Text

theorem withReturns_cons {c : Char} (hc : c ≠ '\n') (cs : List Char) :
    withReturns (c :: cs) = c :: withReturns cs := by
  unfold withReturns
  rw [List.flatMap_cons, if_neg hc, List.singleton_append]

theorem withReturns_lineFeed (cs : List Char) :
    withReturns ('\n' :: cs) = '\r' :: '\n' :: withReturns cs := rfl

theorem withReturns_ne_nil {cs : List Char} (h : cs ≠ []) : withReturns cs ≠ [] := by
  obtain ⟨c, cs, rfl⟩ := List.exists_cons_of_ne_nil h
  by_cases hc : c = '\n'
  · subst hc
    simp [withReturns_lineFeed]
  · simp [withReturns_cons hc]

theorem mem_withReturns {c : Char} {cs : List Char} (h : c ∈ withReturns cs) :
    c = '\r' ∨ c ∈ cs := by
  obtain ⟨d, hd, hc⟩ := List.mem_flatMap.1 h
  by_cases hlf : d = '\n'
  · rw [if_pos hlf] at hc
    rcases List.mem_cons.1 hc with rfl | hc
    · exact .inl rfl
    · rw [List.mem_singleton] at hc
      exact .inr (hc.trans hlf.symm ▸ hd)
  · rw [if_neg hlf, List.mem_singleton] at hc
    exact .inr (hc ▸ hd)

/-- A word that does not end lines stands at the head of both texts or of neither. -/
theorem prefix_withReturns_iff {w cs : List Char} (hw : ∀ d ∈ w, ¬ (d = '\r' ∨ d = '\n')) :
    w <+: withReturns cs ↔ w <+: cs := by
  induction w generalizing cs with
  | nil => simp
  | cons d w ih =>
    rw [List.forall_mem_cons, not_or] at hw
    cases cs with
    | nil => rfl
    | cons c cs =>
      by_cases hc : c = '\n'
      · subst hc
        rw [withReturns_lineFeed, List.cons_prefix_cons, List.cons_prefix_cons]
        exact ⟨fun h => absurd h.1 hw.1.1, fun h => absurd h.1 hw.1.2⟩
      · rw [withReturns_cons hc, List.cons_prefix_cons, List.cons_prefix_cons, ih hw.2]

/-- A line ends in both texts behind the same characters. -/
theorem takeWhile_withReturns {q : Char → Bool} (hr : q '\r' = false) (hf : q '\n' = false)
    (cs : List Char) : (withReturns cs).takeWhile q = cs.takeWhile q := by
  induction cs with
  | nil => rfl
  | cons c cs ih =>
    by_cases hc : c = '\n'
    · subst hc
      simp [withReturns_lineFeed, hr, hf]
    · rw [withReturns_cons hc, List.takeWhile_cons, List.takeWhile_cons, ih]

end Text

namespace Position

/-- Going on over a character does not depend on the bytes before it. -/
theorem onGrid_advance {p q : Position} (h : p.onGrid = q.onGrid) (c : Char) :
    (p.advance c).onGrid = (q.advance c).onGrid := by
  obtain ⟨-, hline, hcolumn⟩ := Position.mk.inj h
  unfold advance
  split
  · simp only [onGrid, hline]
  · simp only [onGrid, hline, hcolumn]

/-- The place behind a text is in the same line and column with carriage returns in the text. -/
theorem onGrid_advanceAll_withReturns {p q : Position} (h : p.onGrid = q.onGrid) (cs : List Char) :
    (p.advanceAll cs).onGrid = (q.advanceAll (withReturns cs)).onGrid := by
  induction cs generalizing p q with
  | nil => exact h
  | cons c cs ih =>
    by_cases hc : c = '\n'
    · subst hc
      rw [withReturns_lineFeed, advanceAll_cons, advanceAll_cons, advanceAll_cons]
      refine ih ?_
      obtain ⟨-, hline, -⟩ := Position.mk.inj h
      show Position.mk 0 (p.line + 1) 1 = Position.mk 0 (q.line + 1) 1
      rw [hline]
    · rw [withReturns_cons hc, advanceAll_cons, advanceAll_cons]
      exact ih (onGrid_advance h c)

end Position

/-- The token without the text of blanks. -/
def Token.unspaced : Token → Token
  | .whitespace _ => .whitespace ""
  | t => t

/-- The token as it is seen in lines and columns, without the text of blanks. -/
def SpannedToken.seen (t : SpannedToken) : SpannedToken := ⟨t.value.unspaced, t.span.onGrid⟩

namespace Lexing

/-! ## One piece -/

/-- What begins as a block comment is read as one, closed or not. -/
theorem Reading.of_slashStar {rest taken : List Char} {t : Token}
    (h : Reading False ('/' :: '*' :: rest) taken t) : ∃ body, taken = '/' :: '*' :: body := by
  cases h with
  | fault faulty =>
    cases faulty with
    | unclosedComment => exact ⟨rest, rfl⟩
    | stray quote hnone => exact absurd (Spells.symbol .divide) (hnone _ _ ⟨'*' :: rest, rfl⟩)
  | stopped breach => exact breach.elim
  | word longest sound =>
    have hmark : ['*', '/'] <:+: rest := by
      by_contra hnone
      exact sound _ (.unclosedComment hnone)
    obtain ⟨body, behind, hbody, hfirst⟩ := exists_first_mark hmark
    have hcomment := Spells.blockComment hfirst
    have hlength : 2 ≤ taken.length := by
      rcases longest.longest _ _ ⟨behind, by simp [hbody]⟩ hcomment with hlt | ⟨rfl, -⟩
      · simp only [List.length_cons] at hlt
        omega
      · simp
    have hopens : ['/', '*'] <+: '/' :: '*' :: rest := ⟨rest, rfl⟩
    obtain ⟨more, rfl⟩ := List.prefix_of_prefix_length_le hopens longest.at_head hlength
    exact ⟨more, rfl⟩

section

variable {cs taken : List Char} {t : Token} (hgap : ∀ c ∈ cs.head?, isGap c = false)

/-- A word that begins neither with a blank nor as a block comment does not end lines. -/
theorem Spells.not_lineEnd (h : Spells taken t) (hgap : ∀ c ∈ taken.head?, isGap c = false)
    (hcomment : ¬ ['/', '*'] <+: taken) : ∀ d ∈ taken, ¬ (d = '\r' ∨ d = '\n') := by
  intro d hd hend
  rcases h.of_lineEnd hd hend with hblank | ⟨body, rfl, -⟩
  · obtain ⟨c, w, rfl⟩ := h.exists_cons
    have := hgap c rfl
    rw [hblank c List.mem_cons_self] at this
    cases this
  · exact hcomment ⟨body ++ ['*', '/'], rfl⟩

include hgap

/-- Nor does what is read at the head of a text that begins with neither. -/
theorem Reading.not_mem_lineFeed (h : Reading False cs taken t) (hcomment : ¬ ['/', '*'] <+: cs) :
    '\n' ∉ taken := by
  cases h with
  | word longest sound =>
    obtain ⟨more, rfl⟩ := longest.at_head
    obtain ⟨c, w, rfl⟩ := longest.spells.exists_cons
    have hword := longest.spells.not_lineEnd hgap fun hw => hcomment (hw.trans (List.prefix_append _ more))
    exact fun hmem => hword _ hmem (.inr rfl)
  | fault faulty =>
    cases faulty with
    | unclosedString =>
      intro hmem
      have := List.mem_takeWhile_imp ((List.mem_cons.1 hmem).resolve_left (by decide))
      simp at this
    | @unclosedComment rest => exact absurd ⟨rest, rfl⟩ hcomment
    | @stray c =>
      intro hmem
      rw [List.mem_singleton] at hmem
      have := hgap c rfl
      rw [← hmem] at this
      cases this
  | stopped breach => exact breach.elim

/-- Such a text is read alike with carriage returns. -/
theorem Reading.withReturns (h : Reading False cs taken t) (hcomment : ¬ ['/', '*'] <+: cs) :
    Reading False (withReturns cs) taken t := by
  have hopens : ¬ ['/', '*'] <+: Text.withReturns cs := by
    rwa [prefix_withReturns_iff (by simp)]
  -- The same words stand at the head of both texts.
  have hwords : ∀ v u, v <+: Text.withReturns cs → Spells v u → v <+: cs := by
    intro v u hv hu
    refine (prefix_withReturns_iff (hu.not_lineEnd ?_ fun hv' => hopens (hv'.trans hv))).1 hv
    obtain ⟨d, v, rfl⟩ := hu.exists_cons
    rintro _ ⟨⟩
    cases cs with
    | nil => simp [Text.withReturns] at hv
    | cons c cs =>
      have hc := hgap c rfl
      have hlf : c ≠ '\n' := by rintro rfl; cases hc
      rw [withReturns_cons hlf] at hv
      rw [(List.cons_prefix_cons.1 hv).1]
      exact hc
  have hnone : '\n' ∉ taken := h.not_mem_lineFeed hgap hcomment
  cases h with
  | word longest sound =>
    obtain ⟨more, rfl⟩ := longest.at_head
    have hhead : taken <+: Text.withReturns (taken ++ more) := by
      rw [withReturns_append, withReturns_of_not_mem hnone]
      exact List.prefix_append _ _
    refine .word ⟨hhead, longest.spells, fun v u hv hu => longest.longest v u (hwords v u hv hu) hu⟩ ?_
    exact not_faulty hhead longest.spells fun rest hrest => absurd ⟨rest, hrest.symm⟩ hopens
  | fault faulty =>
    refine .fault ?_
    cases faulty with
    | unclosedString hunclosed =>
      rw [withReturns_cons (by decide)] at hwords ⊢
      rw [← takeWhile_withReturns rfl rfl]
      exact .unclosedString fun v u hv hu => hunclosed v u (hwords v _ hv hu) hu
    | @unclosedComment rest => exact absurd ⟨rest, rfl⟩ hcomment
    | @stray c rest quote hstray =>
      rw [withReturns_cons (by simpa [eq_comm] using hnone)] at hwords ⊢
      exact .stray quote fun v u hv hu => hstray v u (hwords v u hv hu) hu
  | stopped breach => exact breach.elim

end

/-! ## All pieces -/

/-- No block comment is among the tokens, closed or not. -/
def Commentless (tokens : List SpannedToken) : Prop :=
  ∀ t ∈ tokens, ¬ ['/', '*'] <+: t.value.text.toList

/-- A text without block comments is cut alike with carriage returns. By induction on the pieces: one
of blanks grows by the returns in it, any other stays as it is. -/
theorem Cut.withReturns {place place' : Position} {cs : List Char} {tokens : List SpannedToken}
    (h : Cut (Reading False) place cs tokens) (hplace : place.onGrid = place'.onGrid)
    (hcomment : Commentless tokens) :
    ∃ tokens', Cut (Reading False) place' (Text.withReturns cs) tokens' ∧
      tokens.map SpannedToken.seen = tokens'.map SpannedToken.seen := by
  induction h generalizing place' with
  | done place =>
    refine ⟨_, .done place', ?_⟩
    simp only [List.map_singleton, SpannedToken.seen, Span.point, Span.onGrid, hplace]
  | @piece place taken rest t tokens nonempty inside text ok next ih =>
    obtain ⟨ht, hrest⟩ := List.forall_mem_cons.1 hcomment
    have hbehind := Position.onGrid_advanceAll_withReturns hplace taken
    obtain ⟨tokens', hcut, hseen⟩ := ih hbehind hrest
    rw [withReturns_append]
    obtain ⟨c, w, htaken⟩ := List.exists_cons_of_ne_nil nonempty
    by_cases hc : isGap c = true
    · rw [htaken] at ok
      obtain ⟨rfl, hblank, hstop⟩ := ok.of_gap hc
      rw [← htaken] at hblank ⊢
      have hblank' : ∀ d ∈ Text.withReturns taken, isGap d = true := by
        intro d hd
        rcases mem_withReturns hd with rfl | hd
        · rfl
        · exact hblank d hd
      have hstop' : ∀ d ∈ (Text.withReturns rest).head?, isGap d = false := by
        cases rest with
        | nil => simp [Text.withReturns]
        | cons e rest =>
          have he := hstop e rfl
          rw [withReturns_cons (by rintro rfl; cases he)]
          exact hstop
      refine ⟨_, .piece (withReturns_ne_nil nonempty) (by simp) rfl
        (reading_blanks (withReturns_ne_nil nonempty) hblank' hstop') hcut, ?_⟩
      simp only [List.map_cons, hseen, SpannedToken.seen, Token.unspaced, Span.onGrid, hplace, hbehind]
    · have hgap : ∀ d ∈ (taken ++ rest).head?, isGap d = false := by
        rw [htaken]
        rintro _ ⟨⟩
        simpa using hc
      have hopens : ¬ ['/', '*'] <+: taken ++ rest := by
        rintro ⟨more, hmore⟩
        rw [← hmore] at ok
        obtain ⟨body, hbody⟩ := ok.of_slashStar
        rw [text, String.toList_ofList, hbody] at ht
        exact ht ⟨body, rfl⟩
      have hread := ok.withReturns hgap hopens
      have hnone := ok.not_mem_lineFeed hgap hopens
      rw [withReturns_append] at hread
      rw [withReturns_of_not_mem hnone] at hread hcut hbehind ⊢
      refine ⟨_, .piece nonempty inside text hread hcut, ?_⟩
      simp only [List.map_cons, hseen, SpannedToken.seen, Span.onGrid, hplace, hbehind]

/-! ## Whole sources -/

/-- The source with a carriage return in front of each line feed. -/
def sourceWithReturns (source : String) : String := String.ofList (Text.withReturns source.toList)

section

variable [Build] {p : LexicalPreferences} {source : String} (h : ¬ (tokenize p source).Limited)
include h

theorem commentless_tokenize
    (hclosed : ∀ t ∈ (tokenize p source).tokens, ∀ text, t.value ≠ .blockComment text)
    (hopen : ∀ r ∈ (tokenize p source).reports, r.fault ≠ .unterminatedComment) :
    Commentless (tokenize p source).tokens.toList := by
  intro t ht hopens
  by_cases heof : t.value = .eof
  · rw [heof] at hopens
    exact absurd hopens (by decide)
  obtain ⟨before, taken, after, -, -, htext, -, hread⟩ :=
    (cut_of_not_limited h).exists_piece ht heof
  rw [htext, String.toList_ofList] at hopens
  obtain ⟨more, rfl⟩ := hopens
  generalize hvalue : t.value = value at htext hread
  cases hread with
  | word longest sound =>
    rcases longest.spells.of_other rfl rfl with ⟨s, -, hs⟩ | ⟨-, body, hbody, -⟩ | ⟨rfl, -⟩
    · exact (symbol_chars_ne_comment s more).2 hs
    · cases hbody
    · exact hclosed t (Array.mem_toList_iff.1 ht) _ hvalue
  | fault faulty =>
    have hreport : LexReport.ofToken t ∈ (tokenize p source).reports := by
      rw [← Array.mem_toList_iff, reports_tokenize h]
      exact List.mem_map_of_mem (List.mem_filter.2 ⟨ht, by rw [hvalue]; rfl⟩)
    refine hopen _ hreport ?_
    rw [LexReport.ofToken, hvalue, htext, String.toList_ofList]
    rfl
  | stopped breach => exact breach

variable (h' : ¬ (tokenize p (sourceWithReturns source)).Limited)
  (hcomment : Commentless (tokenize p source).tokens.toList)
include h' hcomment

/-- The tokens of a source without block comments are those of the source with carriage returns, in
the same lines and columns. -/
theorem seen_tokenize :
    (tokenize p source).tokens.toList.map SpannedToken.seen =
      (tokenize p (sourceWithReturns source)).tokens.toList.map SpannedToken.seen := by
  obtain ⟨tokens', hcut, hseen⟩ := (cut_of_not_limited h).withReturns rfl hcomment
  have hcut' := cut_of_not_limited h'
  rw [sourceWithReturns, String.toList_ofList] at hcut'
  rw [hseen, hcut.unique hcut']
  rfl

/-- So the listener hears the same. -/
theorem heard_tokenize :
    TokenizedSource.heard p source = TokenizedSource.heard p (sourceWithReturns source) := by
  have hshown : ∀ tokens : List SpannedToken,
      (((tokens.filter (·.value.isError)).map LexReport.ofToken).filter
          fun r => TokenizedSource.reaches p r.fault).map LexReport.diagnostic =
        ((((tokens.map SpannedToken.seen).filter (·.value.isError)).map LexReport.ofToken).filter
          fun r => TokenizedSource.reaches p r.fault).map LexReport.diagnostic := by
    intro tokens
    induction tokens with
    | nil => rfl
    | cons t tokens ih =>
      obtain ⟨value, span⟩ := t
      cases value with
      | error text =>
        -- Of an error token everything is seen that the report of it says.
        have hvalue : (SpannedToken.seen ⟨.error text, span⟩).value.isError = true := rfl
        have hfault : (LexReport.ofToken (SpannedToken.seen ⟨.error text, span⟩)).fault =
          (LexReport.ofToken ⟨.error text, span⟩).fault := rfl
        have hdiagnostic : (LexReport.ofToken (SpannedToken.seen ⟨.error text, span⟩)).diagnostic =
          (LexReport.ofToken ⟨.error text, span⟩).diagnostic := rfl
        rw [List.map_cons, List.filter_cons_of_pos rfl,
          List.filter_cons_of_pos (p := fun t : SpannedToken => t.value.isError) hvalue, List.map_cons,
          List.map_cons, List.filter_cons, List.filter_cons, hfault]
        split
        · rw [List.map_cons, List.map_cons, hdiagnostic, ih]
        · exact ih
      | _ => exact ih
  simp only [TokenizedSource.heard, TokenizedSource.reported_report, Reporter.reported_fresh,
    reports_tokenize h, reports_tokenize h']
  rw [hshown, hshown (tokenize p (sourceWithReturns source)).tokens.toList, seen_tokenize h h' hcomment]

end

end Lexing

end EvlCheck
