/-
What normal form keeps of a line, in tokens. It cuts a line at its first two slashes, without a look at
strings, and takes off blanks and a semicolon. In a line without errors the slashes begin a comment
unless they stand in a string. So the tokens of the normal form are those that stand before the first
line comment (`significant_normalizeLine`), and they are all tokens of the line exactly if no string has
two slashes and no carriage return ends a comment early (`significant_normalizeLine_iff`).

The line is taken apart first, into words with blanks between them (`Words`) and what stands on both
sides of them (`LineReads.exists_words`). Normal form leaves the words, and the lexer finds their tokens
again.
-/
import EvlCheck.Proofs.Check.ExtractedCalls
import EvlCheck.Proofs.Fix.FixedCall
import EvlCheck.Proofs.Lexing.Errorless

namespace EvlCheck

open Text Check

/-- If the token is a string, no two slashes stand together in it. -/
def Token.Slashless (t : Token) : Prop :=
  ∀ text, t = .string text → ¬ ['/', '/'] <:+: text.toList

instance : DecidablePred Token.Slashless
  | .string text => decidable_of_iff (¬ ['/', '/'] <:+: text.toList)
      ⟨fun h _ ht => by cases ht; exact h, fun h => h text rfl⟩
  | .identifier _ | .keyword _ | .integer _ | .real _ | .symbol _ | .whitespace _ | .lineComment _
  | .blockComment _ | .error _ | .eof => isTrue fun _ ht => nomatch ht

namespace Lexing

/-! ## Words with blanks between them -/

/-- In front of a text the characters are words that are read as the tokens, with blanks between them. -/
inductive Words (tail : List Char) : List Char → List Token → Prop
  | last {w : List Char} {t : Token} (seen : t.isSignificant = true)
      (reading : Reading False (w ++ tail) w t) : Words tail w [t]
  | more {w g rest : List Char} {t : Token} {ts : List Token} (seen : t.isSignificant = true)
      (reading : Reading False (w ++ (g ++ rest) ++ tail) w t) (gap : ∀ c ∈ g, isGap c = true)
      (next : Words tail rest ts) : Words tail (w ++ (g ++ rest)) (t :: ts)

/-- A line that reads tokens is such words, with blanks in front of them, and blanks and perhaps a
comment behind them. -/
theorem LineReads.exists_words {cs : List Char} {ts : List Token} (h : LineReads cs ts)
    (hts : ts ≠ []) : ∃ g body tail, cs = g ++ (body ++ tail) ∧ (∀ c ∈ g, isGap c = true) ∧
      Words tail body ts ∧ LineReads tail [] := by
  induction h with
  | blank | comment => exact absurd rfl hts
  | @word g w rest t ts gap seen reading next ih =>
    cases ts with
    | nil => exact ⟨g, w, rest, rfl, gap, .last seen reading, next⟩
    | cons u ts =>
      obtain ⟨g', body, tail, rfl, hg', hbody, htail⟩ := ih (List.cons_ne_nil u ts)
      refine ⟨g, w ++ (g' ++ body), tail, by simp, gap, ?_, htail⟩
      exact .more seen (by simpa using reading) hg' hbody

/-- No token ends in a semicolon. -/
theorem Spells.getLast?_ne {w : List Char} {t : Token} (h : Spells w t)
    (hseen : t.isSignificant = true) : w.getLast? ≠ some ';' := by
  intro hlast
  by_cases hstring : ∃ text, t = .string text
  · obtain ⟨text, rfl⟩ := hstring
    cases h
    rw [← List.cons_append, List.getLast?_concat] at hlast
    cases hlast
  · cases hsymbol : t.isSymbol with
    | true =>
      cases h with
      | symbol s => cases s <;> exact absurd hlast (by decide)
      | _ => cases hsymbol
    | false =>
      have hmem := List.mem_of_getLast? hlast
      rcases h.isNamePart_or_point hseen hsymbol (fun text ht => hstring ⟨text, ht⟩) _ hmem with hc | hc
      · exact absurd hc (by decide)
      · exact absurd hc (by decide)

theorem beforeComment_of_not_infix {cs : List Char} (h : ¬ ['/', '/'] <:+: cs) :
    beforeComment cs = cs := by
  induction cs with
  | nil => rfl
  | cons c cs ih =>
    have hslash : ¬(c = '/' ∧ cs.head? = some '/') := by
      rintro ⟨rfl, hhead⟩
      obtain ⟨rest, rfl⟩ := List.head?_eq_some_iff.1 hhead
      exact h ⟨[], rest, rfl⟩
    rw [beforeComment_cons, if_neg hslash, ih fun hpart => h (hpart.trans (List.suffix_cons c cs).isInfix)]

/-- No comment begins in a word that the parser sees, nor with its last character. -/
theorem Reading.beforeComment_append {w rest : List Char} {t : Token}
    (h : Reading False (w ++ rest) w t) (hseen : t.isSignificant = true) (ht : t.Slashless) :
    beforeComment (w ++ rest) = w ++ beforeComment rest := by
  have hspells := h.spells (isError_of_isSignificant hseen)
  have hword := hspells.isNamePart_or_point hseen
  by_cases hslash : '/' ∈ w
  · cases hspells with
    | @string body inside =>
      have hnone := beforeComment_of_not_infix (ht _ rfl)
      rw [String.toList_ofList, ← List.cons_append] at hnone
      exact commentless_concat (beforeComment_of_append hnone) (by decide) rest
    | symbol s =>
      cases s <;> first
        | exact absurd hslash (by decide)
        | exact commentless_concat (p := ['/']) rfl (by decide) rest
        | exact (beforeComment_cons '/' rest).trans (if_neg fun hc => (h.slash_ends rfl).1 hc.2)
    | whitespace | lineComment | blockComment => cases hseen
    | _ =>
      rcases hword rfl nofun _ hslash with hc | hc
      · exact absurd hc (by decide)
      · exact absurd hc (by decide)
  · exact Commentless.of_not_mem hslash rest

namespace Words

variable {tail body : List Char} {ts : List Token}

theorem tight (h : Words tail body ts) : Tight body := by
  induction h with
  | last seen reading => exact (reading.spells (isError_of_isSignificant seen)).tight seen
  | more seen reading gap next ih =>
    rw [List.append_assoc] at reading
    exact ((reading.spells (isError_of_isSignificant seen)).tight seen).append ih _

theorem isSignificant (h : Words tail body ts) : ∀ t ∈ ts, t.isSignificant = true := by
  induction h with
  | last seen => exact List.forall_mem_singleton.2 seen
  | more seen reading gap next ih => exact List.forall_mem_cons.2 ⟨seen, ih⟩

theorem length_pos (h : Words tail body ts) : 0 < ts.length := by
  cases h <;> exact Nat.succ_pos _

theorem getLast?_ne (h : Words tail body ts) : body.getLast? ≠ some ';' := by
  induction h with
  | last seen reading =>
    exact (reading.spells (isError_of_isSignificant seen)).getLast?_ne seen
  | @more w g rest t ts seen reading gap next ih =>
    rw [List.getLast?_append_of_ne_nil _ (List.append_ne_nil_of_right_ne_nil g next.tight.nonempty),
      List.getLast?_append_of_ne_nil _ next.tight.nonempty]
    exact ih

/-- They are read as the same tokens in front of less text. -/
theorem front {behind : List Char} (h : Words (tail ++ behind) body ts) : Words tail body ts := by
  generalize hall : tail ++ behind = all at h
  induction h with
  | last seen reading =>
    subst hall
    rw [← List.append_assoc] at reading
    exact .last seen (reading.of_longer (isError_of_isSignificant seen))
  | @more w g rest t ts seen reading gap next ih =>
    subst hall
    refine .more seen ?_ gap ih
    rw [List.append_assoc] at reading ⊢
    have hlonger : w ++ (g ++ rest ++ (tail ++ behind)) = w ++ (g ++ rest ++ tail) ++ behind := by simp
    rw [hlonger] at reading
    exact reading.of_longer (isError_of_isSignificant seen)

theorem beforeComment_append (h : Words tail body ts) (hts : ∀ t ∈ ts, t.Slashless) :
    beforeComment (body ++ tail) = body ++ beforeComment tail := by
  induction h with
  | last seen reading => exact reading.beforeComment_append seen (hts _ List.mem_cons_self)
  | @more w g rest t ts seen reading gap next ih =>
    rw [List.forall_mem_cons] at hts
    have hgap : Text.Commentless g := .of_not_mem (not_mem_gap gap (by decide))
    rw [List.append_assoc] at reading ⊢
    rw [reading.beforeComment_append seen hts.1, List.append_assoc, hgap, ih hts.2]
    simp only [List.append_assoc]

/-- The lexer finds the tokens in the words. -/
theorem tokenizeFrom [Build] (h : Words [] body ts) (p : LexicalPreferences)
    (hts : ∀ t ∈ ts, t.Writable) (counted : Nat) (hroom : counted + ts.length ≤ Limit.tokens)
    (place : Position) (tokens : Array SpannedToken) (reports : Array LexReport) :
    ((tokenizeFrom p body place counted tokens reports).significant).map (·.value) =
      (tokens.toList.filter (·.value.isSignificant)).map (·.value) ++ ts ++ [.eof] := by
  have htext : ∀ {w : List Char} {t : Token}, t.Writable → ∀ {cs : List Char},
      Reading False cs w t → w = t.text.toList := by
    intro w t ht cs hreading
    rw [(hreading.spells ht.isError).text_eq, String.toList_ofList]
  induction h generalizing counted place tokens with
  | @last w t seen reading =>
    obtain ⟨ht, -⟩ := List.forall_mem_cons.1 hts
    obtain rfl := htext ht reading
    rw [List.length_singleton] at hroom
    have hrun : Lexing.tokenizeFrom p (t.text.toList ++ []) place counted tokens reports = _ :=
      tokenizeFrom_reading ht (by omega) reading
    rw [List.append_nil] at hrun
    rw [hrun, Lexing.tokenizeFrom]
    simp [TokenizedSource.significant, List.filter_cons, seen, Token.isSignificant_eof]
  | @more w g rest t ts seen reading gap next ih =>
    obtain ⟨ht, hts⟩ := List.forall_mem_cons.1 hts
    obtain rfl := htext ht reading
    rw [List.length_cons] at hroom
    rw [List.append_nil] at reading
    have hfirst : ∀ d ∈ rest.head?, isGap d = false := by
      intro d hd
      by_contra hgap
      rw [Bool.not_eq_false] at hgap
      have hblank := next.tight.first d hd
      rw [isBlank_of_isGap hgap] at hblank
      cases hblank
    rw [tokenizeFrom_reading ht (by omega) reading]
    by_cases hg : g = []
    · subst hg
      rw [List.nil_append, ih hts _ (by omega)]
      simp [seen]
    · rw [tokenizeFrom_gaps hg gap (by have := next.length_pos; omega) hfirst, ih hts _ (by omega)]
      have hblank : (Token.whitespace (String.ofList g)).isSignificant = false := rfl
      simp [seen, hblank]

end Words

end Lexing

namespace Check

/-- Normal form keeps the words of a line. -/
theorem normalizeLine_words {g body tail : List Char} {ts : List Token}
    (hg : ∀ c ∈ g, Lexing.isGap c = true) (hbody : Lexing.Words tail body ts)
    (htail : Lexing.LineReads tail []) (hts : ∀ t ∈ ts, t.Slashless) :
    normalizeLine (g ++ (body ++ tail)) = body := by
  have htight := hbody.tight
  have hgap : Commentless g := .of_not_mem (Lexing.not_mem_gap hg (by decide))
  have hreturn : (g ++ body).getLast? ≠ some '\r' := by
    rw [List.getLast?_append_of_ne_nil _ htight.nonempty]
    exact fun hlast => absurd (htight.last _ hlast) (by decide)
  have hsemicolon : (g ++ body).getLast? ≠ some ';' := by
    rw [List.getLast?_append_of_ne_nil _ htight.nonempty]
    exact hbody.getLast?_ne
  obtain ⟨behind, hbehind⟩ := dropSuffix_starts '\r' tail
  have hcut : beforeComment (body ++ dropSuffix '\r' tail) =
      body ++ beforeComment (dropSuffix '\r' tail) := by
    rw [← hbehind] at hbody
    exact hbody.front.beforeComment_append hts
  have hend := Check.lineTail_of_reads_nil htail
  unfold lineTail at hend
  unfold normalizeLine trim
  rw [← List.append_assoc, dropSuffix_append hreturn, List.append_assoc, hgap, hcut,
    ← List.append_assoc, dropSuffix_append hsemicolon, List.append_assoc,
    trimStart_blanks_append (Lexing.isBlank_of_gap hg)]
  obtain ⟨c, rest, rfl⟩ := List.exists_cons_of_ne_nil htight.nonempty
  rw [List.cons_append, trimStart_cons (htight.first c rfl), ← List.cons_append,
    trimEnd_append htight.last, hend, List.append_nil]

/-- The normal form of a line is the words that it reads. -/
theorem words_normalizeLine {cs : List Char} {ts : List Token} (h : Lexing.LineReads cs ts)
    (hne : ts ≠ []) (hts : ∀ t ∈ ts, t.Slashless) : Lexing.Words [] (normalizeLine cs) ts := by
  obtain ⟨g, body, tail, rfl, hg, hbody, htail⟩ := h.exists_words hne
  rw [normalizeLine_words hg hbody htail hts]
  exact @Lexing.Words.front [] body ts tail hbody

/-- Normal form leaves nothing of blanks and a comment. -/
theorem normalizeLine_of_reads_nil {cs : List Char} (h : Lexing.LineReads cs []) :
    normalizeLine cs = [] := by
  have hend := lineTail_of_reads_nil h
  unfold lineTail trimEnd at hend
  rw [List.reverse_eq_nil_iff, List.dropWhile_eq_nil_iff] at hend
  exact trim_eq_nil_iff.2 fun c hc => hend c (List.mem_reverse.2 hc)

theorem normalizeLine_isInfix (line : List Char) : normalizeLine line <:+: line :=
  ((trim_isInfix _).trans (dropSuffix_starts _ _).isInfix).trans
    ((beforeComment_starts _).isInfix.trans (dropSuffix_starts _ _).isInfix)

theorem normalizeLine_size {line : List Char} {size : Nat} (h : (String.ofList line).utf8ByteSize ≤ size) :
    (String.ofList (normalizeLine line)).utf8ByteSize ≤ size := by
  obtain ⟨front, behind, hline⟩ := normalizeLine_isInfix line
  rw [← hline, utf8ByteSize_ofList, byteSize_append, byteSize_append] at h
  rw [utf8ByteSize_ofList]
  omega

/-- No comment begins in a text in normal form. -/
theorem beforeComment_normalizeLine (line : List Char) :
    beforeComment (normalizeLine line) = normalizeLine line :=
  beforeComment_of_isInfix ((trim_isInfix _).trans (dropSuffix_starts _ _).isInfix)
    (beforeComment_beforeComment _)

end Check

namespace Lexing

/-! ## Tokens of a line and of its normal form -/

/-- If all that is seen stands before the first line comment, nothing that is seen stands behind one. -/
theorem pairwise_of_filter_seen {tokens : List SpannedToken}
    (h : (tokens.takeWhile fun t => !isLineComment t.value).filter seen = tokens.filter seen) :
    tokens.Pairwise fun t u => isLineComment t.value = true → seen u = false := by
  induction tokens with
  | nil => exact .nil
  | cons t tokens ih =>
    cases hcomment : isLineComment t.value with
    | true =>
      rw [List.takeWhile_cons_of_neg (by simp [hcomment]), List.filter_nil, eq_comm,
        List.filter_eq_nil_iff, List.forall_mem_cons] at h
      have hunseen : ∀ u ∈ tokens, seen u = false := fun u hu => Bool.eq_false_iff.2 (h.2 u hu)
      refine List.pairwise_cons.2 ⟨fun u hu _ => hunseen u hu, ?_⟩
      exact List.pairwise_of_forall_mem_list fun _ _ v hv _ => hunseen v hv
    | false =>
      rw [List.takeWhile_cons_of_pos (by simp [hcomment]), List.filter_cons, List.filter_cons] at h
      refine List.pairwise_cons.2 ⟨fun u _ htrue => absurd htrue (by simp [hcomment]), ih ?_⟩
      split at h
      · exact (List.cons.inj h).2
      · exact h

section

variable [Build] {p : LexicalPreferences} {line : List Char}
  (hgood : ∀ t ∈ (tokenize p (String.ofList line)).tokens, t.value.isError = false)
  (hblock : ∀ t ∈ (tokenize p (String.ofList line)).tokens, ∀ text, t.value ≠ .blockComment text)
include hgood hblock

/-- The tokens of a line in normal form are those that stand before its first line comment, where no
string has two slashes. -/
theorem significant_normalizeLine
    (hslashless : ∀ t ∈ (tokenize p (String.ofList line)).tokens, t.value.Slashless) :
    (tokenize p (String.ofList (normalizeLine line))).significant.map (·.value) =
      (((tokenize p (String.ofList line)).tokens.toList.takeWhile fun t =>
        !isLineComment t.value).filter seen).map (·.value) ++ [.eof] := by
  have hsize := utf8ByteSize_le_of_errorless hgood
  have hgoods : AllGood (tokenize p (String.ofList line)).tokens.toList :=
    fun t ht => hgood t (Array.mem_toList_iff.1 ht)
  have hcut := (cut_tokenize hsize).unlimited hgoods
  rw [String.toList_ofList] at hcut
  have hreads := hcut.lineReads_front hgoods fun t ht => hblock t (Array.mem_toList_iff.1 ht)
  obtain ⟨hwritable, hroom⟩ := tokenize_permitted hgood
  generalize htokens : (tokenize p (String.ofList line)).tokens.toList = tokens at *
  have hsublist : ((tokens.takeWhile fun t => !isLineComment t.value).filter seen).Sublist
      (tokens.filter seen) := (List.takeWhile_sublist _).filter _
  have hmem : ∀ {P : Token → Prop}, (∀ t ∈ tokens, seen t = true → P t.value) →
      ∀ t ∈ ((tokens.takeWhile fun t => !isLineComment t.value).filter seen).map (·.value), P t := by
    rintro P hP u ht
    obtain ⟨t, hfront, rfl⟩ := List.mem_map.1 ht
    obtain ⟨ht, hseen⟩ := List.mem_filter.1 (hsublist.subset hfront)
    exact hP t ht hseen
  have hlength := hsublist.length_le
  rw [← List.length_map (fun t : SpannedToken => t.value)] at hlength
  have hts := hmem hwritable
  have hplain := hmem fun t ht _ => hslashless t (by rw [← Array.mem_toList_iff, htokens]; exact ht)
  generalize ((tokens.takeWhile fun t => !isLineComment t.value).filter seen).map (·.value) = ts at *
  by_cases hnil : ts = []
  · subst hnil
    rw [normalizeLine_of_reads_nil hreads]
    rw [tokenize_of_le (Nat.zero_le _)]
    simp [tokenizeFrom, TokenizedSource.significant, List.filter_cons, Token.isSignificant_eof]
  · have hbodysize := normalizeLine_size hsize
    have hwords := words_normalizeLine hreads hnil hplain
    have hrun := hwords.tokenizeFrom p hts 0 (by omega) .start #[] #[]
    rw [tokenize_of_le hbodysize, String.toList_ofList, hrun]
    rfl

/-- Normal form keeps the tokens that the parser sees of a line without errors and block comments
exactly if no two slashes stand together in a string, and nothing that is seen stands behind a line
comment. -/
theorem significant_normalizeLine_iff :
    (tokenize p (String.ofList (normalizeLine line))).significant.map (·.value) =
        (tokenize p (String.ofList line)).significant.map (·.value) ↔
      (∀ t ∈ (tokenize p (String.ofList line)).tokens, t.value.Slashless) ∧
        (tokenize p (String.ofList line)).tokens.toList.Pairwise fun t u =>
          isLineComment t.value = true → seen u = false := by
  have hsize := utf8ByteSize_le_of_errorless hgood
  have hall := (cut_tokenize hsize (p := p)).significant
  constructor
  · intro h
    have hslashless : ∀ t ∈ (tokenize p (String.ofList line)).tokens, t.value.Slashless := by
      rintro t ht text hvalue hslashes
      -- The string would be a token, and so a part, of the text in normal form.
      have hmem : .string text ∈ (tokenize p (String.ofList (normalizeLine line))).significant.map (·.value) := by
        rw [h, ← hvalue]
        exact List.mem_map_of_mem (List.mem_filter.2 ⟨Array.mem_toList_iff.2 ht, by rw [hvalue]; rfl⟩)
      obtain ⟨u, hu, htext⟩ := List.mem_map.1 hmem
      have hpart := infix_of_mem_tokenize (normalizeLine_size hsize) (List.mem_of_mem_filter hu)
        (by rw [htext]; nofun)
      rw [htext, String.toList_ofList] at hpart
      have hcut := beforeComment_of_isInfix (hslashes.trans hpart) (beforeComment_normalizeLine line)
      exact absurd hcut (by decide)
    refine ⟨hslashless, pairwise_of_filter_seen ?_⟩
    have hfront : (((tokenize p (String.ofList line)).tokens.toList.takeWhile fun t =>
        !isLineComment t.value).filter seen).Sublist
          ((tokenize p (String.ofList line)).tokens.toList.filter seen) :=
      (List.takeWhile_sublist _).filter _
    rw [significant_normalizeLine hgood hblock hslashless] at h
    have hvalues := List.append_cancel_right (h.trans hall)
    refine hfront.eq_of_length ?_
    simpa using congrArg List.length hvalues
  · rintro ⟨hslashless, hlast⟩
    rw [significant_normalizeLine hgood hblock hslashless, filter_seen_takeWhile hlast]
    exact hall.symm

end

theorem significant_normalizeLine_iff_quotient :
    let line := "x = \"/\" / 2 // \"//\"\r".toList
    let tokens := (tokenize {} (String.ofList line)).tokens
    (∀ t ∈ tokens, t.value.isError = false) ∧
      (∀ t ∈ tokens, ∀ text, t.value ≠ .blockComment text) ∧
      ((tokenize {} (String.ofList (normalizeLine line))).significant.map (·.value) =
          (tokenize {} (String.ofList line)).significant.map (·.value) ↔
        (∀ t ∈ tokens, t.value.Slashless) ∧
          tokens.toList.Pairwise fun t u => isLineComment t.value = true → seen u = false) := by
  intro line tokens
  have hvalues : tokens.toList.map (·.value) = [.identifier "x", .whitespace " ", .symbol .assign,
      .whitespace " ", .string "\"/\"", .whitespace " ", .symbol .divide, .whitespace " ", .integer "2",
      .whitespace " ", .lineComment "// \"//\"", .whitespace "\r", .eof] := by decide +kernel
  have hall : ∀ P : Token → Prop, (∀ t ∈ tokens.toList.map (·.value), P t) →
      ∀ t ∈ tokens, P t.value := fun _ h t ht => h _ (List.mem_map_of_mem (Array.mem_toList_iff.2 ht))
  have hgood := hall (·.isError = false) (by rw [hvalues]; decide)
  have hblock := hall (∀ text, · ≠ .blockComment text) (by rw [hvalues]; simp)
  exact ⟨hgood, hblock, significant_normalizeLine_iff hgood hblock⟩

/-- Two slashes in a string cut the string off, and with it the value of a declaration. -/
theorem significant_normalizeLine_string :
    let line := "string s = \"a//b\"".toList
    '\n' ∉ line ∧
      (tokenize {} (String.ofList line)).tokens.toList.map (·.value) = [.keyword .string,
        .whitespace " ", .identifier "s", .whitespace " ", .symbol .assign, .whitespace " ",
        .string "\"a//b\"", .eof] ∧
      (tokenize {} (String.ofList (normalizeLine line))).significant.map (·.value) ≠
        (tokenize {} (String.ofList line)).significant.map (·.value) := by
  decide +kernel

end Lexing

end EvlCheck
