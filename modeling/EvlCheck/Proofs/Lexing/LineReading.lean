/-
One line of a source as the lexer reads it. Where no comment runs over the line feeds around a line,
the tokens that the source has on the line are those of the text of the line alone (`exists_line`).

A text with a line feed is cut there: either its pieces are those of the text before the line feed and
of the text behind it, or one piece holds the line feed, which is then a block comment
(`Cut.at_lineFeed`). This is the other direction of `Cut.append_line`.
-/
import EvlCheck.Proofs.Fix.LineAt
import EvlCheck.Proofs.Lexing.Lines

namespace EvlCheck.Lexing

open EvlCheck.Text

/-! ## Words in a shorter text -/

theorem exists_first_mark {cs : List Char} (h : ['*', '/'] <:+: cs) :
    ∃ body rest, cs = body ++ '*' :: '/' :: rest ∧ ¬ ['*', '/'] <:+: body ++ ['*'] := by
  cases hclose : closeComment [] cs with
  | mk taken rest =>
    cases rest with
    | none => exact absurd h (not_infix_of_closeComment hclose)
    | some rest =>
      obtain ⟨body, hfirst, hcs, -⟩ := body_of_closeComment hclose
      exact ⟨body, rest, hcs, hfirst⟩

/-- Where the longest word is no open comment, the text up to some place behind the word opens none. -/
theorem Reading.mark_of_isPrefix {taken rest more after : List Char} {t : Token}
    (h : Reading False (taken ++ rest ++ more) taken t) (hgood : t.isError = false)
    (hopens : taken ++ rest = '/' :: '*' :: after) : ['*', '/'] <:+: after := by
  cases h with
  | fault => cases hgood
  | stopped breach => exact breach.elim
  | word longest sound =>
    obtain ⟨c, w, rfl⟩ := longest.spells.exists_cons
    obtain ⟨rfl, hbehind⟩ := List.cons_eq_cons.1 hopens
    rcases longest.spells.of_other rfl rfl with ⟨s, rfl, hs⟩ | ⟨-, body, hv, -⟩ | ⟨-, body, hv, -⟩
    · -- A slash alone: the comment behind it is closed, and is the longer word.
      exfalso
      have htext : '/' :: w ++ rest ++ more = '/' :: '*' :: (after ++ more) := by
        rw [hopens, List.cons_append, List.cons_append]
      rw [htext] at longest sound
      have hmark : ['*', '/'] <:+: after ++ more := by
        by_contra hnone
        exact sound _ (.unclosedComment hnone)
      obtain ⟨body, behind, hbody, hfirst⟩ := exists_first_mark hmark
      have hcomment := Spells.blockComment hfirst
      have hlength := symbol_chars_length_le s
      rw [hs] at hlength
      rcases longest.longest _ _ ⟨behind, by simp [hbody]⟩ hcomment with hlt | ⟨-, heq⟩
      · simp only [List.length_cons, List.length_append, List.length_nil] at hlt hlength
        omega
      · cases heq
    · cases hv
      cases hbehind
    · cases hv
      cases hbehind
      exact ⟨body, rest, by simp⟩

/-- A word is read in a text that ends earlier as in the longer one. -/
theorem Reading.of_longer {taken rest more : List Char} {t : Token}
    (h : Reading False (taken ++ rest ++ more) taken t) (hgood : t.isError = false) :
    Reading False (taken ++ rest) taken t := by
  have hmark : ∀ after, taken ++ rest = '/' :: '*' :: after → ['*', '/'] <:+: after :=
    fun after => h.mark_of_isPrefix hgood
  cases h with
  | fault => cases hgood
  | stopped breach => exact breach.elim
  | word longest sound =>
    have hhead : taken <+: taken ++ rest := List.prefix_append taken rest
    exact .word ⟨hhead, longest.spells, fun v u hv hu =>
      longest.longest v u (hv.trans (List.prefix_append _ more)) hu⟩
      (not_faulty hhead longest.spells hmark)

theorem Reading.spells {cs taken : List Char} {t : Token} (h : Reading False cs taken t)
    (hgood : t.isError = false) : Spells taken t := by
  cases h with
  | word longest => exact longest.spells
  | fault => cases hgood
  | stopped breach => exact breach.elim

/-! ## Cutting a text at a line feed -/

/-- A token begins on no line before that of the text and on none behind its last. -/
theorem Cut.line_bounds {Ok : PieceProp} {place : Position} {cs : List Char}
    {tokens : List SpannedToken} (h : Cut Ok place cs tokens) {t : SpannedToken} (ht : t ∈ tokens) :
    place.line ≤ t.span.start.line ∧ t.span.start.line ≤ place.line + cs.count '\n' := by
  induction h with
  | done place =>
    rw [List.mem_singleton] at ht
    subst ht
    exact ⟨Nat.le_refl _, Nat.le_refl _⟩
  | @piece place taken rest u tokens nonempty inside text ok next ih =>
    have hline := Position.line_advanceAll place taken
    rw [List.count_append]
    rcases List.mem_cons.1 ht with rfl | ht
    · exact ⟨Nat.le_refl _, by simp⟩
    · have := ih ht
      omega

/-- No token of a cut is text at fault. -/
def AllGood (tokens : List SpannedToken) : Prop := ∀ t ∈ tokens, t.value.isError = false

theorem allGood_cons {t : SpannedToken} {tokens : List SpannedToken} :
    AllGood (t :: tokens) ↔ t.value.isError = false ∧ AllGood tokens :=
  List.forall_mem_cons

/-- The end of the source left out, and blanks. -/
def dense (t : SpannedToken) : Bool := solid t && !t.value.isEof

theorem dense_of_whitespace (text : String) (s : Span) : dense ⟨.whitespace text, s⟩ = false := rfl

/-- The rest of a run of blanks is the first piece of what is left. -/
theorem Cut.rest_of_blanks {place : Position} {g cs : List Char} {tokens : List SpannedToken}
    (h : Cut (Reading False) (place.advanceAll g) cs tokens) (hg : ∀ c ∈ g, isGap c = true)
    (hcs : ∀ d ∈ cs.head?, isGap d = false) (hgood : AllGood tokens) :
    ∃ us, Cut (Reading False) place (g ++ cs) us ∧ AllGood us ∧
      us.filter dense = tokens.filter dense := by
  by_cases hne : g = []
  · subst hne
    exact ⟨tokens, h, hgood, rfl⟩
  · refine ⟨_, .piece hne (by simp) rfl (reading_blanks hne hg hcs) h, ?_, ?_⟩
    · exact allGood_cons.2 ⟨rfl, hgood⟩
    · rw [List.filter_cons_of_neg (by simp [dense_of_whitespace])]

theorem append_eq_lineFeed {taken rest before behind : List Char}
    (h : taken ++ rest = before ++ '\n' :: behind) :
    (∃ more, before = taken ++ more ∧ rest = more ++ '\n' :: behind) ∨
      ∃ more, taken = before ++ '\n' :: more ∧ behind = more ++ rest := by
  rcases List.append_eq_append_iff.1 h with ⟨more, rfl, hrest⟩ | ⟨more, rfl, hbehind⟩
  · exact .inl ⟨more, rfl, hrest⟩
  · cases more with
    | nil => exact .inl ⟨[], by simp, by simpa using hbehind.symm⟩
    | cons c more =>
      obtain ⟨rfl, rfl⟩ := List.cons_eq_cons.1 hbehind
      exact .inr ⟨more, rfl, rfl⟩

/-- A text that is cut without a fault is cut at each of its line feeds, but for blanks, unless a block
comment runs over it. -/
theorem Cut.at_lineFeed {place : Position} {cs before behind : List Char}
    {tokens : List SpannedToken} (h : Cut (Reading False) place cs tokens) (hgood : AllGood tokens)
    (hcs : cs = before ++ '\n' :: behind) :
    (∃ ts us, Cut (Reading False) place before ts ∧ AllGood ts ∧
      Cut (Reading False) (place.advanceAll (before ++ ['\n'])) behind us ∧ AllGood us ∧
      tokens.filter dense = ts.filter dense ++ us.filter dense) ∨
    ∃ t ∈ tokens, (∃ text, t.value = .blockComment text) ∧
      t.span.start.line ≤ place.line + before.count '\n' ∧
      place.line + before.count '\n' + 1 ≤ t.span.stop.line := by
  induction h generalizing before with
  | done => simp at hcs
  | @piece place taken rest t tokens nonempty inside text ok next ih =>
    obtain ⟨ht, hbehind⟩ := allGood_cons.1 hgood
    rcases append_eq_lineFeed hcs with ⟨more, rfl, hrest⟩ | ⟨more, rfl, rfl⟩
    · rcases ih hbehind hrest with ⟨ts, us, hts, hgoodts, hus, hgoodus, hfilter⟩ | ⟨u, hu, hcomment, hlines⟩
      · left
        rw [hrest, ← List.append_assoc] at ok
        rw [← Position.advanceAll_append, ← List.append_assoc] at hus
        refine ⟨_, us, .piece nonempty inside text (ok.of_longer ht) hts, allGood_cons.2 ⟨ht, hgoodts⟩,
          hus, hgoodus, ?_⟩
        rw [List.filter_cons, List.filter_cons, hfilter]
        split <;> rfl
      · right
        rw [Position.line_advanceAll] at hlines
        rw [List.count_append]
        exact ⟨u, List.mem_cons_of_mem _ hu, hcomment, by omega, by omega⟩
    · -- The piece itself holds the line feed.
      clear ih
      have hspells := ok.spells ht
      rcases hspells.of_lineEnd (List.mem_append_right before List.mem_cons_self) (.inr rfl) with hblank | ⟨body, hbody, -⟩
      · left
        obtain ⟨c, w, hw⟩ := List.exists_cons_of_ne_nil nonempty
        rw [hw] at ok hblank
        obtain ⟨rfl, -, hrest⟩ := ok.of_gap (hblank c (by simp))
        rw [← hw] at hblank
        have hbefore : ∀ d ∈ before, isGap d = true := fun d hd => hblank d (by simp [hd])
        have hmore : ∀ d ∈ more, isGap d = true := fun d hd => hblank d (by simp [hd])
        have hsplit : before ++ '\n' :: more = before ++ ['\n'] ++ more := by simp
        rw [hsplit, Position.advanceAll_append] at next
        obtain ⟨us, hus, hgoodus, hfilter⟩ := next.rest_of_blanks hmore hrest hbehind
        obtain ⟨ts, hts, hgoodts, hnone⟩ := (Cut.done (place.advanceAll before)).rest_of_blanks
          hbefore (by simp) (by simp [AllGood, Token.isError])
        rw [List.append_nil] at hts
        refine ⟨ts, us, hts, hgoodts, hus, hgoodus, ?_⟩
        rw [hnone, hfilter, List.filter_cons_of_neg (by simp [dense_of_whitespace])]
        rfl
      · right
        rcases hspells.of_other hbody rfl with
          ⟨s, -, hs⟩ | ⟨-, inner, hinner, -⟩ | ⟨rfl, -⟩
        · exact absurd (hs.trans hbody) (symbol_chars_ne_comment s _).2
        · rw [hbody] at hinner
          cases hinner
        · refine ⟨_, List.mem_cons_self, ⟨_, rfl⟩, Nat.le_add_right _ _, ?_⟩
          rw [Position.line_advanceAll, List.count_append, List.count_cons_self]
          omega

/-! ## The tokens of one line -/

section

variable {cs raw : List Char} {tokens : List SpannedToken}

/-- No comment runs over a line: no block comment has a part of itself or one of its ends there. -/
def Uncommented (tokens : List SpannedToken) (n : Nat) : Prop :=
  ∀ t ∈ tokens, ∀ text, t.value = .blockComment text → t.span.start.line ≤ n →
    ¬ n ≤ t.span.stop.line

theorem Uncommented.of_dense {ts us : List SpannedToken} {n : Nat} (h : Uncommented ts n)
    (hsub : us.filter dense ⊆ ts.filter dense) : Uncommented us n := by
  intro t ht text hvalue
  have hdense : dense t = true := by
    unfold dense solid
    rw [hvalue]
    rfl
  exact h t (List.mem_of_mem_filter (hsub (List.mem_filter.2 ⟨ht, hdense⟩))) text hvalue

/-- The first line of a text is cut as it is alone. -/
theorem Cut.first_line {place : Position} {after : List Char}
    (h : Cut (Reading False) place (raw ++ after) tokens) (hgood : AllGood tokens)
    (hraw : '\n' ∉ raw) (hafter : after = [] ∨ after.head? = some '\n')
    (hcomment : Uncommented tokens place.line) :
    ∃ ts, Cut (Reading False) place raw ts ∧ AllGood ts ∧
      ts.filter dense = (tokens.filter dense).filter fun t => t.span.start.line = place.line := by
  have hcount : raw.count '\n' = 0 := List.count_eq_zero.2 hraw
  have hall : ∀ {ts}, Cut (Reading False) place raw ts →
      (ts.filter dense).filter (fun t => t.span.start.line = place.line) = ts.filter dense := by
    intro ts hts
    refine List.filter_eq_self.2 fun t ht => decide_eq_true ?_
    have := hts.line_bounds (List.mem_of_mem_filter ht)
    omega
  rcases hafter with rfl | hafter
  · rw [List.append_nil] at h
    exact ⟨tokens, h, hgood, (hall h).symm⟩
  · obtain ⟨after, rfl⟩ := List.head?_eq_some_iff.1 hafter
    rcases h.at_lineFeed hgood rfl with ⟨ts, us, hts, hgoodts, hus, -, hfilter⟩ |
      ⟨t, ht, ⟨text, hvalue⟩, hstart, hstop⟩
    · have hnone : (us.filter dense).filter (fun t => t.span.start.line = place.line) = [] := by
        refine List.filter_eq_nil_iff.2 fun t ht => ?_
        have hbounds := hus.line_bounds (List.mem_of_mem_filter ht)
        rw [Position.line_advanceAll, List.count_append, List.count_singleton_self] at hbounds
        simp only [decide_eq_true_eq]
        omega
      refine ⟨ts, hts, hgoodts, ?_⟩
      rw [hfilter, List.filter_append, hall hts, hnone, List.append_nil]
    · exact absurd (show place.line ≤ t.span.stop.line by omega)
        (hcomment t ht text hvalue (by omega))

/-- A line over which no comment runs is cut as it is alone. -/
theorem Cut.exists_line (h : Cut (Reading False) .start cs tokens) (hgood : AllGood tokens) {k : Nat}
    (hline : (lines cs)[k]? = some raw) (hcomment : Uncommented tokens (k + 1)) :
    ∃ place ts, Cut (Reading False) place raw ts ∧ AllGood ts ∧
      ts.filter dense = (tokens.filter dense).filter fun t => t.span.start.line = k + 1 := by
  obtain ⟨before, after, rfl, rfl, hbefore, hraw, hafter⟩ := exists_of_getElem?_splitOn hline
  rcases hbefore with rfl | hlast
  · obtain ⟨ts, hts, hgoodts, hfilter⟩ := h.first_line hgood hraw hafter hcomment
    exact ⟨_, ts, hts, hgoodts, hfilter⟩
  · obtain ⟨front, rfl⟩ := List.getLast?_eq_some_iff.1 hlast
    have hcount : (front ++ ['\n']).count '\n' = front.count '\n' + 1 := by
      rw [List.count_append, List.count_singleton_self]
    have hstart : Position.start.line = 1 := rfl
    rw [hcount] at hcomment ⊢
    have hsplit : front ++ ['\n'] ++ raw ++ after = front ++ '\n' :: (raw ++ after) := by simp
    rcases h.at_lineFeed hgood hsplit with
      ⟨ts, us, hts, -, hus, hgoodus, hfilter⟩ | ⟨t, ht, ⟨text, hvalue⟩, hlow, hhigh⟩
    · have hplace : (Position.start.advanceAll (front ++ ['\n'])).line = front.count '\n' + 1 + 1 := by
        rw [Position.line_advanceAll, hcount, hstart]
        omega
      have hus' : Uncommented us (front.count '\n' + 1 + 1) :=
        hcomment.of_dense (by rw [hfilter]; exact List.subset_append_right _ _)
      rw [← hplace] at hus' ⊢
      obtain ⟨vs, hvs, hgoodvs, hfilter'⟩ := hus.first_line hgoodus hraw hafter hus'
      have hnone : (ts.filter dense).filter (fun t =>
          t.span.start.line = (Position.start.advanceAll (front ++ ['\n'])).line) = [] := by
        refine List.filter_eq_nil_iff.2 fun t ht => ?_
        have hbounds := hts.line_bounds (List.mem_of_mem_filter ht)
        simp only [decide_eq_true_eq]
        omega
      refine ⟨_, vs, hvs, hgoodvs, ?_⟩
      rw [hfilter', hfilter, List.filter_append, hnone, List.nil_append]
    · exact absurd (show front.count '\n' + 1 + 1 ≤ t.span.stop.line by omega)
        (hcomment t ht text hvalue (by omega))

end

/-! ## What a line reads -/

/-- A line is blanks and words that are read as the tokens, in their order, and perhaps a comment
behind them. -/
inductive LineReads : List Char → List Token → Prop
  | blank {g : List Char} (gap : ∀ c ∈ g, isGap c = true) : LineReads g []
  | comment {g body : List Char} (gap : ∀ c ∈ g, isGap c = true) :
      LineReads (g ++ '/' :: '/' :: body) []
  | word {g w rest : List Char} {t : Token} {ts : List Token} (gap : ∀ c ∈ g, isGap c = true)
      (seen : t.isSignificant = true) (reading : Reading False (w ++ rest) w t)
      (next : LineReads rest ts) : LineReads (g ++ (w ++ rest)) (t :: ts)

theorem LineReads.skip {g cs : List Char} {ts : List Token} (hg : ∀ c ∈ g, isGap c = true)
    (h : LineReads cs ts) : LineReads (g ++ cs) ts := by
  cases h with
  | blank gap => exact .blank (List.forall_mem_append.2 ⟨hg, gap⟩)
  | comment gap =>
    rw [← List.append_assoc]
    exact .comment (List.forall_mem_append.2 ⟨hg, gap⟩)
  | word gap seen reading next =>
    rw [← List.append_assoc]
    exact .word (List.forall_mem_append.2 ⟨hg, gap⟩) seen reading next

/-! ### The first word of a line -/

theorem LineReads.uncons {cs : List Char} {t : Token} {ts : List Token} (h : LineReads cs (t :: ts)) :
    ∃ g w rest, (∀ c ∈ g, isGap c = true) ∧ cs = g ++ (w ++ rest) ∧ Reading False (w ++ rest) w t ∧
      t.isSignificant = true ∧ LineReads rest ts := by
  cases h with
  | word gap seen reading next => exact ⟨_, _, _, gap, rfl, reading, seen, next⟩

/-- A word ends where no part of a name follows. -/
theorem Reading.word_ends {c : Char} {w rest : List Char} {t : Token}
    (h : Reading False (c :: w ++ rest) (c :: w) t) (hgood : t.isError = false)
    (hc : isNameStart c = true) (hw : ∀ d ∈ w, isNamePart d = true) :
    ∀ d ∈ rest.head?, isNamePart d = false := by
  intro d hd
  obtain ⟨rest, rfl⟩ := List.head?_eq_some_iff.1 hd
  by_contra hpart
  rw [Bool.not_eq_false] at hpart
  cases h with
  | fault => cases hgood
  | stopped breach => exact breach.elim
  | word longest =>
    have hmore : ∀ e ∈ w ++ [d], isNamePart e = true :=
      List.forall_mem_append.2 ⟨hw, by simpa using hpart⟩
    have hlonger := spells_ofWord hc hmore
    rcases longest.longest _ _ ⟨rest, by simp⟩ hlonger with hlt | ⟨heq, -⟩
    · simp only [List.length_cons, List.length_append, List.length_nil] at hlt
      omega
    · simpa using congrArg List.length heq

/-- A slash alone ends where no comment begins with it. -/
theorem Reading.slash_ends {rest : List Char} {t : Token} (h : Reading False ('/' :: rest) ['/'] t)
    (hgood : t.isError = false) : rest.head? ≠ some '/' ∧ rest.head? ≠ some '*' := by
  cases h with
  | fault => cases hgood
  | stopped breach => exact breach.elim
  | word longest sound =>
    have hshort : ∀ {w : List Char} {u : Token}, Spells w u → w <+: '/' :: rest → w.length ≤ 1 := by
      intro w u hspells hw
      rcases longest.longest w u hw hspells with hlt | ⟨rfl, -⟩
      · exact Nat.le_of_lt hlt
      · exact Nat.le_refl 1
    constructor
    · intro hslash
      obtain ⟨more, rfl⟩ := List.head?_eq_some_iff.1 hslash
      have hbody := hshort (@Spells.lineComment [] (by simp)) ⟨more, rfl⟩
      exact absurd hbody (by decide)
    · intro hstar
      obtain ⟨more, rfl⟩ := List.head?_eq_some_iff.1 hstar
      by_cases hmark : ['*', '/'] <:+: more
      · obtain ⟨body, behind, rfl, hfirst⟩ := exists_first_mark hmark
        have hbody := hshort (Spells.blockComment hfirst) ⟨behind, by simp⟩
        simp at hbody
      · exact sound _ (.unclosedComment hmark)

theorem LineReads.keyword {cs : List Char} {k : Keyword} {ts : List Token}
    (h : LineReads cs (.keyword k :: ts)) :
    ∃ g rest, (∀ c ∈ g, isGap c = true) ∧ cs = g ++ (k.text.toList ++ rest) ∧
      (∀ d ∈ rest.head?, isNamePart d = false) ∧ LineReads rest ts := by
  obtain ⟨g, w, rest, hg, rfl, hreading, -, hnext⟩ := h.uncons
  obtain rfl : w = k.text.toList := by
    have htext := (hreading.spells rfl).text_eq
    rw [Token.text] at htext
    rw [htext, String.toList_ofList]
  obtain ⟨c, cs, hk, hstart, hmore⟩ := keyword_text_shape k
  rw [hk] at hreading
  exact ⟨g, rest, hg, rfl, hreading.word_ends rfl hstart hmore, hnext⟩

theorem LineReads.identifier {cs : List Char} {n : String} {ts : List Token}
    (h : LineReads cs (.identifier n :: ts)) :
    ∃ g c w rest, (∀ d ∈ g, isGap d = true) ∧ cs = g ++ (c :: w ++ rest) ∧ n = String.ofList (c :: w) ∧
      isNameStart c = true ∧ (∀ d ∈ w, isNamePart d = true) ∧
      (∀ d ∈ rest.head?, isNamePart d = false) ∧ LineReads rest ts := by
  obtain ⟨g, w, rest, hg, rfl, hreading, -, hnext⟩ := h.uncons
  have hspells := hreading.spells rfl
  cases hspells with
  | @identifier c w start more free =>
    have hstart : isNameStart c = true := by simpa [isNameStart] using start
    have hmore : ∀ d ∈ w, isNamePart d = true := fun d hd => by simpa [isNamePart] using more d hd
    exact ⟨g, c, w, rest, hg, rfl, rfl, hstart, hmore, hreading.word_ends rfl hstart hmore, hnext⟩

theorem LineReads.symbol {cs : List Char} {s : OpSymbol} {ts : List Token}
    (h : LineReads cs (.symbol s :: ts)) :
    ∃ g rest, (∀ c ∈ g, isGap c = true) ∧ cs = g ++ (s.chars ++ rest) ∧ LineReads rest ts := by
  obtain ⟨g, w, rest, hg, rfl, hreading, -, hnext⟩ := h.uncons
  cases hreading.spells rfl with
  | symbol s => exact ⟨g, rest, hg, rfl, hnext⟩

/-- The parser sees the token, and it is not the end. -/
def seen (t : SpannedToken) : Bool := t.value.isSignificant && !t.value.isEof

def isLineComment : Token → Bool
  | .lineComment _ => true
  | _ => false

theorem seen_of_isLineComment {t : SpannedToken} (h : isLineComment t.value = true) :
    seen t = false := by
  obtain ⟨t, s⟩ := t
  cases t <;> first | rfl | cases h

/-- The text of a cut without block comments and faults reads what is seen before its first line
comment. -/
theorem Cut.lineReads_front {place : Position} {cs : List Char} {tokens : List SpannedToken}
    (h : Cut (Reading False) place cs tokens) (hgood : AllGood tokens)
    (hblock : ∀ t ∈ tokens, ∀ text, t.value ≠ .blockComment text) :
    LineReads cs (((tokens.takeWhile fun t => !isLineComment t.value).filter seen).map (·.value)) := by
  induction h with
  | done => exact .blank (by simp)
  | @piece place taken rest t tokens nonempty inside text ok next ih =>
    obtain ⟨ht, hgood⟩ := allGood_cons.1 hgood
    rw [List.forall_mem_cons] at hblock
    have hnext := ih hgood hblock.2
    have hspells := ok.spells ht
    cases hvalue : t with
    | whitespace s =>
      subst hvalue
      cases hspells with
      | whitespace _ blank => exact hnext.skip fun c hc => (isGap_iff c).2 (blank c hc)
    | lineComment s =>
      subst hvalue
      cases hspells with
      | lineComment line => exact .comment (g := []) (by simp)
    | blockComment s => exact absurd hvalue (hblock.1 s)
    | error s => rw [hvalue] at ht; cases ht
    | eof => exact absurd hvalue inside
    | _ =>
      rw [← hvalue, List.takeWhile_cons_of_pos (by rw [hvalue]; rfl),
        List.filter_cons_of_pos (by rw [seen, hvalue]; rfl)]
      exact .word (g := []) (by simp) (by rw [hvalue]; rfl) ok hnext

/-- Where nothing that is seen stands behind a line comment, all that is seen stands before the first
one. -/
theorem filter_seen_takeWhile {tokens : List SpannedToken}
    (hlast : tokens.Pairwise fun t u => isLineComment t.value = true → seen u = false) :
    (tokens.takeWhile fun t => !isLineComment t.value).filter seen = tokens.filter seen := by
  induction tokens with
  | nil => rfl
  | cons t tokens ih =>
    rw [List.pairwise_cons] at hlast
    cases hcomment : isLineComment t.value with
    | true =>
      have hnone : (t :: tokens).filter seen = [] := by
        refine List.filter_eq_nil_iff.2 (List.forall_mem_cons.2 ⟨?_, fun u hu => ?_⟩)
        · simp [seen_of_isLineComment hcomment]
        · simp [hlast.1 u hu hcomment]
      rw [hnone, List.takeWhile_cons_of_neg (by simp [hcomment]), List.filter_nil]
    | false =>
      rw [List.takeWhile_cons_of_pos (by simp [hcomment]), List.filter_cons, List.filter_cons,
        ih hlast.2]

/-- The text of a cut without block comments and faults, in which nothing that is seen stands behind a
line comment, is such a line. -/
theorem Cut.lineReads {place : Position} {cs : List Char} {tokens : List SpannedToken}
    (h : Cut (Reading False) place cs tokens) (hgood : AllGood tokens)
    (hblock : ∀ t ∈ tokens, ∀ text, t.value ≠ .blockComment text)
    (hlast : tokens.Pairwise fun t u => isLineComment t.value = true → seen u = false) :
    LineReads cs ((tokens.filter seen).map (·.value)) :=
  filter_seen_takeWhile hlast ▸ h.lineReads_front hgood hblock

/-! ### The lines of a text -/

theorem dense_of_seen {t : SpannedToken} (h : seen t = true) : dense t = true := by
  obtain ⟨t, s⟩ := t
  cases t <;> first | rfl | cases h

/-- What the parser sees of a line. -/
def visibleOn (tokens : List SpannedToken) (n : Nat) : List Token :=
  ((tokens.filter seen).filter fun t => t.span.start.line = n).map (·.value)

/-- A line has comments only at its end: no comment runs over it, and what the parser sees stands
before them. -/
structure Tidy (tokens : List SpannedToken) (n : Nat) : Prop where
  block : Uncommented tokens n
  last : (tokens.filter fun t => t.span.start.line = n).Pairwise fun t u =>
    isLineComment t.value = true → seen u = false

/-- A line whose comments are at its end is the words that the parser sees of it. -/
theorem Cut.lineReads_of_tidy {cs raw : List Char} {tokens : List SpannedToken}
    (h : Cut (Reading False) .start cs tokens) (hgood : AllGood tokens) {k : Nat}
    (hline : (lines cs)[k]? = some raw) (htidy : Tidy tokens (k + 1)) :
    LineReads raw (visibleOn tokens (k + 1)) := by
  obtain ⟨place, ts, hts, hgoodts, hfilter⟩ := h.exists_line hgood hline htidy.block
  have hseen : (tokens.filter seen).filter (fun t => t.span.start.line = k + 1) = ts.filter seen := by
    have hboth : ∀ us : List SpannedToken, us.filter seen = (us.filter dense).filter seen := by
      intro us
      rw [List.filter_filter]
      refine List.filter_congr fun t _ => ?_
      cases ht : seen t with
      | false => rfl
      | true => rw [dense_of_seen ht]; rfl
    rw [hboth ts, hfilter, hboth tokens, List.filter_filter, List.filter_filter (p := seen)]
    exact List.filter_congr fun t _ => Bool.and_comm _ _
  unfold visibleOn
  rw [hseen]
  refine hts.lineReads hgoodts (fun t ht text hvalue => ?_) ?_
  · -- The comment stands on the line, and so ends there or below.
    have hdense : dense t = true := by
      unfold dense solid
      rw [hvalue]
      rfl
    have hmem : t ∈ (tokens.filter dense).filter fun t => t.span.start.line = k + 1 := by
      rw [← hfilter]
      exact List.mem_filter.2 ⟨ht, hdense⟩
    obtain ⟨hmem, hplace⟩ := List.mem_filter.1 hmem
    have hplace : t.span.start.line = k + 1 := of_decide_eq_true hplace
    have htokens := List.mem_of_mem_filter hmem
    refine htidy.block t htokens text hvalue (by omega) ?_
    obtain ⟨before, taken, after, -, -, -, hspan, -⟩ := h.exists_piece htokens (by rw [hvalue]; nofun)
    rw [hspan] at hplace ⊢
    dsimp only at hplace ⊢
    rw [Position.advanceAll_append, Position.line_advanceAll]
    omega
  · -- Blanks and the end of the source have no part in the condition.
    have hpairs : (ts.filter dense).Pairwise fun t u =>
        isLineComment t.value = true → seen u = false := by
      rw [hfilter]
      exact htidy.last.sublist (List.filter_sublist.filter _)
    rw [List.pairwise_filter] at hpairs
    refine hpairs.imp fun {t u} hpair hcomment => ?_
    by_contra hu
    rw [Bool.not_eq_false] at hu
    have ht : dense t = true := by
      unfold dense solid
      cases hvalue : t.value <;> rw [hvalue] at hcomment <;> first | rfl | cases hcomment
    rw [hpair ht (dense_of_seen hu) hcomment] at hu
    cases hu

end EvlCheck.Lexing
