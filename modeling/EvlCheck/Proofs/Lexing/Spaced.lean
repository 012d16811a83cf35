/-
Tokens that are written with a blank between each two of them are lexed back. A blank goes on with no
word, so each token is read from its own text (`scan_writable`), and each blank is read alone, since no
token begins with another.

The lexer is followed here, and not the readings of a text: what is to be shown is that no limit stops
it, which a reading leaves open.
-/
import EvlCheck.Proofs.Lexing.LineReading
import EvlCheck.Proofs.Lexing.Written

namespace EvlCheck

open Text

/-- The token is one that the parser sees, other than the end, and has a text to be written: what its
terminal leaves open is a word of the terminal within the limits of the lexer. -/
def Token.Writable [Build] : Token → Prop
  | .keyword _ | .symbol _ => True
  | .identifier name =>
    Lexing.Spells name.toList (.identifier name) ∧ name.length ≤ Limit.identifierChars
  | .integer text => Lexing.Spells text.toList (.integer text)
  | .real text => Lexing.Spells text.toList (.real text)
  | .string text =>
    Lexing.Spells text.toList (.string text) ∧ text.utf8ByteSize ≤ Limit.stringBytes
  | .whitespace _ | .lineComment _ | .blockComment _ | .error _ | .eof => False

namespace Token.Writable

variable [Build] {t : Token}

theorem spells (h : t.Writable) : Lexing.Spells t.text.toList t := by
  cases t with
  | keyword k => exact .keyword k
  | symbol s =>
    rw [Lexing.toList_text_symbol]
    exact .symbol s
  | identifier | string => exact h.1
  | integer | real => exact h
  | _ => exact h.elim

theorem isError (h : t.Writable) : t.isError = false := by
  cases t <;> first | rfl | exact h.elim

/-- Every such token counts. -/
theorem counts (h : t.Writable) (p : LexicalPreferences) : LexMetrics.counts p t = true := by
  cases t <;> first | rfl | exact h.elim

end Token.Writable

namespace Lexing

/-! ## One token -/

section

variable {w rest cs : List Char} {c : Char}

/-- A word of letters is taken up to a character that is no part of it. -/
theorem scan_letters [Build] (hw : w ++ rest = c :: cs) (hc : isNameStart c = true)
    (hpart : ∀ d ∈ w, isNamePart d = true) (hstop : ∀ d ∈ rest.head?, isNamePart d = false) :
    scan c cs = ⟨w, rest, wordOutcome w⟩ := by
  have hkind := headKind_of_isNameStart hc
  have hgap : isGap c = false := by
    cases hg : isGap c with
    | false => rfl
    | true => rw [headKind_of_isGap hg] at hkind; cases hkind
  have hslash : c ≠ '/' := by rintro rfl; exact absurd hc (by decide)
  have hquote : c ≠ '"' := by rintro rfl; exact absurd hc (by decide)
  unfold scan
  rw [if_neg (by simp [hgap]), if_neg (by simp [hslash]), if_neg (by simp [hslash]),
    if_neg (by simp [isDigit_eq_false_of_isNameStart hc]), if_neg hquote, if_pos hc, ← hw]
  unfold scanWhile
  rw [takeWhile_append_of_stop hpart hstop, dropWhile_append_of_stop hpart hstop]

/-- The outcome for a word of letters is its token, where the word is not too long. -/
theorem wordOutcome_of_le [Build] (h : w.length ≤ Limit.identifierChars) :
    wordOutcome w = .ok (.ofWord (String.ofList w)) := by
  unfold wordOutcome
  exact if_neg (by omega)

theorem scan_string [Build] {body : List Char} (hbody : StringBody body)
    (hsize : byteSize ('"' :: (body ++ ['"'])) ≤ Limit.stringBytes) :
    scan '"' (body ++ '"' :: rest) = ⟨'"' :: (body ++ ['"']), rest,
      .ok (.string (String.ofList ('"' :: (body ++ ['"']))))⟩ := by
  have hclose := closeString_body hbody ['"'] rest
  unfold scan
  rw [if_neg (by decide), if_neg (by simp), if_neg (by simp), if_neg (by decide), if_pos rfl]
  unfold scanString
  rw [hclose]
  exact congrArg (Lexeme.mk _ _) (if_neg (by simpa using hsize))

/-- A number breaks no limit, and no symbol does. -/
theorem isBreach_scan [Build] {f : LexFault} (hdigit : c.isDigit = true ∨
      headKind c = .other ∧ (c = '/' → cs.head? ≠ some '/' ∧ cs.head? ≠ some '*'))
    (h : (scan c cs).outcome = .error f) : f.isBreach = false := by
  unfold scan at h
  rcases hdigit with hdigit | ⟨hother, hcomment⟩
  · have hkind := headKind_of_isDigit hdigit
    have hgap : ¬ isGap c = true := fun hg => by rw [headKind_of_isGap hg] at hkind; cases hkind
    have hslash : c ≠ '/' := by rintro rfl; exact absurd hdigit (by decide)
    rw [if_neg hgap, if_neg (by simp [hslash]), if_neg (by simp [hslash]), if_pos hdigit] at h
    exact absurd h (scanNumber_ne_error _)
  · have hspec := headKind_spec c
    rw [hother] at hspec
    obtain ⟨hgap, hdigit, hquote, hname⟩ := hspec
    rw [if_neg (by simp [hgap]), if_neg fun hline => (hcomment hline.1).1 hline.2,
      if_neg fun hblock => (hcomment hblock.1).2 hblock.2, if_neg (by simp [hdigit]), if_neg hquote,
      if_neg (by simp [hname])] at h
    rw [(scanSymbol_error h).1]
    rfl

section

variable {t : Token} (hspells : Spells t.text.toList t) (hcs : t.text.toList ++ rest = c :: cs)
include hspells hcs

theorem toList_text_eq_cons : t.text.toList = c :: t.text.toList.tail := by
  obtain ⟨d, ds, hd⟩ := hspells.exists_cons
  rw [hd] at hcs ⊢
  rw [← (List.cons_eq_cons.1 hcs).1]
  rfl

theorem headKind_eq_terminalHead : headKind c = terminalHead t := by
  have hhead : Spells (c :: t.text.toList.tail) t := toList_text_eq_cons hspells hcs ▸ hspells
  exact hhead.terminalHead_eq.symm

variable (hreading : Reading False (t.text.toList ++ rest) t.text.toList t)
include hreading

/-- Where the scan breaks no limit, its lexeme is what the text is to be read as. -/
theorem scan_unbroken [Build] (hlimit : ∀ f, (scan c cs).outcome = .error f → f.isBreach = false) :
    scan c cs = ⟨t.text.toList, rest, .ok t⟩ := by
  have hreads := reads_scan c cs
  have hword : Reading False (c :: cs) t.text.toList t := hcs ▸ hreading
  have hsplit := scan_append c cs
  unfold Reads at hreads
  rcases hscan : scan c cs with ⟨taken, after, outcome⟩
  rw [hscan] at hreads hlimit hsplit
  cases outcome with
  | error f =>
    obtain ⟨-, hsame⟩ := hword.unique (.fault (hreads (hlimit f rfl)))
    exact absurd hsame (hspells.ne_error _)
  | ok u =>
    obtain ⟨htaken, rfl⟩ := hword.unique (.word hreads.1 hreads.2)
    dsimp only at htaken hsplit
    subst htaken
    rw [← hcs] at hsplit
    rw [List.append_cancel_left hsplit]

theorem scan_word [Build] (hletter : terminalHead t = .letter) (hgood : t.isError = false)
    (hlength : t.text.toList.length ≤ Limit.identifierChars) :
    scan c cs = ⟨t.text.toList, rest, .ok t⟩ := by
  have hsplit := toList_text_eq_cons hspells hcs
  have hhead : Spells (c :: t.text.toList.tail) t := hsplit ▸ hspells
  have hc := headKind_spec c
  rw [headKind_eq_terminalHead hspells hcs, hletter] at hc
  obtain ⟨hword, hpart⟩ := hhead.of_letter rfl hc
  rw [← hsplit] at hword
  have hrest : ∀ d ∈ rest.head?, isNamePart d = false := by
    rw [hsplit] at hreading
    exact hreading.word_ends hgood hc hpart
  have hscan := scan_letters hcs hc (by
    rw [hsplit, List.forall_mem_cons]
    exact ⟨isNamePart_of_isNameStart hc, hpart⟩) hrest
  rw [hscan, wordOutcome_of_le hlength, ← hword]

end

/-- A text that is read as a symbol opens no comment. -/
theorem Reading.opens_no_comment {s : OpSymbol}
    (h : Reading False (s.chars ++ rest) s.chars (.symbol s)) (hcs : s.chars ++ rest = '/' :: cs) :
    cs.head? ≠ some '/' ∧ cs.head? ≠ some '*' := by
  have hne := symbol_chars_ne_comment s
  rcases hchars : s.chars with - | ⟨d, - | ⟨e, more⟩⟩
  · exact absurd hchars (by cases s <;> exact List.cons_ne_nil _ _)
  · rw [hchars] at hcs
    obtain ⟨rfl, rfl⟩ := List.cons_eq_cons.1 hcs
    rw [hchars] at h
    exact h.slash_ends rfl
  -- The second character is of the symbol.
  · rw [hchars] at hcs
    obtain ⟨rfl, rfl⟩ := List.cons_eq_cons.1 hcs
    constructor <;> intro hd <;> cases hd
    · exact (hne more).1 hchars
    · exact (hne more).2 hchars

end

/-- A token within the limits is scanned from a text that is to be read as it. -/
theorem scan_reading [Build] {t : Token} (h : t.Writable) {c : Char} {cs rest : List Char}
    (hcs : t.text.toList ++ rest = c :: cs)
    (hreading : Reading False (t.text.toList ++ rest) t.text.toList t) :
    scan c cs = ⟨t.text.toList, rest, .ok t⟩ := by
  have hspells := h.spells
  have hkind := headKind_eq_terminalHead hspells hcs
  have hc := headKind_spec c
  rw [hkind] at hc
  cases t with
  | keyword k =>
    exact scan_word hspells hcs hreading rfl h.isError (Limit.length_keyword_le k)
  | identifier name => exact scan_word hspells hcs hreading rfl h.isError h.2
  | string text =>
    have hsplit := toList_text_eq_cons hspells hcs
    change c = '"' at hc
    subst hc
    obtain ⟨-, body, htail, hbody⟩ := (hsplit ▸ hspells : Spells ('"' :: _) _).of_quote rfl
    rw [htail] at hsplit
    have hsize : byteSize ('"' :: (body ++ ['"'])) ≤ Limit.stringBytes := by
      rw [← utf8ByteSize_ofList, ← hsplit]
      simpa [Token.text] using h.2
    have hrest : cs = body ++ '"' :: rest := by
      rw [hsplit] at hcs
      simpa using (List.cons_eq_cons.1 hcs).2.symm
    rw [hrest, scan_string hbody hsize, ← hsplit]
    simp [Token.text]
  | integer | real => exact scan_unbroken hspells hcs hreading fun f => isBreach_scan (.inl hc)
  | symbol s =>
    refine scan_unbroken hspells hcs hreading fun f => isBreach_scan (.inr ⟨hkind, ?_⟩)
    rintro rfl
    rw [toList_text_symbol] at hreading hcs
    exact hreading.opens_no_comment hcs
  | _ => exact h.elim

/-! ## One step of the lexer, and the run -/

section

variable [Build] {p : LexicalPreferences} {place : Position} {counted : Nat}
  {tokens : Array SpannedToken}
  {reports : Array LexReport} {rest : List Char}

theorem tokenizeFrom_of_scan {c : Char} {cs taken : List Char} {t : Token}
    (hcount : counted < Limit.tokens) (h : scan c cs = ⟨taken, rest, .ok t⟩) :
    tokenizeFrom p (c :: cs) place counted tokens reports =
      tokenizeFrom p rest (place.advanceAll taken)
        (if LexMetrics.counts p t then counted + 1 else counted)
        (tokens.push ⟨t, ⟨place, place.advanceAll taken⟩⟩) reports := by
  rw [tokenizeFrom.eq_def]
  dsimp only
  rw [if_neg (by omega), h]

theorem tokenizeFrom_reading {t : Token} (h : t.Writable) (hcount : counted < Limit.tokens)
    (hreading : Reading False (t.text.toList ++ rest) t.text.toList t) :
    tokenizeFrom p (t.text.toList ++ rest) place counted tokens reports =
      tokenizeFrom p rest (place.advanceAll t.text.toList) (counted + 1)
        (tokens.push ⟨t, ⟨place, place.advanceAll t.text.toList⟩⟩) reports := by
  obtain ⟨c, cs, hc⟩ := h.spells.exists_cons
  have hcs : t.text.toList ++ rest = c :: (cs ++ rest) := by rw [hc]; rfl
  have hscan := scan_reading h hcs hreading
  rw [hcs, tokenizeFrom_of_scan hcount hscan, if_pos (h.counts p)]

theorem tokenizeFrom_writable {t : Token} (h : t.Writable) (hcount : counted < Limit.tokens)
    (hstop : ∀ d ∈ rest.head?, Stops d t) :
    tokenizeFrom p (t.text.toList ++ rest) place counted tokens reports =
      tokenizeFrom p rest (place.advanceAll t.text.toList) (counted + 1)
        (tokens.push ⟨t, ⟨place, place.advanceAll t.text.toList⟩⟩) reports :=
  tokenizeFrom_reading h hcount (reading_of_stops h.spells hstop)

/-- Blanks are read as one piece, and do not count. -/
theorem tokenizeFrom_gaps {g : List Char} (hne : g ≠ []) (hg : ∀ c ∈ g, isGap c = true)
    (hcount : counted < Limit.tokens) (hstop : ∀ d ∈ rest.head?, isGap d = false) :
    tokenizeFrom p (g ++ rest) place counted tokens reports =
      tokenizeFrom p rest (place.advanceAll g) counted
        (tokens.push ⟨.whitespace (String.ofList g), ⟨place, place.advanceAll g⟩⟩) reports := by
  obtain ⟨c, g, rfl⟩ := List.exists_cons_of_ne_nil hne
  have htake : (c :: g ++ rest).takeWhile isGap = c :: g := by
    rw [List.takeWhile_append_of_pos hg]
    cases rest with
    | nil => simp
    | cons d rest => simp [hstop d rfl]
  have hdrop : (c :: g ++ rest).dropWhile isGap = rest := by
    rw [List.dropWhile_append_of_pos hg]
    cases rest with
    | nil => rfl
    | cons d rest => simp [hstop d rfl]
  have hscan : scan c (g ++ rest) = ⟨c :: g, rest, .ok (.whitespace (String.ofList (c :: g)))⟩ := by
    unfold scan
    rw [if_pos (hg c List.mem_cons_self), ← List.cons_append]
    unfold scanWhile
    rw [htake, hdrop]
  exact tokenizeFrom_of_scan hcount hscan

theorem tokenizeFrom_blank (hcount : counted < Limit.tokens)
    (hstop : ∀ d ∈ rest.head?, isGap d = false) :
    tokenizeFrom p (' ' :: rest) place counted tokens reports =
      tokenizeFrom p rest (place.advanceAll [' ']) counted
        (tokens.push ⟨.whitespace " ", ⟨place, place.advanceAll [' ']⟩⟩) reports :=
  tokenizeFrom_gaps (g := [' ']) (by simp) (List.forall_mem_singleton.2 (by decide)) hcount hstop

/-- A blank goes on with no word that a token is written as. -/
theorem stops_blank {t : Token} (h : t.Writable) : Stops ' ' t := by
  cases t with
  | keyword | identifier => exact (by decide : isNamePart ' ' = false)
  | symbol | string => simp [Stops]
  | integer | real => exact (by decide : ' '.isDigit = false ∧ ' ' ≠ '.')
  | _ => exact h.elim

theorem isGap_head_writable {t : Token} (h : t.Writable) :
    ∀ d ∈ (t.text.toList ++ rest).head?, isGap d = false := by
  obtain ⟨c, cs, hc⟩ := h.spells.exists_cons
  rw [hc]
  rintro _ ⟨⟩
  have hkind := (hc ▸ h.spells).terminalHead_eq
  cases hgap : isGap c with
  | false => rfl
  | true =>
    rw [headKind_of_isGap hgap] at hkind
    cases t <;> first | exact h.elim | cases hkind

end

/-- The texts of some tokens, with a blank between each two of them. -/
def spaced (ts : List Token) : List Char := [' '].intercalate (ts.map (·.text.toList))

theorem spaced_cons_cons (t u : Token) (ts : List Token) :
    spaced (t :: u :: ts) = t.text.toList ++ ' ' :: spaced (u :: ts) := by
  simp only [spaced, List.map_cons, List.intercalate_cons_cons, List.append_assoc,
    List.singleton_append]

theorem exists_spaced_cons (t : Token) (ts : List Token) :
    ∃ rest, spaced (t :: ts) = t.text.toList ++ rest := by
  cases ts with
  | nil => exact ⟨[], by simp [spaced, List.intercalate_singleton]⟩
  | cons u ts => exact ⟨_, spaced_cons_cons t u ts⟩

/-- By induction on the tokens, with as many left as may still be counted. -/
theorem tokenizeFrom_spaced [Build] (p : LexicalPreferences) {ts : List Token}
    (h : ∀ t ∈ ts, t.Writable) (place : Position) (counted : Nat)
    (hcount : counted + ts.length ≤ Limit.tokens) (tokens : Array SpannedToken)
    (reports : Array LexReport) :
    (tokenizeFrom p (spaced ts) place counted tokens reports).tokens.toList.map (·.value) =
        tokens.toList.map (·.value) ++ (ts.intersperse (.whitespace " ") ++ [.eof]) ∧
      (tokenizeFrom p (spaced ts) place counted tokens reports).reports = reports := by
  induction ts generalizing place counted tokens with
  | nil =>
    have hempty : spaced [] = [] := rfl
    rw [hempty, tokenizeFrom.eq_def]
    simp
  | cons t ts ih =>
    rw [List.forall_mem_cons] at h
    rw [List.length_cons] at hcount
    have hroom : counted < Limit.tokens := by omega
    cases ts with
    | nil =>
      have hlast : spaced [t] = t.text.toList ++ [] := by
        simp [spaced, List.intercalate_singleton]
      have hdone := ih h.2 (place.advanceAll t.text.toList) (counted + 1) (by simpa using hcount)
        (tokens.push ⟨t, ⟨place, place.advanceAll t.text.toList⟩⟩)
      rw [hlast, tokenizeFrom_writable h.1 hroom (by simp)]
      refine ⟨hdone.1.trans ?_, hdone.2⟩
      simp
    | cons u ts =>
      obtain ⟨hu, -⟩ := List.forall_mem_cons.1 h.2
      obtain ⟨rest, hrest⟩ := exists_spaced_cons u ts
      have hnext : ∀ d ∈ (spaced (u :: ts)).head?, isGap d = false := by
        rw [hrest]
        exact isGap_head_writable hu
      have hroom' : counted + 1 < Limit.tokens := by
        rw [List.length_cons] at hcount
        omega
      rw [spaced_cons_cons, tokenizeFrom_writable h.1 hroom (by rintro _ ⟨⟩; exact stops_blank h.1),
        tokenizeFrom_blank hroom' hnext]
      obtain ⟨hvalues, hreports⟩ := ih h.2
        ((place.advanceAll t.text.toList).advanceAll [' ']) (counted + 1)
        (by rw [List.length_cons] at hcount ⊢; omega)
        ((tokens.push ⟨t, ⟨place, place.advanceAll t.text.toList⟩⟩).push
          ⟨.whitespace " ", ⟨place.advanceAll t.text.toList,
            (place.advanceAll t.text.toList).advanceAll [' ']⟩⟩)
      refine ⟨hvalues.trans ?_, hreports⟩
      simp [List.intersperse_cons_cons]

/-- Writing tokens and lexing what is written gives the tokens back. Take tokens that the parser sees,
other than the end, each with a text that its terminal allows and the limits permit: a name that is no
reserved word, a number, a string. Their texts are joined with a blank between each two of them. Where
neither the size of this source nor the number of the tokens exceeds its limit, the source has just
these tokens, with a blank between each two of them and the end behind them, and nothing is reported
of it. -/
theorem tokenize_spaced [Build] (p : LexicalPreferences) (ts : List Token)
    (h : ∀ t ∈ ts, t.Writable)
    (hsize : (" ".intercalate (ts.map (·.text))).utf8ByteSize ≤ Limit.sourceBytes)
    (hcount : ts.length ≤ Limit.tokens) :
    let source := " ".intercalate (ts.map (·.text))
    (tokenize p source).tokens.toList.map (·.value) = ts.intersperse (.whitespace " ") ++ [.eof] ∧
      (tokenize p source).reports = #[] ∧ TokenizedSource.heard p source = [] := by
  intro source
  have hsource : source.toList = spaced ts := by
    simp [source, spaced, String.toList_intercalate, Function.comp_def]
  have hrun : tokenize p source = tokenizeFrom p (spaced ts) .start 0 #[] #[] := by
    unfold tokenize
    rw [← hsource]
    exact if_neg (Nat.not_lt.2 hsize)
  obtain ⟨hvalues, hreports⟩ := tokenizeFrom_spaced p h .start 0 (by omega) #[] #[]
  rw [← hrun] at hvalues hreports
  refine ⟨by simpa using hvalues, hreports, ?_⟩
  rw [TokenizedSource.heard, TokenizedSource.reported_report, Reporter.reported_fresh, hreports]
  rfl

/-- An equals sign behind another, a slash before a star, a number before another with a point, a string
with an escaped quote and a comment's mark, and a reserved word before a name that begins with it. -/
theorem tokenize_spaced_adjacent :
    let ts : List Token := [.symbol .assign, .symbol .equals, .symbol .divide, .symbol .multiply,
      .integer "1", .real "2.5", .string "\"\\\"//\"", .keyword .if, .identifier "if_"]
    (∀ t ∈ ts, t.Writable) ∧
      (tokenize {} (" ".intercalate (ts.map (·.text)))).tokens.toList.map (·.value) =
        ts.intersperse (.whitespace " ") ++ [.eof] := by
  intro ts
  have hinteger : Spells ['1'] (.integer "1") :=
    .integer (by decide) (List.all_eq_true.1 (by decide))
  have hreal : Spells ['2', '.', '5'] (.real "2.5") :=
    @Spells.real ['2'] ['5'] (by decide) (by decide) (List.all_eq_true.1 (by decide))
      (List.all_eq_true.1 (by decide))
  have hbody : StringBody ['\\', '"', '/', '/'] :=
    .escape (by decide) (by decide) (.plain (by decide) (by decide) (by decide) (by decide)
      (.plain (by decide) (by decide) (by decide) (by decide) .nil))
  have hname : Spells ['i', 'f', '_'] (.identifier "if_") :=
    .identifier (by decide) (by simp) fun k => by cases k <;> decide
  have hts : ∀ t ∈ ts, t.Writable := by
    simp only [ts, List.forall_mem_cons]
    exact ⟨trivial, trivial, trivial, trivial, hinteger, hreal, ⟨.string hbody, by decide⟩, trivial,
      ⟨hname, by decide⟩, by simp⟩
  exact ⟨hts, (tokenize_spaced {} ts hts (by decide +kernel) (by decide)).1⟩

end Lexing

end EvlCheck
