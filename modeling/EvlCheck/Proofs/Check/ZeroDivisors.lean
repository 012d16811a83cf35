/-
Divisions by zero in the tokens of a line. Validation looks in the text of a value for a slash with a zero
behind it. In normal form the text is words with blanks between them, so what it finds are slashes among
the tokens, or in strings (`dividesByZero_words`). It takes for a zero each number that begins with one,
unless a point is next (`Token.beginsZero`), and since it reads the value alone, it does not see the slash
of an operator that assigns.
-/
import EvlCheck.Proofs.Check.LaidOut
import EvlCheck.Proofs.Check.StatementText

namespace EvlCheck

open Text Check Lexing

/-! ## What is divided by -/

namespace Token

/-- The number zero, without a fraction. -/
def isZero : Token → Bool
  | .integer text => text.toList.all (· == '0')
  | _ => false

/-- A number that begins with a zero, without a point behind that. -/
def beginsZero : Token → Bool
  | .integer text | .real text => text.toList.head? == some '0' && text.toList[1]? != some '.'
  | _ => false

end Token

/-- The tokens right behind those of a symbol. -/
def tokensBehind (s : OpSymbol) (ts : List Token) : List Token :=
  ((ts.zip ts.tail).filter (·.1 = .symbol s)).map (·.2)

theorem tokensBehind_singleton (s : OpSymbol) (t : Token) : tokensBehind s [t] = [] := rfl

theorem tokensBehind_cons (s : OpSymbol) (t u : Token) (ts : List Token) :
    tokensBehind s (t :: u :: ts) = if t = .symbol s then u :: tokensBehind s (u :: ts)
      else tokensBehind s (u :: ts) := by
  unfold tokensBehind
  rw [List.tail_cons, List.zip_cons_cons, List.filter_cons]
  split <;> simp_all

/-! ## A slash in a text -/

namespace Check

/-- Blanks, and a zero that no point is behind. -/
def zeroFollows (cs : List Char) : Bool :=
  match afterBlanks? '0' cs with
  | none => false
  | some behind => behind.head? != some '.'

variable {w g rest tail body : List Char} {t u : Token} {ts : List Token}

theorem dividesByZero_slash (cs : List Char) :
    dividesByZero ('/' :: cs) = (zeroFollows cs || dividesByZero cs) := rfl

theorem dividesByZero_cons {c : Char} (h : c ≠ '/') (cs : List Char) :
    dividesByZero (c :: cs) = dividesByZero cs := by
  have hc : (c == '/') = false := by simpa using h
  rw [dividesByZero, hc, Bool.false_and, Bool.false_or]

theorem dividesByZero_append_of_not_mem (h : '/' ∉ w) (rest : List Char) :
    dividesByZero (w ++ rest) = dividesByZero rest := by
  induction w with
  | nil => rfl
  | cons c w ih =>
    rw [List.mem_cons, not_or] at h
    rw [List.cons_append, dividesByZero_cons (Ne.symm h.1), ih h.2]

/-- What a quote ends is seen without the text behind. -/
theorem zeroFollows_quote (cs rest : List Char) :
    zeroFollows (cs ++ '"' :: rest) = zeroFollows (cs ++ ['"']) := by
  induction cs with
  | nil => rfl
  | cons c cs ih =>
    unfold zeroFollows at ih ⊢
    rw [List.cons_append, List.cons_append]
    by_cases hblank : isBlank c = true
    · rw [afterBlanks?_of_isBlank hblank, afterBlanks?_of_isBlank hblank]
      exact ih
    · rw [Bool.not_eq_true] at hblank
      rw [afterBlanks?_cons hblank, afterBlanks?_cons hblank]
      by_cases hzero : c = '0'
      · rw [if_pos hzero, if_pos hzero]
        cases cs <;> rfl
      · rw [if_neg hzero, if_neg hzero]

theorem dividesByZero_quote (cs rest : List Char) :
    dividesByZero (cs ++ '"' :: rest) = (dividesByZero (cs ++ ['"']) || dividesByZero rest) := by
  induction cs with
  | nil => rfl
  | cons c cs ih =>
    rw [List.cons_append, List.cons_append]
    by_cases hslash : c = '/'
    · subst hslash
      rw [dividesByZero_slash, dividesByZero_slash, zeroFollows_quote, ih, Bool.or_assoc]
    · rw [dividesByZero_cons hslash, dividesByZero_cons hslash, ih]

/-! ## A slash among words -/

/-- No word begins with a point. -/
theorem head?_ne_point (h : Spells w t) (rest : List Char) : (w ++ rest).head? ≠ some '.' := by
  cases h with
  | whitespace nonempty blank =>
    obtain ⟨c, w, rfl⟩ := List.exists_cons_of_ne_nil nonempty
    rintro heq
    cases heq
    simpa using blank '.' List.mem_cons_self
  | integer nonempty digits =>
    obtain ⟨c, w, rfl⟩ := List.exists_cons_of_ne_nil nonempty
    rintro heq
    cases heq
    exact absurd (digits '.' List.mem_cons_self) (by decide)
  | @real whole part whole_ne part_ne whole_digits part_digits =>
    obtain ⟨c, whole, rfl⟩ := List.exists_cons_of_ne_nil whole_ne
    rintro heq
    cases heq
    exact absurd (whole_digits '.' List.mem_cons_self) (by decide)
  | symbol s => cases s <;> simp [OpSymbol.chars]
  | keyword k =>
    obtain ⟨c, w, hk, hc, -⟩ := keyword_text_shape k
    rw [hk]
    rintro heq
    cases heq
    exact absurd hc (by decide)
  | identifier start =>
    rintro heq
    cases heq
    exact absurd start (by decide)
  | _ => simp

theorem zeroFollows_other {c : Char} (hblank : isBlank c = false) (hzero : c ≠ '0') (cs : List Char) :
    zeroFollows (c :: cs) = false := by
  unfold zeroFollows
  rw [afterBlanks?_cons hblank, if_neg hzero]

theorem zeroFollows_digit {d : Char} (hd : d.isDigit = true) (hrest : rest.head? ≠ some '.') :
    zeroFollows (d :: w ++ rest) = ((d :: w).head? == some '0' && (d :: w)[1]? != some '.') := by
  have hword : isWord d = true := isWord_of_isNamePart (by simp [isNamePart, Char.isAlphanum, hd])
  have hsecond : ((w ++ rest).head? != some '.') = ((d :: w)[1]? != some '.') := by
    cases w with
    | nil => exact bne_iff_ne.2 hrest
    | cons e w => rfl
  unfold zeroFollows
  rw [List.cons_append, afterBlanks?_cons (isBlank_of_isWord hword), List.head?_cons]
  by_cases hzero : d = '0'
  · rw [if_pos hzero, hzero]
    simpa using hsecond
  · rw [if_neg hzero]
    simp [hzero]

/-- A zero is at the beginning of a word if the word is a number that begins with it. -/
theorem zeroFollows_word (h : Spells w t) (hseen : t.isSignificant = true)
    (hrest : rest.head? ≠ some '.') : zeroFollows (w ++ rest) = t.beginsZero := by
  cases h with
  | integer nonempty digits =>
    obtain ⟨d, w, rfl⟩ := List.exists_cons_of_ne_nil nonempty
    rw [zeroFollows_digit (digits d List.mem_cons_self) hrest, Token.beginsZero, String.toList_ofList]
  | @real whole part whole_ne part_ne whole_digits part_digits =>
    obtain ⟨d, whole, rfl⟩ := List.exists_cons_of_ne_nil whole_ne
    rw [List.cons_append, zeroFollows_digit (whole_digits d List.mem_cons_self) hrest, Token.beginsZero,
      String.toList_ofList]
  | symbol s => cases s <;> exact zeroFollows_other (by decide) (by decide) _
  | string => exact zeroFollows_other (by decide) (by decide) _
  | keyword k =>
    obtain ⟨c, w, hk, hc, -⟩ := keyword_text_shape k
    have hzero : c ≠ '0' := by
      rintro rfl
      exact absurd hc (by decide)
    rw [hk]
    exact zeroFollows_other (isBlank_of_isWord (isWord_of_isNamePart (isNamePart_of_isNameStart hc))) hzero _
  | @identifier c w start more free =>
    have hc : isNameStart c = true := by simpa [isNameStart] using start
    have hzero : c ≠ '0' := by
      rintro rfl
      exact absurd hc (by decide)
    exact zeroFollows_other (isBlank_of_isWord (isWord_of_isNamePart (isNamePart_of_isNameStart hc))) hzero _
  | whitespace | lineComment | blockComment => cases hseen

/-- Of the words only a slash, or a string, has a slash with a zero behind it. -/
theorem dividesByZero_word (h : Spells w t) (hseen : t.isSignificant = true)
    (hstring : ∀ text, t = .string text → dividesByZero text.toList = false) (rest : List Char) :
    dividesByZero (w ++ rest) =
      ((decide (t = .symbol .divide) && zeroFollows rest) || dividesByZero rest) := by
  have hother : '/' ∉ w → t ≠ .symbol .divide → dividesByZero (w ++ rest) =
      ((decide (t = .symbol .divide) && zeroFollows rest) || dividesByZero rest) := by
    intro hslash ht
    rw [dividesByZero_append_of_not_mem hslash, decide_eq_false ht, Bool.false_and, Bool.false_or]
  cases h with
  | symbol s =>
    cases s with
    | divide => rfl
    | divideAssign => rfl
    | _ => exact hother (by decide) (by decide)
  | @string inner inside =>
    have hinner := hstring _ rfl
    rw [String.toList_ofList] at hinner
    have hquote := dividesByZero_quote ('"' :: inner) rest
    rw [List.cons_append, List.cons_append, hinner, Bool.false_or] at hquote
    simpa using hquote
  | integer nonempty digits =>
    exact hother (fun hmem => absurd (digits _ hmem) (by decide)) nofun
  | real whole_ne part_ne whole_digits part_digits =>
    refine hother (fun hmem => ?_) nofun
    rcases List.mem_append.1 hmem with hmem | hmem
    · exact absurd (whole_digits _ hmem) (by decide)
    · rcases List.mem_cons.1 hmem with hpoint | hmem
      · exact absurd hpoint (by decide)
      · exact absurd (part_digits _ hmem) (by decide)
  | keyword k => exact hother (fun hmem => absurd (isWord_keyword k _ hmem) (by decide)) nofun
  | identifier start more free =>
    refine hother (fun hmem => ?_) nofun
    rcases List.mem_cons.1 hmem with hfirst | hmem
    · subst hfirst
      exact absurd start (by decide)
    · exact absurd (more _ hmem) (by decide)
  | whitespace | lineComment | blockComment => cases hseen

theorem zeroFollows_words (h : Words tail body (t :: ts)) : zeroFollows body = t.beginsZero := by
  cases h with
  | last seen reading =>
    have hword := @zeroFollows_word _ [] _ (reading.spells (isError_of_isSignificant seen)) seen nofun
    rwa [List.append_nil] at hword
  | @more w g rest t ts seen reading gap next =>
    refine zeroFollows_word (reading.spells (isError_of_isSignificant seen)) seen ?_
    cases g with
    | nil =>
      cases next with
      | last seen' reading' =>
        have hhead := head?_ne_point (reading'.spells (isError_of_isSignificant seen')) []
        rwa [List.append_nil] at hhead
      | more seen' reading' gap' next' =>
        exact head?_ne_point (reading'.spells (isError_of_isSignificant seen')) _
    | cons c g =>
      rintro heq
      cases heq
      exact absurd (gap _ List.mem_cons_self) (by decide)

/-- In words whose strings do not divide, a division by zero is a slash right before a number that
begins with a zero. -/
theorem dividesByZero_words (h : Words tail body ts)
    (hstring : ∀ text, .string text ∈ ts → dividesByZero text.toList = false) :
    dividesByZero body = (tokensBehind .divide ts).any (·.beginsZero) := by
  induction h with
  | @last w t seen reading =>
    have hword := dividesByZero_word (reading.spells (isError_of_isSignificant seen)) seen
      (fun text ht => hstring text (ht ▸ List.mem_singleton_self _)) []
    rw [List.append_nil] at hword
    rw [hword, tokensBehind_singleton]
    exact (Bool.or_false _).trans (Bool.and_false _)
  | @more w g rest t ts seen reading gap next ih =>
    have hgap : dividesByZero (g ++ rest) = dividesByZero rest :=
      dividesByZero_append_of_not_mem (not_mem_gap gap (by decide)) rest
    obtain ⟨u, us, rfl⟩ : ∃ u us, ts = u :: us := by
      cases next <;> exact ⟨_, _, rfl⟩
    have hzero : zeroFollows (g ++ rest) = u.beginsZero := by
      unfold zeroFollows
      rw [afterBlanks?_blanks_append (isBlank_of_gap gap)]
      exact zeroFollows_words next
    rw [dividesByZero_word (reading.spells (isError_of_isSignificant seen)) seen
      (fun text ht => hstring text (ht ▸ List.mem_cons_self)), hgap, hzero,
      ih fun text ht => hstring text (List.mem_cons_of_mem _ ht), tokensBehind_cons]
    by_cases hslash : t = .symbol .divide
    · rw [decide_eq_true hslash, if_pos hslash, Bool.true_and, List.any_cons]
    · rw [decide_eq_false hslash, if_neg hslash, Bool.false_and, Bool.false_or]

end Check

/-! ## Statements that assign -/

/-- The value that a declaration or an assignment gives. -/
def Stmt.assigned? : Stmt → Option Expr
  | .varDecl d | .constDecl d _ => some d.value
  | .assignment _ _ e _ => some e
  | _ => none

/-- No slash stands in front of the value. -/
theorem Stmt.tokensBehind_divide {s : Stmt} {e : Expr} (h : s.assigned? = some e) :
    tokensBehind .divide s.terminals = tokensBehind .divide e.terminals := by
  obtain ⟨t, ts, hts, -⟩ := e.exists_terminals
  cases s with
  | varDecl d =>
    cases h
    rw [Stmt.terminals, VarDecl.terminals, hts]
    simp [tokensBehind_cons]
  | constDecl d span =>
    cases h
    rw [Stmt.terminals, VarDecl.terminals, hts]
    simp [tokensBehind_cons]
  | assignment target op e' span =>
    cases h
    rw [Stmt.terminals, hts]
    cases op <;> simp [tokensBehind_cons, AssignOp.symbol]
  | _ => cases h

theorem Stmt.mem_terminals_of_assigned? {s : Stmt} {e : Expr} (h : s.assigned? = some e) {t : Token}
    (ht : t ∈ e.terminals) : t ∈ s.terminals := by
  cases s with
  | assignment target op e' span =>
    cases h
    exact .tail _ (.tail _ ht)
  | varDecl d =>
    cases h
    exact mem_terminals_of_declared? rfl ht
  | constDecl d span =>
    cases h
    exact mem_terminals_of_declared? rfl ht
  | _ => cases h

namespace Check

/-- What is examined of such a line for a division is the text of the value. -/
theorem divides_words {s : Stmt} {e : Expr} {body : List Char} (hs : s.assigned? = some e)
    (h : Words [] body s.terminals) (hline : '\n' ∉ body) :
    (∃ value, (lineForm body).divides body = dividesByZero value ∧ Words [] value e.terminals) ∧
      TryTracker.isStructure body = false := by
  have hdeclaration : ∀ {constant : Bool} {d : VarDecl}, s.declared? = some (constant, d) → d.value = e →
      (∃ value, (lineForm body).divides body = dividesByZero value ∧ Words [] value e.terminals) ∧
        TryTracker.isStructure body = false := by
    rintro constant d hd rfl
    obtain ⟨⟨value, hfound, hvalue⟩, hstructure⟩ := declaration?_words hd h
    refine ⟨⟨value, ?_, hvalue⟩, hstructure⟩
    unfold lineForm
    rw [hfound, LineForm.divides, hvalue.tight.trim]
  cases s with
  | varDecl d => exact hdeclaration rfl (Option.some.inj hs)
  | constDecl d span => exact hdeclaration rfl (Option.some.inj hs)
  | assignment target op e' span =>
    cases hs
    obtain ⟨⟨value, hform, hvalue⟩, hstructure⟩ := lineForm_assignment_words h hline
    exact ⟨⟨value, by rw [hform, LineForm.divides], hvalue⟩, hstructure⟩
  | _ => cases hs

end Check

/-! ## Lines without a `try` -/

namespace TryTracker

theorem observe_opened_eq_none {t : TryTracker} {cs : List Char} (h : t.opened = none)
    (hline : opensTry cs = false) : (t.observe cs).1.opened = none := by
  unfold observe
  dsimp only
  rw [hline, if_neg Bool.false_ne_true]
  split
  · exact h
  · rw [h]
    rfl

/-- Only the keyword begins a line that opens a `try`. -/
theorem eq_of_opensTry {tail body : List Char} {t : Token} {ts : List Token}
    (h : Words tail body (t :: ts)) (hopens : opensTry body = true) : t = .keyword .try := by
  obtain ⟨behind, hbehind⟩ := Option.isSome_iff_exists.1 hopens
  obtain ⟨inner, hinner, hbrace⟩ := Option.bind_eq_some_iff.1 hbehind
  have hbody : "try".toList ++ inner = body := List.append_eq_of_isPrefixOf?_eq_some hinner
  obtain ⟨w, rest, rfl, seen, reading⟩ : ∃ w rest, body = w ++ rest ∧ t.isSignificant = true ∧
      Reading False (w ++ (rest ++ tail)) w t := by
    cases h with
    | last seen reading => exact ⟨_, [], (List.append_nil _).symm, seen, reading⟩
    | more seen reading gap next =>
      rw [List.append_assoc] at reading
      exact ⟨_, _, rfl, seen, reading⟩
  have hgood := isError_of_isSignificant seen
  have hspells := reading.spells hgood
  obtain ⟨c, w, rfl⟩ := hspells.exists_cons
  obtain ⟨rfl, htext⟩ := List.cons.inj
    (show 't' :: ("ry".toList ++ inner) = c :: (w ++ rest) from hbody)
  obtain ⟨htoken, hw⟩ := hspells.of_letter rfl (by decide)
  have hrest : ∀ d ∈ (rest ++ tail).head?, isNamePart d = false :=
    reading.word_ends hgood (by decide) hw
  have hbehind : ∀ d ∈ (inner ++ tail).head?, isNamePart d = false := by
    intro d hd
    obtain ⟨e, inner, rfl⟩ := List.exists_cons_of_ne_nil (List.ne_nil_of_mem (mem_of_afterBlanks? hbrace))
    cases hd
    by_contra hpart
    rw [Bool.not_eq_false] at hpart
    have hnone := (isWord_of_afterBlanks? hbrace (by decide)).1
    rw [List.takeWhile_cons_of_pos (isWord_of_isNamePart hpart)] at hnone
    cases hnone
  -- Both words of letters end where the same text goes on with something else.
  have hword : w = "ry".toList := by
    have htry : ∀ d ∈ "ry".toList, isNamePart d = true := List.all_eq_true.1 (by decide)
    have hsame : w ++ (rest ++ tail) = "ry".toList ++ (inner ++ tail) := by
      rw [← List.append_assoc, ← htext]
      rfl
    rw [← takeWhile_append_of_stop hw hrest, hsame, takeWhile_append_of_stop htry hbehind]
  rw [htoken, hword]
  rfl

end TryTracker

/-- A line of tokens without the keyword opens no `try`. -/
theorem Lexing.LineReads.opensTry {raw : List Char} {ts : List Token} (h : LineReads raw ts)
    (hslashless : ∀ t ∈ ts, t.Slashless) (htry : .keyword .try ∉ ts) :
    TryTracker.opensTry (normalizeLine raw) = false := by
  cases ts with
  | nil =>
    rw [normalizeLine_of_reads_nil h]
    rfl
  | cons t ts =>
    have hwords := words_normalizeLine h (List.cons_ne_nil t ts) hslashless
    refine Bool.eq_false_iff.2 fun hopens => htry ?_
    rw [TryTracker.eq_of_opensTry hwords hopens]
    exact List.mem_cons_self

/-- Behind lines that open no `try` nothing is protected. -/
theorem Walk.opened_eq_none {lines : List (List Char)} {w : Walk} (h : w.tracker.opened = none)
    (hlines : ∀ line ∈ lines, TryTracker.opensTry line = false) :
    (lines.foldl pass w).tracker.opened = none := by
  induction lines generalizing w with
  | nil => exact h
  | cons line lines ih =>
    rw [List.forall_mem_cons] at hlines
    refine ih ?_ hlines.2
    unfold pass
    dsimp only
    split
    · exact h
    · exact TryTracker.observe_opened_eq_none h hlines.1

namespace Script

/-- Where no line opens a `try`, a statement is told of a division if there is one on its line. -/
theorem exists_division_untried_iff [Build] {s : Script} {k : Nat} {line : List Char}
    (hline : s.lines[k]? = some line) (htry : ∀ line ∈ s.lines, TryTracker.opensTry line = false)
    (hne : line ≠ []) (hstructure : TryTracker.isStructure line = false) :
    (∃ d ∈ s.findings, d.line = k + 1 ∧ d.message = divisionMessage) ↔
      (lineForm line).divides line = true := by
  obtain ⟨hk, rfl⟩ := List.getElem?_eq_some_iff.1 hline
  have hlines : s.lines = s.lines.take k ++ s.lines[k] :: s.lines.drop (k + 1) := by simp
  have hlength : (s.lines.take k).length = k := List.length_take_of_le hk.le
  have hopened : ((s.lines.take k).foldl Walk.pass {}).tracker.opened = none :=
    Walk.opened_eq_none rfl fun line hline => htry line (List.mem_of_mem_take hline)
  have hprotects :
      (((s.lines.take k).foldl Walk.pass {}).tracker.observe s.lines[k]).1.protects = false := by
    unfold TryTracker.protects
    rw [TryTracker.observe_opened_eq_none hopened (htry _ (List.getElem_mem hk))]
    rfl
  have hfound := exists_finding_iff hlines (·.message = divisionMessage)
  have hnotes := Walk.notesOn_step s.symbols ((s.lines.take k).foldl Walk.pass {}) (1 + k) s.lines[k]
  rw [hlength, hnotes.divided, TryTracker.observe_snd, hstructure, hprotects,
    List.isEmpty_eq_false_iff.2 hne] at hfound
  simpa using hfound

end Script

namespace Check

/-- In a source without `try` and without block comments, which parses without errors, a declaration or
an assignment on a line of its own is told of a division by zero if and only if its tokens have a slash,
or one that assigns, right in front of a zero: as long as no number behind a slash begins with a zero for
nothing, none behind one that assigns is zero, and no string looks like a comment or a division. -/
theorem analyze_divisions [Build] (prefs : AnalysisPreferences) {lexical : LexicalPreferences}
    {preferences : ParserPreferences} {source : String} (hinvalid : lexical.reportInvalid = true)
    (hparse : (parse lexical preferences source).hasErrors = false)
    (htidy : ∀ n, Tidy (tokenize lexical source).tokens.toList n)
    (hslashless : ∀ t ∈ (tokenize lexical source).tokens, t.value.Slashless)
    (htry : ∀ t ∈ (tokenize lexical source).tokens, t.value ≠ .keyword .try)
    {k : Nat} {raw : List Char} (hraw : (Text.lines source.toList)[k]? = some raw)
    (hlength : raw.length ≤ Limit.lineChars) {s : Stmt}
    (hline : visibleOn (tokenize lexical source).tokens.toList (k + 1) = s.terminals)
    (hassigned : s.assigned?.isSome = true)
    (hstring : ∀ text, .string text ∈ s.terminals → dividesByZero text.toList = false)
    (hplain : ∀ t ∈ tokensBehind .divide s.terminals, t.beginsZero = t.isZero)
    (hoperator : ∀ t ∈ tokensBehind .divideAssign s.terminals, t.isZero = false)
    (hroom : (analyze prefs source).1.length < Limit.semanticDiagnostics) :
    (∃ d ∈ (analyze prefs source).1, d.line = k + 1 ∧ d.message = divisionMessage) ↔
      ∃ t ∈ tokensBehind .divide s.terminals ++ tokensBehind .divideAssign s.terminals,
        t.isZero = true := by
  obtain ⟨e, hassigned⟩ := Option.isSome_iff_exists.1 hassigned
  obtain ⟨hlimit, hgood⟩ := faultless_of_heard hinvalid (heard_eq_nil hparse)
  have hcut := cut_of_not_limited hlimit
  -- What stands on a line is among the tokens.
  have hmem : ∀ {n t}, t ∈ visibleOn (tokenize lexical source).tokens.toList n →
      t.Slashless ∧ t ≠ .keyword .try := by
    intro n t ht
    obtain ⟨u, hu, rfl⟩ := List.mem_map.1 ht
    have hu := Array.mem_toList_iff.1 (List.mem_of_mem_filter (List.mem_of_mem_filter hu))
    exact ⟨hslashless u hu, htry u hu⟩
  have huntried : ∀ line ∈ (Script.ofSource source.toList).lines, TryTracker.opensTry line = false := by
    intro line hline
    obtain ⟨n, hn⟩ := List.getElem?_of_mem hline
    by_cases hne : line = []
    · rw [hne]
      rfl
    · obtain ⟨raw, hraw, -, rfl⟩ := Script.getElem?_ofSource hn hne
      exact (hcut.lineReads_of_tidy hgood hraw (htidy _)).opensTry (fun t ht => (hmem ht).1)
        fun ht => (hmem ht).2 rfl
  -- The line in normal form is the words of the statement.
  have hreads := hcut.lineReads_of_tidy hgood hraw (htidy _)
  have hwords := words_normalizeLine hreads (hline ▸ s.terminals_ne_nil) fun t ht => (hmem ht).1
  rw [hline] at hwords
  have hfeed : '\n' ∉ normalizeLine raw := fun hmem =>
    not_mem_of_mem_splitOn (show raw ∈ Text.lines source.toList from List.mem_of_getElem? hraw)
      ((normalizeLine_isInfix raw).subset hmem)
  obtain ⟨⟨value, hdivides, hvalue⟩, hstructure⟩ := divides_words hassigned hwords hfeed
  have hplace : (Script.ofSource source.toList).lines[k]? = some (normalizeLine raw) := by
    unfold Script.ofSource
    rw [List.getElem?_map, hraw, Option.map_some, if_neg (by omega)]
  have hall : (analyze prefs source).1 = (Script.ofSource source.toList).findings := by
    rw [analyze_eq_take] at hroom ⊢
    rw [List.length_take] at hroom
    exact List.take_of_length_le (by omega)
  have htold := Script.exists_division_untried_iff hplace huntried hwords.tight.nonempty hstructure
  rw [hall, htold, hdivides, dividesByZero_words hvalue fun text ht =>
    hstring text (Stmt.mem_terminals_of_assigned? hassigned ht), ← Stmt.tokensBehind_divide hassigned,
    List.any_eq_true]
  constructor
  · rintro ⟨t, ht, hzero⟩
    exact ⟨t, List.mem_append_left _ ht, hplain t ht ▸ hzero⟩
  · rintro ⟨t, ht, hzero⟩
    rcases List.mem_append.1 ht with ht | ht
    · exact ⟨t, ht, (hplain t ht).trans hzero⟩
    · rw [hoperator t ht] at hzero
      cases hzero

/-- A division by zero, written with two digits, next to one by a decimal. -/
theorem analyze_divisions_digits :
    let source := "int x = 1\nx = x / 0.5 + 1 / 00"
    let tokens := (tokenize {} source).tokens
    let raw := "x = x / 0.5 + 1 / 00".toList
    let sum : Expr := .binary .add .dummy (.binary .divide .dummy (.name "x" .dummy) (.real "0.5" .dummy) .dummy)
      (.binary .divide .dummy (.integer "1" .dummy) (.integer "00" .dummy) .dummy) .dummy
    let s : Stmt := .assignment "x" .assign sum .dummy
    (parse {} {} source).hasErrors = false ∧ (∀ n, Tidy tokens.toList n) ∧
      (∀ t ∈ tokens, t.value.Slashless) ∧ (∀ t ∈ tokens, t.value ≠ .keyword .try) ∧
      (Text.lines source.toList)[1]? = some raw ∧ raw.length ≤ Limit.lineChars ∧
      visibleOn tokens.toList 2 = s.terminals ∧ s.assigned?.isSome = true ∧
      (∀ text, .string text ∈ s.terminals → dividesByZero text.toList = false) ∧
      (∀ t ∈ tokensBehind .divide s.terminals, t.beginsZero = t.isZero) ∧
      (∀ t ∈ tokensBehind .divideAssign s.terminals, t.isZero = false) ∧
      (analyze {} source).1.length < Limit.semanticDiagnostics ∧
      ∃ d ∈ (analyze {} source).1, d.line = 2 ∧ d.message = divisionMessage := by
  intro source tokens raw sum s
  have hspelt : source.toList = _ := String.toList_ofList
  have hspelt' : raw = _ := String.toList_ofList
  have hparse : (parse {} {} source).hasErrors = false := by
    rw [parse, parseState, Parser.ofSource, tokenize, hspelt]
    decide +kernel
  have htokens : (∀ t ∈ tokens.toList, t.value.isTrivia = true → isWhitespace t.value = true) ∧
      (∀ t ∈ tokens, t.value.Slashless) ∧ (∀ t ∈ tokens, t.value ≠ .keyword .try) ∧
      visibleOn tokens.toList 2 = s.terminals := by
    simp only [tokens]
    rw [tokenize, hspelt]
    decide +kernel
  obtain ⟨hblank, hslashless, htry, hline⟩ := htokens
  have htidy : ∀ n, Tidy tokens.toList n := fun n => tidy_of_forall n hblank
  have hraw : (Text.lines source.toList)[1]? = some raw := by
    rw [hspelt, hspelt']
    decide +kernel
  have hlength : raw.length ≤ Limit.lineChars := by
    rw [hspelt']
    decide
  have hstring : ∀ text, .string text ∈ s.terminals → dividesByZero text.toList = false := by
    have hnone : ∀ t ∈ s.terminals, t.terminal ≠ "STRING" := by decide +kernel
    exact fun text ht => absurd rfl (hnone _ ht)
  have hplain : ∀ t ∈ tokensBehind .divide s.terminals, t.beginsZero = t.isZero := by decide +kernel
  have hoperator : ∀ t ∈ tokensBehind .divideAssign s.terminals, t.isZero = false := by decide +kernel
  have hroom : (analyze {} source).1.length < Limit.semanticDiagnostics := by
    rw [analyze_eq_take, hspelt]
    decide +kernel
  refine ⟨hparse, htidy, hslashless, htry, hraw, hlength, hline, rfl, hstring, hplain, hoperator, hroom, ?_⟩
  exact (analyze_divisions {} rfl hparse htidy hslashless htry hraw hlength hline rfl hstring hplain
    hoperator hroom).2 ⟨.integer "00", by decide +kernel, rfl⟩

/-- An assignment that divides by zero itself is not told of it, and one that divides by five is told, if
the five is written with a zero in front. -/
theorem analyze_divisions_assign :
    let source := "int x = 1\nx /= 0\nx = 1 / 05"
    let tokens := (tokenize {} source).tokens.toList
    let divides : Stmt := .assignment "x" .divide (.integer "0" .dummy) .dummy
    let divided : Stmt := .assignment "x" .assign
      (.binary .divide .dummy (.integer "1" .dummy) (.integer "05" .dummy) .dummy) .dummy
    (parse {} {} source).hasErrors = false ∧ (∀ t ∈ tokens, t.value ≠ .keyword .try) ∧
      visibleOn tokens 2 = divides.terminals ∧ visibleOn tokens 3 = divided.terminals ∧
      tokensBehind .divideAssign divides.terminals = [.integer "0"] ∧
      tokensBehind .divide divided.terminals = [.integer "05"] ∧
      (analyze {} source).1 = [.error 3 divisionMessage] := by
  decide +kernel

end Check

end EvlCheck
