/-
The calls that are found in the text of an expression. The search knows no grammar: it goes from word to
word, counts parentheses, and splits at commas. On the text of an expression that was read it finds the
calls of the tree in the order of their names, with the slices of their arguments (`calls_expression`).

A text is put together from the texts of its tokens and the gaps between them. So it is enough to say what
each of the three passes does on one part in front of any other text: the search for names
(`allCalls_uncalled`, `allCalls_call`), the count of parentheses (`Closed`) and the split (`Crossed`).
-/
import EvlCheck.Proofs.Lexing.Row

namespace EvlCheck

open Text Check

/-! ## All calls of a text -/

namespace Check

/-- The calls that words make, each with the text behind it. -/
def callsOf (ws : List (List Char × List Char)) : List CallText :=
  ws.filterMap fun w => callOfWord? w.1 w.2

/-- The calls of a text, however many there are. -/
def allCalls (cs : List Char) : List CallText := callsOf (words cs)

theorem callsOfWords_eq [Build] (ws : List (List Char × List Char)) (room : Nat)
    (found : List CallText) :
    callsOfWords ws room found = (found.reverse ++ (callsOf ws).take room,
      if (callsOf ws).length ≤ room then #[] else #[callLimitEvent]) := by
  induction ws generalizing room found with
  | nil => simp [callsOfWords, callsOf]
  | cons first rest ih =>
    obtain ⟨word, behind⟩ := first
    unfold callsOfWords
    cases hcall : callOfWord? word behind with
    | none =>
      have hrest : callsOf ((word, behind) :: rest) = callsOf rest := List.filterMap_cons_none hcall
      rw [hrest]
      exact ih room found
    | some call =>
      have hmore : callsOf ((word, behind) :: rest) = call :: callsOf rest :=
        List.filterMap_cons_some hcall
      rw [hmore]
      cases room with
      | zero => simp
      | succ room =>
        dsimp only
        rw [ih]
        simp

/-- The first calls of a text are extracted, and there is an event where some are left out. -/
theorem calls_eq [Build] (cs : List Char) :
    calls cs = ((allCalls cs).take Limit.callExtraction,
      if (allCalls cs).length ≤ Limit.callExtraction then #[] else #[callLimitEvent]) :=
  callsOfWords_eq _ _ _

/-! ### Parts of a text -/

/-- Nothing in front of the text goes on in it: no word, and no call. -/
structure Quiet (rest : List Char) : Prop where
  word : ∀ c ∈ rest.head?, isWord c = false
  call : afterBlanks? '(' rest = none

section

variable {w rest : List Char}

theorem words_go_separator {c : Char} (h : isWord c = false) (inside : Bool) (rest : List Char) :
    words.go (c :: rest) inside [] = words rest := by
  rw [words.go, if_neg (by simp [h])]
  rfl

/-- A word that ends here leaves nothing behind. -/
theorem words_go_true (h : ∀ c ∈ rest.head?, isWord c = false) : words.go rest true [] = words rest := by
  cases rest with
  | nil => rfl
  | cons c rest => exact (words_go_separator (h c rfl) true rest).trans (words_go_separator (h c rfl) false rest).symm

/-- Text that is of no word has none. -/
theorem words_separators (hw : ∀ c ∈ w, isWord c = false) (rest : List Char) :
    words (w ++ rest) = words rest := by
  induction w with
  | nil => rfl
  | cons c w ih =>
    rw [List.forall_mem_cons] at hw
    exact (words_go_separator hw.1 false _).trans (ih hw.2)

/-- The words of a text are its first and those behind it. -/
theorem words_word (hne : w ≠ []) (hw : ∀ c ∈ w, isWord c = true)
    (hrest : ∀ c ∈ rest.head?, isWord c = false) : words (w ++ rest) = (w, rest) :: words rest := by
  obtain ⟨c, w, rfl⟩ := List.exists_cons_of_ne_nil hne
  rw [List.forall_mem_cons] at hw
  have hinside : ∀ v : List Char, (∀ c ∈ v, isWord c = true) → words.go (v ++ rest) true [] = words rest := by
    intro v hv
    induction v with
    | nil => exact words_go_true hrest
    | cons d v ih =>
      rw [List.forall_mem_cons] at hv
      rw [List.cons_append, words.go, if_pos hv.1, if_pos rfl, ih hv.2]
  unfold words
  rw [List.cons_append, words.go, if_pos hw.1, if_neg Bool.false_ne_true, words_go_eq,
    Lexing.takeWhile_append_of_stop hw.2 hrest, Lexing.dropWhile_append_of_stop hw.2 hrest, hinside w hw.2]
  rfl

end

/-- The calls of a text behind a word that may go on in it. -/
def callsFrom (inside : Bool) (cs : List Char) : List CallText := callsOf (words.go cs inside [])

section

variable {w rest : List Char}

theorem callsFrom_separator {c : Char} (h : isWord c = false) (inside : Bool) (rest : List Char) :
    callsFrom inside (c :: rest) = callsFrom false rest :=
  congrArg callsOf (words_go_separator h inside rest)

theorem callsFrom_true (h : ∀ c ∈ rest.head?, isWord c = false) :
    callsFrom true rest = callsFrom false rest :=
  congrArg callsOf (words_go_true h)

theorem callsFrom_word {c : Char} (h : isWord c = true) (rest : List Char) :
    callsFrom false (c :: rest) =
      (callOfWord? (c :: rest.takeWhile isWord) (rest.dropWhile isWord)).toList ++ callsFrom true rest := by
  unfold callsFrom
  rw [words.go, if_pos h, if_neg Bool.false_ne_true, words_go_eq, callsOf, List.filterMap_append]
  rfl

theorem callsFrom_inside {c : Char} (h : isWord c = true) (rest : List Char) :
    callsFrom true (c :: rest) = callsFrom true rest := by
  unfold callsFrom
  rw [words.go, if_pos h, if_pos rfl]

/-- Text that is of no word makes no calls. -/
theorem allCalls_separators (hw : ∀ c ∈ w, isWord c = false) (rest : List Char) :
    allCalls (w ++ rest) = allCalls rest :=
  congrArg callsOf (words_separators hw rest)

/-- The calls of a text are that of its first word and those behind it. -/
theorem allCalls_word (hne : w ≠ []) (hw : ∀ c ∈ w, isWord c = true)
    (hrest : ∀ c ∈ rest.head?, isWord c = false) :
    allCalls (w ++ rest) = (callOfWord? w rest).toList ++ allCalls rest := by
  unfold allCalls callsOf
  rw [words_word hne hw hrest, List.filterMap_cons]
  cases callOfWord? w rest <;> rfl

theorem afterBlanks?_append_of_not_mem (hw : '(' ∉ w) (hrest : afterBlanks? '(' rest = none) :
    afterBlanks? '(' (w ++ rest) = none := by
  induction w with
  | nil => exact hrest
  | cons c w ih =>
    rw [List.mem_cons, not_or] at hw
    cases hblank : isBlank c with
    | true => rw [List.cons_append, afterBlanks?_of_isBlank hblank, ih hw.2]
    | false => rw [List.cons_append, afterBlanks?_cons hblank, if_neg (Ne.symm hw.1)]

theorem Quiet.append_blanks {g : List Char} (hg : ∀ c ∈ g, isBlank c = true) (h : Quiet rest) :
    Quiet (g ++ rest) :=
  ⟨head?_blanks_append hg h.word, (afterBlanks?_blanks_append hg '(').trans h.call⟩

theorem Quiet.cons {c : Char} (hword : isWord c = false) (hblank : isBlank c = false) (hparen : c ≠ '(')
    (rest : List Char) : Quiet (c :: rest) := by
  refine ⟨?_, by rw [afterBlanks?_cons hblank, if_neg hparen]⟩
  rintro _ ⟨⟩
  exact hword

theorem callOfWord?_eq_none (h : afterBlanks? '(' rest = none) : callOfWord? w rest = none := by
  unfold callOfWord?
  split
  · rfl
  · rw [h]
    rfl

/-- A text without an opening parenthesis makes no calls in front of a quiet one. -/
theorem allCalls_uncalled (hw : '(' ∉ w) (hrest : Quiet rest) : allCalls (w ++ rest) = allCalls rest := by
  suffices h : ∀ inside, callsFrom inside (w ++ rest) = callsFrom false rest from h false
  intro inside
  induction w generalizing inside with
  | nil =>
    cases inside with
    | false => rfl
    | true => exact callsFrom_true hrest.word
  | cons c w ih =>
    rw [List.mem_cons, not_or] at hw
    rw [List.cons_append]
    cases hword : isWord c with
    | false => rw [callsFrom_separator hword, ih hw.2]
    | true =>
      cases inside with
      | true => rw [callsFrom_inside hword, ih hw.2]
      | false =>
        have hnone : afterBlanks? '(' ((w ++ rest).dropWhile isWord) = none := by
          rw [List.dropWhile_append]
          split
          · have hsame : rest.dropWhile isWord = rest := Lexing.dropWhile_append_of_stop (w := []) (by simp) hrest.word
            rw [hsame]
            exact hrest.call
          · exact afterBlanks?_append_of_not_mem
              (fun hmem => hw.2 ((List.dropWhile_sublist _).subset hmem)) hrest.call
        rw [callsFrom_word hword, callOfWord?_eq_none hnone, ih hw.2]
        rfl

end

/-! ### What stands in parentheses -/

/-- All parentheses of the text are closed in it, so the search for a closing one passes over it. -/
def Closed (w : List Char) : Prop :=
  ∀ (rest : List Char) (depth : Nat) (seen : List Char),
    callInside.go (w ++ rest) depth seen = callInside.go rest depth (w.reverse ++ seen)

namespace Closed

variable {v w : List Char}

theorem append (hv : Closed v) (hw : Closed w) : Closed (v ++ w) := by
  intro rest depth seen
  rw [List.append_assoc, hv, hw, List.reverse_append, List.append_assoc]

theorem of_quiet (hopen : '(' ∉ w) (hclose : ')' ∉ w) : Closed w := by
  intro rest depth seen
  induction w generalizing seen with
  | nil => rfl
  | cons c w ih =>
    rw [List.mem_cons, not_or] at hopen hclose
    have hstep : callInside.go (c :: (w ++ rest)) depth seen = callInside.go (w ++ rest) depth (c :: seen) := by
      rw [callInside.go.eq_def]
      dsimp only
      rw [if_neg (Ne.symm hopen.1), if_neg (Ne.symm hclose.1)]
    rw [List.cons_append, hstep, ih hopen.2 hclose.2, List.reverse_cons, List.append_assoc,
      List.singleton_append]

theorem enclosed (h : Closed w) : Closed ('(' :: (w ++ [')'])) := by
  intro rest depth seen
  have hopen : callInside.go ('(' :: (w ++ ')' :: rest)) depth seen =
      callInside.go (w ++ ')' :: rest) (depth + 1) ('(' :: seen) := rfl
  have hclose : callInside.go (')' :: rest) (depth + 1) (w.reverse ++ '(' :: seen) =
      callInside.go rest depth (')' :: (w.reverse ++ '(' :: seen)) := rfl
  rw [List.cons_append, List.append_assoc, List.singleton_append, hopen, h, hclose]
  simp

theorem callInside_eq (h : Closed w) (rest : List Char) : callInside (w ++ ')' :: rest) = w := by
  have hclose : callInside.go (')' :: rest) 0 w.reverse = w.reverse.reverse := rfl
  rw [callInside, h, List.append_nil, hclose, List.reverse_reverse]

end Closed

theorem isWord_keyword (k : Keyword) : ∀ c ∈ k.text.toList, isWord c = true := by
  obtain ⟨c, w, hk, hc, hw⟩ := Lexing.keyword_text_shape k
  rw [hk]
  exact isWord_of_name hc hw

theorem keyword_text_ne_nil (k : Keyword) : k.text.toList ≠ [] := by cases k <;> decide

/-- A word in front of a parenthesis is called. -/
theorem allCalls_called (k : Keyword) {g : List Char} (hg : ∀ c ∈ g, isBlank c = true) (rest : List Char) :
    allCalls (k.text.toList ++ (g ++ '(' :: rest)) =
      ⟨k.text, splitArgs (callInside rest)⟩ :: allCalls rest := by
  have hhead : ∀ d ∈ (g ++ '(' :: rest).head?, isWord d = false :=
    head?_blanks_append hg (by rintro _ ⟨⟩; decide)
  have hcall : callOfWord? k.text.toList (g ++ '(' :: rest) = some ⟨k.text, splitArgs (callInside rest)⟩ := by
    obtain ⟨c, w, hk, hc, -⟩ := Lexing.keyword_text_shape k
    have hname : k.text.toList.dropWhile (fun c => !isNameStart c) = k.text.toList := by
      rw [hk]
      exact List.dropWhile_cons_of_neg (by simp [hc])
    unfold callOfWord?
    rw [hname, afterBlanks?_blanks_append hg, afterBlanks?_cons (by decide), if_pos rfl, hk]
    dsimp only [Option.map_some]
    rw [← hk, String.ofList_toList]
  have hblanks : ∀ d ∈ g ++ ['('], isWord d = false := by
    intro d hd
    rcases List.mem_append.1 hd with hd | hd
    · exact isWord_of_isBlank (hg d hd)
    · cases List.mem_singleton.1 hd
      decide
  rw [allCalls_word (keyword_text_ne_nil k) (isWord_keyword k) hhead, hcall, List.append_cons,
    allCalls_separators hblanks]
  rfl

/-- Its arguments are what stands up to the closing parenthesis. -/
theorem allCalls_call (k : Keyword) {g inner : List Char} (hg : ∀ c ∈ g, isBlank c = true)
    (hinner : Closed inner) (rest : List Char) :
    allCalls (k.text.toList ++ (g ++ '(' :: (inner ++ ')' :: rest))) =
      ⟨k.text, splitArgs inner⟩ :: allCalls (inner ++ ')' :: rest) := by
  rw [allCalls_called k hg, hinner.callInside_eq]

/-! ### Arguments -/

/-- Blanks around a text are taken away. -/
theorem trim_between {g a g' : List Char} (hg : ∀ c ∈ g, isBlank c = true)
    (hg' : ∀ c ∈ g', isBlank c = true) (ha : Tight a) : trim (g ++ (a ++ g')) = a := by
  obtain ⟨c, rest, rfl⟩ := List.exists_cons_of_ne_nil ha.nonempty
  rw [Text.trim, trimStart_blanks_append hg, List.cons_append, trimStart_cons (ha.first c rfl),
    ← List.cons_append, trimEnd_append ha.last, trimEnd_blanks hg', List.append_nil]

/-- One argument, and blanks around it. -/
theorem splitArgs_one {inner a : List Char} (hinner : Crossed 0 inner) (htrim : trim inner = a)
    (ha : a ≠ []) : splitArgs inner = [a] := by
  have hpieces : argPieces inner = [inner] := by
    have h := hinner [] 0 [] [] (Int.le_refl 0)
    rw [List.append_nil, List.append_nil] at h
    rw [argPieces, h, argPieces.go, List.reverse_reverse]
    rfl
  unfold splitArgs
  simp [hpieces, htrim, ha]

theorem splitArgs_two {u v a b : List Char} (hu : Crossed 0 u) (hv : Crossed 0 v) (hua : trim u = a)
    (hvb : trim v = b) (hb : b ≠ []) : splitArgs (u ++ ',' :: v) = [a, b] := by
  have hpieces : argPieces (u ++ ',' :: v) = [u, v] := by
    have h := hv [] 0 [] [u] (Int.le_refl 0)
    rw [List.append_nil, List.append_nil] at h
    rw [argPieces, hu _ _ _ _ (Int.le_refl 0), argPieces.go, if_pos ⟨rfl, rfl⟩, List.append_nil,
      List.reverse_reverse, h, argPieces.go, List.reverse_reverse]
    rfl
  unfold splitArgs
  simp [hpieces, hua, hvb, hb]

/-- A text that the search for a parenthesis and the split into arguments both pass over. -/
structure Sealed (w : List Char) : Prop where
  closed : Closed w
  crossed : Crossed 0 w

namespace Sealed

variable {v w : List Char}

theorem append (hv : Sealed v) (hw : Sealed w) : Sealed (v ++ w) :=
  ⟨hv.closed.append hw.closed, hv.crossed.append hw.crossed⟩

theorem of_quiet (h : ∀ c ∈ w, c ∉ separators) : Sealed w :=
  ⟨.of_quiet (fun hmem => h _ hmem (by decide)) fun hmem => h _ hmem (by decide), .of_quiet h⟩

theorem of_gap (h : ∀ c ∈ w, Lexing.isGap c = true) : Sealed w := by
  refine .of_quiet fun c hc => ?_
  rcases (Lexing.isGap_iff c).1 (h c hc) with rfl | rfl | rfl | rfl <;> decide

theorem enclosed (h : Sealed w) : Sealed ('(' :: (w ++ [')'])) :=
  ⟨h.closed.enclosed, .enclosed (h.crossed.mono (by decide))⟩

/-- Commas in parentheses do not matter either. -/
theorem enclosed_pair (hv : Sealed v) (hw : Sealed w) : Sealed ('(' :: ((v ++ ',' :: w) ++ [')'])) := by
  refine ⟨.enclosed (hv.closed.append (.append (v := [',']) (.of_quiet (by decide) (by decide)) hw.closed)),
    .enclosed ((hv.crossed.mono (by decide)).append ?_)⟩
  exact .append (v := [',']) (.comma (by decide)) (hw.crossed.mono (by decide))

end Sealed

section

variable (k : Keyword) {g u v a b : List Char} (hg : ∀ c ∈ g, isBlank c = true) (hu : Sealed u)
  (hua : trim u = a)
include hg hu hua

/-- A call of one argument. -/
theorem allCalls_call_one (ha : a ≠ []) (rest : List Char) :
    allCalls (k.text.toList ++ (g ++ '(' :: (u ++ ')' :: rest))) = ⟨k.text, [a]⟩ :: allCalls (u ++ ')' :: rest) := by
  rw [allCalls_call k hg hu.closed, splitArgs_one hu.crossed hua ha]

/-- A call of two arguments. -/
theorem allCalls_call_two (hv : Sealed v) (hvb : trim v = b) (hb : b ≠ []) (rest : List Char) :
    allCalls (k.text.toList ++ (g ++ '(' :: (u ++ ',' :: v ++ ')' :: rest))) =
      ⟨k.text, [a, b]⟩ :: allCalls (u ++ ',' :: v ++ ')' :: rest) := by
  have hclosed : Closed (u ++ ',' :: v) :=
    hu.closed.append (.append (v := [',']) (.of_quiet (by decide) (by decide)) hv.closed)
  rw [allCalls_call k hg hclosed, splitArgs_two hu.crossed hv.crossed hua hvb hb]

end

end Check

/-! ## Calls of a tree -/

/-- The calls of an expression, the outermost before those in its arguments, with the slices of the
arguments in a text; that of a type is its word. -/
def Expr.calls (cs : List Char) : Expr → List CallText
  | .unaryMinus e _ | .paren e _ => e.calls cs
  | .cast e target _ => ⟨Keyword.cast.text, [e.span.slice cs, target.keyword.text.toList]⟩ :: e.calls cs
  | .unaryCall f e _ => ⟨f.text, [e.span.slice cs]⟩ :: e.calls cs
  | .binaryCall f a b _ => ⟨f.text, [a.span.slice cs, b.span.slice cs]⟩ :: (a.calls cs ++ b.calls cs)
  | .binary _ _ a b _ => a.calls cs ++ b.calls cs
  | .constant .. | .name .. | .integer .. | .real .. | .string .. | .truth .. => []

/-- If the token is a string, no character in it tells arguments apart. -/
def Token.Plain (t : Token) : Prop := ∀ text, t = .string text → ∀ c ∈ text.toList, c ∉ separators

instance : DecidablePred Token.Plain
  | .string text => decidable_of_iff (text.toList.all fun c => !separators.contains c)
      ⟨fun h _ ht => by cases ht; simpa using h, fun h => by simpa using h text rfl⟩
  | .identifier _ | .keyword _ | .integer _ | .real _ | .symbol _ | .whitespace _ | .lineComment _
  | .blockComment _ | .error _ | .eof => isTrue fun _ ht => nomatch ht

/-! ### Tokens -/

namespace Lexing.Spells

variable {w : List Char} {t : Token}

/-- The characters of a word or a number. -/
theorem isNamePart_or_point (h : Spells w t) (hseen : t.isSignificant = true) (hsymbol : t.isSymbol = false)
    (hstring : ∀ text, t ≠ .string text) : ∀ c ∈ w, isNamePart c = true ∨ c = '.' := by
  have hdigit : ∀ {c : Char}, c.isDigit = true → isNamePart c = true := by
    intro c hc
    simp [isNamePart, Char.isAlphanum, hc]
  cases h with
  | whitespace | lineComment | blockComment => cases hseen
  | symbol => cases hsymbol
  | string => exact absurd rfl (hstring _)
  | integer _ digits => exact fun c hc => .inl (hdigit (digits c hc))
  | real _ _ whole_digits part_digits =>
    intro c hc
    rcases List.mem_append.1 hc with hc | hc
    · exact .inl (hdigit (whole_digits c hc))
    · exact (List.mem_cons.1 hc).symm.imp (fun hc => hdigit (part_digits c hc)) id
  | keyword k =>
    obtain ⟨c, cs, hk, hstart, hmore⟩ := keyword_text_shape k
    rw [hk, List.forall_mem_cons]
    exact ⟨.inl (isNamePart_of_isNameStart hstart), fun d hd => .inl (hmore d hd)⟩
  | identifier start more =>
    rw [List.forall_mem_cons]
    refine ⟨.inl (isNamePart_of_isNameStart ?_), fun d hd => .inl ?_⟩
    · simpa [isNameStart] using start
    · simpa [isNamePart] using more d hd

/-- Only brackets and commas have characters that tell arguments apart, and strings that are not
plain. -/
theorem not_separator (h : Spells w t) (hseen : t.isSignificant = true) (hsymbol : t.isSymbol = false)
    (hplain : t.Plain) : ∀ c ∈ w, c ∉ separators := by
  intro c hc hmem
  by_cases hstring : ∃ text, t = .string text
  · obtain ⟨text, rfl⟩ := hstring
    refine hplain text rfl c ?_ hmem
    rw [show text = Token.text (.string text) from rfl, h.text_eq, String.toList_ofList]
    exact hc
  · have hother : separators.all (fun d => !isNamePart d && d != '.') = true := by decide
    have hd := List.all_eq_true.1 hother c hmem
    rcases h.isNamePart_or_point hseen hsymbol (fun text ht => hstring ⟨text, ht⟩) c hc with hc | rfl
    · rw [hc] at hd
      cases hd
    · cases hd

/-- What the parser sees has a blank at neither end. -/
theorem tight (h : Spells w t) (hseen : t.isSignificant = true) : Tight w := by
  have hne : w ≠ [] := by
    obtain ⟨c, cs, rfl⟩ := h.exists_cons
    exact List.cons_ne_nil c cs
  have hforall : (∀ c ∈ w, isBlank c = false) → Tight w := fun hw =>
    ⟨hne, fun c hc => hw c (List.mem_of_head? hc), fun c hc => hw c (List.mem_of_getLast? hc)⟩
  by_cases hstring : ∃ text, t = .string text
  · obtain ⟨text, rfl⟩ := hstring
    cases h
    refine ⟨hne, by rintro _ ⟨⟩; decide, ?_⟩
    rw [← List.cons_append, List.getLast?_concat]
    rintro _ ⟨⟩
    decide
  · cases hsymbol : t.isSymbol with
    | true =>
      cases h with
      | symbol s =>
        have hall : s.chars.all (fun c => !isBlank c) = true := by cases s <;> decide
        exact hforall fun c hc => Bool.not_eq_true' _ ▸ List.all_eq_true.1 hall c hc
      | _ => cases hsymbol
    | false =>
      refine hforall fun c hc => ?_
      rcases h.isNamePart_or_point hseen hsymbol (fun text ht => hstring ⟨text, ht⟩) c hc with hc | rfl
      · exact isBlank_of_isNamePart hc
      · decide

end Lexing.Spells

/-- Texts without blanks at their ends make one with any gap between them. -/
theorem Check.Tight.append {v w : List Char} (hv : Tight v) (hw : Tight w) (g : List Char) :
    Tight (v ++ (g ++ w)) := by
  obtain ⟨c, v, rfl⟩ := List.exists_cons_of_ne_nil hv.nonempty
  refine ⟨List.cons_ne_nil _ _, hv.first, ?_⟩
  rw [List.getLast?_append_of_ne_nil _ (List.append_ne_nil_of_right_ne_nil g hw.nonempty),
    List.getLast?_append_of_ne_nil _ hw.nonempty]
  exact hw.last

theorem Lexing.Row.tight {before w : List Char} {ts : List SpannedToken} (h : Lexing.Row before ts w)
    (hseen : ∀ t ∈ ts, t.value.isSignificant = true) : Tight w := by
  induction h with
  | last spells => exact spells.tight (hseen _ (.head _))
  | cons spells gap next ih =>
    rw [List.forall_mem_cons] at hseen
    exact (spells.tight hseen.1).append (ih hseen.2) _

/-! ### Expressions -/

namespace Expr

theorem isSignificant_of_mem_terminals {e : Expr} {t : Token} (h : t ∈ e.terminals) :
    t.isSignificant = true := by
  rw [← e.filter_written] at h
  exact (List.mem_filter.1 h).2

variable {make : Span → Expr} {t : Token}

/-- A leaf has no calls, and its token is no symbol. -/
theorem IsLeaf.calls_eq (h : IsLeaf make t) : t.isSymbol = false ∧ ∀ cs s, (make s).calls cs = [] := by
  constructor
  · have hterminals := h.terminals .dummy
    have hchildren := h.children .dummy
    cases he : make .dummy with
    | unaryMinus | paren | cast | unaryCall | binaryCall | binary =>
      rw [he] at hchildren
      cases hchildren
    | truth b =>
      rw [he] at hterminals
      cases b <;> cases hterminals <;> rfl
    | _ =>
      rw [he] at hterminals
      cases hterminals
      rfl
  · intro cs s
    have hchildren := h.children s
    cases he : make s with
    | unaryMinus | paren | cast | unaryCall | binaryCall | binary =>
      rw [he] at hchildren
      cases hchildren
    | _ => rfl

end Expr

/-! ### Symbols and gaps -/

section

variable {g : List Char} (hg : ∀ c ∈ g, Lexing.isGap c = true) (rest : List Char)

theorem OpSymbol.isWord_chars (s : OpSymbol) : ∀ c ∈ s.chars, isWord c = false := by
  have hall : s.chars.all (fun c => !isWord c) = true := by cases s <;> decide
  exact fun c hc => Bool.not_eq_true' _ ▸ List.all_eq_true.1 hall c hc

include hg

theorem Check.allCalls_gap : allCalls (g ++ rest) = allCalls rest :=
  allCalls_separators (fun c hc => isWord_of_isBlank (isBlank_of_isGap (hg c hc))) rest

theorem Check.allCalls_symbol (s : OpSymbol) : allCalls (g ++ (s.chars ++ rest)) = allCalls rest := by
  rw [allCalls_gap hg, allCalls_separators s.isWord_chars]

/-- A part between gaps, in front of a symbol. -/
theorem Check.allCalls_between {a g' : List Char} {found : List CallText} {s : OpSymbol}
    (hg' : ∀ c ∈ g', Lexing.isGap c = true)
    (h : allCalls (a ++ (g' ++ (s.chars ++ rest))) = found ++ allCalls (g' ++ (s.chars ++ rest))) :
    allCalls (g ++ (a ++ (g' ++ (s.chars ++ rest)))) = found ++ allCalls rest := by
  rw [allCalls_gap hg, h, allCalls_symbol hg']

theorem Check.quiet_symbol {s : OpSymbol} (hs : s ≠ .leftParen) : Quiet (g ++ (s.chars ++ rest)) := by
  refine Quiet.append_blanks (fun c hc => isBlank_of_isGap (hg c hc)) ?_
  cases s <;> first | exact absurd rfl hs | exact .cons (by decide) (by decide) (by decide) _

end

/-! ### Calls between gaps -/

namespace Check

variable {g g₁ g₂ g₃ g₄ a b rest : List Char} {found found' : List CallText}

/-- A call with a sealed text as its argument is found in front of the calls in it. -/
theorem allCalls_call_between (k : Keyword) (hg : ∀ c ∈ g, Lexing.isGap c = true)
    (hg₁ : ∀ c ∈ g₁, Lexing.isGap c = true) (hg₂ : ∀ c ∈ g₂, Lexing.isGap c = true)
    (hsealed : Sealed a) (htight : Tight a)
    (ha : allCalls (a ++ (g₂ ++ (OpSymbol.rightParen.chars ++ rest))) =
      found ++ allCalls (g₂ ++ (OpSymbol.rightParen.chars ++ rest))) :
    allCalls (k.text.toList ++ (g ++ '(' :: (g₁ ++ (a ++ (g₂ ++ ')' :: rest))))) =
      ⟨k.text, [a]⟩ :: (found ++ allCalls rest) := by
  have hblank : ∀ {g : List Char}, (∀ c ∈ g, Lexing.isGap c = true) → ∀ c ∈ g, isBlank c = true :=
    fun hg c hc => isBlank_of_isGap (hg c hc)
  have hcall := allCalls_call_one k (hblank hg) ((Sealed.of_gap hg₁).append (hsealed.append (.of_gap hg₂)))
    (trim_between (hblank hg₁) (hblank hg₂) htight) htight.nonempty rest
  have hvalue := allCalls_between hg₁ rest hg₂ ha
  simp only [List.append_assoc, List.cons_append, List.nil_append, OpSymbol.chars] at hcall hvalue
  rw [hcall, hvalue]

/-- A call with two sealed texts as its arguments is found in front of the calls in them. -/
theorem allCalls_pair_between (k : Keyword) (hg : ∀ c ∈ g, Lexing.isGap c = true)
    (hg₁ : ∀ c ∈ g₁, Lexing.isGap c = true) (hg₂ : ∀ c ∈ g₂, Lexing.isGap c = true)
    (hg₃ : ∀ c ∈ g₃, Lexing.isGap c = true) (hg₄ : ∀ c ∈ g₄, Lexing.isGap c = true)
    (hsealed : Sealed a) (htight : Tight a) (hsealed' : Sealed b) (htight' : Tight b)
    (ha : allCalls (a ++ (g₂ ++ (OpSymbol.comma.chars ++ (g₃ ++ (b ++ (g₄ ++ ')' :: rest)))))) =
      found ++ allCalls (g₂ ++ (OpSymbol.comma.chars ++ (g₃ ++ (b ++ (g₄ ++ ')' :: rest))))))
    (hb : allCalls (b ++ (g₄ ++ (OpSymbol.rightParen.chars ++ rest))) =
      found' ++ allCalls (g₄ ++ (OpSymbol.rightParen.chars ++ rest))) :
    allCalls (k.text.toList ++ (g ++ '(' :: (g₁ ++ (a ++ (g₂ ++ ',' :: (g₃ ++ (b ++ (g₄ ++ ')' :: rest)))))))) =
      ⟨k.text, [a, b]⟩ :: (found ++ (found' ++ allCalls rest)) := by
  have hblank : ∀ {g : List Char}, (∀ c ∈ g, Lexing.isGap c = true) → ∀ c ∈ g, isBlank c = true :=
    fun hg c hc => isBlank_of_isGap (hg c hc)
  have hcall := allCalls_call_two k (hblank hg) ((Sealed.of_gap hg₁).append (hsealed.append (.of_gap hg₂)))
    (trim_between (hblank hg₁) (hblank hg₂) htight)
    ((Sealed.of_gap hg₃).append (hsealed'.append (.of_gap hg₄)))
    (trim_between (hblank hg₃) (hblank hg₄) htight') htight'.nonempty rest
  have hfirst := allCalls_between hg₁ (g₃ ++ (b ++ (g₄ ++ ')' :: rest))) hg₂ ha
  have hsecond := allCalls_between hg₃ rest hg₄ hb
  simp only [List.append_assoc, List.cons_append, List.nil_append, OpSymbol.chars] at hcall hfirst hsecond
  rw [hcall, hfirst, hsecond]

end Check

namespace Lexing.Row

variable {before w : List Char} {ts us : List SpannedToken} {t right : SpannedToken}

/-- A keyword in front of a row. -/
theorem keyword {k : Keyword} (h : Row before (t :: ts) w) (hts : ts ≠ []) (ht : t.value = .keyword k) :
    ∃ g v, w = k.text.toList ++ (g ++ v) ∧ (∀ c ∈ g, isGap c = true) ∧
      Row (before ++ k.text.toList ++ g) ts v := by
  obtain ⟨v, g, v', rfl, hv, hg, hrow⟩ := h.uncons hts
  rw [ht] at hv
  cases hv
  exact ⟨g, v', rfl, hg, hrow⟩

/-- A row between parentheses. -/
theorem enclosed (h : Row before (t :: (ts ++ [right])) w) (hts : ts ≠ [])
    (ht : t.value = .symbol .leftParen) (hright : right.value = .symbol .rightParen) :
    ∃ g v g', w = '(' :: (g ++ (v ++ g') ++ [')']) ∧ (∀ c ∈ g, isGap c = true) ∧
      (∀ c ∈ g', isGap c = true) ∧ Row (before ++ '(' :: g) ts v := by
  obtain ⟨v, g, v', rfl, hv, hg, hrow⟩ := h.uncons (List.append_ne_nil_of_left_ne_nil hts _)
  obtain ⟨a, g', b, rfl, ha, hg', hb⟩ := hrow.unconcat hts
  rw [ht] at hv
  rw [hright] at hb
  cases hv
  cases hb
  refine ⟨g, a, g', by simp [OpSymbol.chars], hg, hg', ?_⟩
  rwa [List.append_assoc] at ha

/-- The row of a call, with that of its arguments. -/
theorem call {k : Keyword} {left : SpannedToken} (h : Row before (t :: left :: (ts ++ [right])) w)
    (hts : ts ≠ []) (ht : t.value = .keyword k) (hleft : left.value = .symbol .leftParen)
    (hright : right.value = .symbol .rightParen) :
    ∃ g g' v j, w = k.text.toList ++ (g ++ '(' :: (g' ++ (v ++ j) ++ [')'])) ∧
      (∀ c ∈ g, isGap c = true) ∧ (∀ c ∈ g', isGap c = true) ∧ (∀ c ∈ j, isGap c = true) ∧
      Row (before ++ k.text.toList ++ g ++ '(' :: g') ts v := by
  obtain ⟨g, v, rfl, hg, hv⟩ := h.keyword (List.cons_ne_nil _ _) ht
  obtain ⟨g', a, j, rfl, hg', hj, ha⟩ := hv.enclosed hts hleft hright
  exact ⟨g, g', a, j, rfl, hg, hg', hj, ha⟩

/-- Two rows with a symbol between. -/
theorem infixed {s : OpSymbol} (h : Row before (ts ++ t :: us) w) (hts : ts ≠ []) (hus : us ≠ [])
    (ht : t.value = .symbol s) :
    ∃ a g g' b, w = a ++ (g ++ (s.chars ++ (g' ++ b))) ∧ (∀ c ∈ g, isGap c = true) ∧
      (∀ c ∈ g', isGap c = true) ∧ Row before ts a ∧ Row (before ++ a ++ g ++ s.chars ++ g') us b := by
  obtain ⟨a, g, v, rfl, ha, hg, hv⟩ := h.split hts (List.cons_ne_nil _ _)
  obtain ⟨v, g', b, rfl, hsign, hg', hb⟩ := hv.uncons hus
  rw [ht] at hsign
  cases hsign
  exact ⟨a, g, g', b, rfl, hg, hg', ha, hb⟩

/-- The row of a call with two arguments. -/
theorem pairCall {k : Keyword} {left comma : SpannedToken}
    (h : Row before (t :: left :: (ts ++ comma :: (us ++ [right]))) w) (hts : ts ≠ []) (hus : us ≠ [])
    (ht : t.value = .keyword k) (hleft : left.value = .symbol .leftParen)
    (hcomma : comma.value = .symbol .comma) (hright : right.value = .symbol .rightParen) :
    ∃ g g₁ a g₂ g₃ b g₄,
      w = k.text.toList ++ (g ++ '(' :: (g₁ ++ (a ++ g₂) ++ ',' :: (g₃ ++ (b ++ g₄)) ++ [')'])) ∧
      (∀ c ∈ g, isGap c = true) ∧ (∀ c ∈ g₁, isGap c = true) ∧ (∀ c ∈ g₂, isGap c = true) ∧
      (∀ c ∈ g₃, isGap c = true) ∧ (∀ c ∈ g₄, isGap c = true) ∧
      Row (before ++ k.text.toList ++ g ++ '(' :: g₁) ts a ∧
      Row (before ++ k.text.toList ++ g ++ '(' :: (g₁ ++ (a ++ (g₂ ++ ',' :: g₃)))) us b := by
  have hsplit : ts ++ comma :: (us ++ [right]) = (ts ++ comma :: us) ++ [right] := by simp
  rw [hsplit] at h
  obtain ⟨g, g₁, v, g₄, rfl, hg, hg₁, hg₄, hv⟩ :=
    h.call (List.append_ne_nil_of_left_ne_nil hts _) ht hleft hright
  obtain ⟨a, g₂, g₃, b, rfl, hg₂, hg₃, ha, hb⟩ := hv.infixed hts hus hcomma
  refine ⟨g, g₁, a, g₂, g₃, b, g₄, by simp [OpSymbol.chars], hg, hg₁, hg₂, hg₃, hg₄, ha, ?_⟩
  simpa [OpSymbol.chars] using hb

end Lexing.Row

namespace Expr.Over

open Lexing (Row)

variable {e : Expr} {ts : List SpannedToken} {before w : List Char}

theorem sealed_keyword (k : Keyword) : Sealed k.text.toList :=
  .of_quiet ((Lexing.Spells.keyword k).not_separator rfl rfl (by rintro text ⟨⟩))

theorem sealed_operator (op : BinaryOp) : Sealed op.symbol.chars := by
  have hall : op.symbol.chars.all (fun c => !separators.contains c) = true := by cases op <;> decide
  exact .of_quiet (by simpa using hall)

/-- The text of an expression has all its brackets closed. -/
theorem sealed_text (h : e.Over ts) (hrow : Row before ts w) (hplain : ∀ t ∈ ts, t.value.Plain) :
    Sealed w := by
  induction h generalizing before w with
  | @leaf make t make_leaf =>
    have hsolid : t.value.isSignificant = true :=
      isSignificant_of_mem_terminals (e := make .dummy) (by rw [make_leaf.terminals]; exact .head _)
    exact .of_quiet (hrow.single.not_separator hsolid make_leaf.calls_eq.1 (hplain t (.head _)))
  | unaryMinus sign_value operand span ih =>
    rw [List.forall_mem_cons] at hplain
    obtain ⟨v, g, a, rfl, hv, hg, ha⟩ := hrow.uncons operand.ne_nil
    rw [sign_value] at hv
    cases hv
    exact (sealed_operator .subtract).append ((Sealed.of_gap hg).append (ih ha hplain.2))
  | paren left_value right_value inner span ih =>
    rw [List.forall_mem_cons, List.forall_mem_append] at hplain
    obtain ⟨g, a, g', rfl, hg, hg', ha⟩ := hrow.enclosed inner.ne_nil left_value right_value
    exact .enclosed ((Sealed.of_gap hg).append ((ih ha hplain.2.1).append (.of_gap hg')))
  | @cast e target s word left comma type right ts word_value left_value comma_value type_value right_value
      arg span ih =>
    rw [List.forall_mem_cons, List.forall_mem_cons, List.forall_mem_append] at hplain
    have hrow : Row before (word :: left :: (ts ++ comma :: ([type] ++ [right]))) w := hrow
    obtain ⟨g, g₁, a, g₂, g₃, b, g₄, rfl, hg, hg₁, hg₂, hg₃, hg₄, ha, hb⟩ := hrow.pairCall arg.ne_nil
      (List.cons_ne_nil _ _) word_value left_value comma_value right_value
    have htype := hb.single
    rw [type_value] at htype
    cases htype
    exact (sealed_keyword _).append ((Sealed.of_gap hg).append (.enclosed_pair
      ((Sealed.of_gap hg₁).append ((ih ha hplain.2.2.1).append (.of_gap hg₂)))
      ((Sealed.of_gap hg₃).append ((sealed_keyword _).append (.of_gap hg₄)))))
  | unaryCall word_value left_value right_value arg span ih =>
    rw [List.forall_mem_cons, List.forall_mem_cons, List.forall_mem_append] at hplain
    obtain ⟨g, g', a, j, rfl, hg, hg', hj, ha⟩ := hrow.call arg.ne_nil word_value left_value right_value
    exact (sealed_keyword _).append ((Sealed.of_gap hg).append (.enclosed
      ((Sealed.of_gap hg').append ((ih ha hplain.2.2.1).append (.of_gap hj)))))
  | binaryCall word_value left_value comma_value right_value first second span ihx ihy =>
    rw [List.forall_mem_cons, List.forall_mem_cons, List.forall_mem_append, List.forall_mem_cons,
      List.forall_mem_append] at hplain
    obtain ⟨g, g₁, a, g₂, g₃, b, g₄, rfl, hg, hg₁, hg₂, hg₃, hg₄, ha, hb⟩ := hrow.pairCall first.ne_nil
      second.ne_nil word_value left_value comma_value right_value
    exact (sealed_keyword _).append ((Sealed.of_gap hg).append (.enclosed_pair
      ((Sealed.of_gap hg₁).append ((ihx ha hplain.2.2.1).append (.of_gap hg₂)))
      ((Sealed.of_gap hg₃).append ((ihy hb hplain.2.2.2.2.1).append (.of_gap hg₄)))))
  | @binary op x y s sign ts us sign_value first second span ihx ihy =>
    rw [List.forall_mem_append, List.forall_mem_cons] at hplain
    obtain ⟨a, g, g', b, rfl, hg, hg', ha, hb⟩ := hrow.infixed first.ne_nil second.ne_nil sign_value
    exact (ihx ha hplain.1).append ((Sealed.of_gap hg).append ((sealed_operator op).append
      ((Sealed.of_gap hg').append (ihy hb hplain.2.2))))

/-- What an expression stands over is seen by the parser, so its text is tight. -/
theorem tight_text (h : e.Over ts) (hrow : Row before ts w) : Tight w := by
  refine hrow.tight fun t ht => isSignificant_of_mem_terminals (e := e) ?_
  rw [← h.map_value]
  exact List.mem_map_of_mem ht

theorem slice_span (h : e.Over ts) (hrow : Row before ts w) (after : List Char) :
    e.span.slice (before ++ w ++ after) = w :=
  hrow.slice_eq h.span_over after

/-- In front of a quiet text, the text of an expression makes the calls of the tree. By induction on the
tree: each call is found at its name, and those in its arguments behind it. -/
theorem allCalls_text (h : e.Over ts) (hrow : Row before ts w) (hplain : ∀ t ∈ ts, t.value.Plain)
    {rest : List Char} (hrest : Quiet rest) :
    allCalls (w ++ rest) = e.calls (before ++ w ++ rest) ++ allCalls rest := by
  induction h generalizing before w rest with
  | @leaf make t make_leaf =>
    have hsolid : t.value.isSignificant = true :=
      isSignificant_of_mem_terminals (e := make .dummy) (by rw [make_leaf.terminals]; exact .head _)
    have hquiet := hrow.single.not_separator hsolid make_leaf.calls_eq.1 (hplain t (.head _))
    rw [allCalls_uncalled (fun hmem => hquiet _ hmem (by decide)) hrest, make_leaf.calls_eq.2]
    rfl
  | unaryMinus sign_value operand span ih =>
    rw [List.forall_mem_cons] at hplain
    obtain ⟨v, g, a, rfl, hv, hg, ha⟩ := hrow.uncons operand.ne_nil
    rw [sign_value] at hv
    cases hv
    have hfront := allCalls_separators (OpSymbol.minus.isWord_chars) (g ++ (a ++ rest))
    have hpart := ih ha hplain.2 hrest
    simp only [List.append_assoc] at hfront hpart ⊢
    rw [hfront, allCalls_gap hg, hpart]
    rfl
  | paren left_value right_value inner span ih =>
    rw [List.forall_mem_cons, List.forall_mem_append] at hplain
    obtain ⟨g, a, g', rfl, hg, hg', ha⟩ := hrow.enclosed inner.ne_nil left_value right_value
    have hfront := allCalls_separators OpSymbol.leftParen.isWord_chars (g ++ (a ++ (g' ++ ')' :: rest)))
    have hpart := allCalls_between hg rest hg'
      (ih ha hplain.2.1 (quiet_symbol hg' rest (s := .rightParen) (by decide)))
    simp only [List.append_assoc, List.cons_append, List.nil_append, OpSymbol.chars] at hpart hfront ⊢
    rw [hfront, hpart]
    rfl
  | @cast e target s word left comma type right ts word_value left_value comma_value type_value right_value
      arg span ih =>
    rw [List.forall_mem_cons, List.forall_mem_cons, List.forall_mem_append] at hplain
    have hrow : Row before (word :: left :: (ts ++ comma :: ([type] ++ [right]))) w := hrow
    obtain ⟨g, g₁, a, g₂, g₃, b, g₄, rfl, hg, hg₁, hg₂, hg₃, hg₄, ha, hb⟩ := hrow.pairCall arg.ne_nil
      (List.cons_ne_nil _ _) word_value left_value comma_value right_value
    have htype := hb.single
    rw [type_value] at htype
    cases htype
    have huncalled : allCalls (target.keyword.text.toList ++ (g₄ ++ (OpSymbol.rightParen.chars ++ rest))) =
        [] ++ allCalls (g₄ ++ (OpSymbol.rightParen.chars ++ rest)) :=
      allCalls_uncalled (by cases target <;> decide) (quiet_symbol hg₄ rest (by decide))
    have hcall := allCalls_pair_between .cast hg hg₁ hg₂ hg₃ hg₄ (arg.sealed_text ha hplain.2.2.1)
      (arg.tight_text ha) (sealed_keyword _) ((Lexing.Spells.keyword target.keyword).tight rfl)
      (ih ha hplain.2.2.1 (quiet_symbol hg₂ _ (s := .comma) (by decide))) huncalled
    have hslice := arg.slice_span ha (g₂ ++ ',' :: (g₃ ++ (target.keyword.text.toList ++ (g₄ ++ ')' :: rest))))
    simp only [List.append_assoc, List.cons_append, List.nil_append, OpSymbol.chars] at hcall hslice ⊢
    rw [hcall, calls, hslice]
    rfl
  | @unaryCall f e s word left right ts word_value left_value right_value arg span ih =>
    rw [List.forall_mem_cons, List.forall_mem_cons, List.forall_mem_append] at hplain
    obtain ⟨g, g₁, a, g₂, rfl, hg, hg₁, hg₂, ha⟩ := hrow.call arg.ne_nil word_value left_value right_value
    have hcall := allCalls_call_between f.keyword hg hg₁ hg₂ (arg.sealed_text ha hplain.2.2.1)
      (arg.tight_text ha) (ih ha hplain.2.2.1 (quiet_symbol hg₂ rest (s := .rightParen) (by decide)))
    have hslice := arg.slice_span ha (g₂ ++ ')' :: rest)
    simp only [List.append_assoc, List.cons_append, List.nil_append, OpSymbol.chars] at hcall hslice ⊢
    rw [hcall, calls, hslice]
    rfl
  | @binaryCall f x y s word left comma right ts us word_value left_value comma_value right_value first
      second span ihx ihy =>
    rw [List.forall_mem_cons, List.forall_mem_cons, List.forall_mem_append, List.forall_mem_cons,
      List.forall_mem_append] at hplain
    obtain ⟨g, g₁, a, g₂, g₃, b, g₄, rfl, hg, hg₁, hg₂, hg₃, hg₄, ha, hb⟩ := hrow.pairCall first.ne_nil
      second.ne_nil word_value left_value comma_value right_value
    have hcall := allCalls_pair_between f.keyword hg hg₁ hg₂ hg₃ hg₄ (first.sealed_text ha hplain.2.2.1)
      (first.tight_text ha) (second.sealed_text hb hplain.2.2.2.2.1) (second.tight_text hb)
      (ihx ha hplain.2.2.1 (quiet_symbol hg₂ _ (s := .comma) (by decide)))
      (ihy hb hplain.2.2.2.2.1 (quiet_symbol hg₄ rest (s := .rightParen) (by decide)))
    have hslice := first.slice_span ha (g₂ ++ ',' :: (g₃ ++ (b ++ (g₄ ++ ')' :: rest))))
    have hslice' := second.slice_span hb (g₄ ++ ')' :: rest)
    simp only [List.append_assoc, List.cons_append, List.nil_append, OpSymbol.chars] at hcall hslice hslice' ⊢
    rw [hcall, calls, hslice, hslice', ← List.append_assoc]
    rfl
  | @binary op x y s sign ts us sign_value first second span ihx ihy =>
    rw [List.forall_mem_append, List.forall_mem_cons] at hplain
    obtain ⟨a, g, g', b, rfl, hg, hg', ha, hb⟩ := hrow.infixed first.ne_nil second.ne_nil sign_value
    have hleft := ihx ha hplain.1
      (quiet_symbol hg (g' ++ (b ++ rest)) (s := op.symbol) (by cases op <;> decide))
    rw [allCalls_symbol hg, allCalls_gap hg', ihy hb hplain.2.2 hrest] at hleft
    simp only [List.append_assoc] at hleft ⊢
    rw [hleft, calls, List.append_assoc]

end Expr.Over

/-! ## Accepted expressions -/

/-- An expression that is read up to the end of a text without errors and comments stands over a row of
tokens, which is the text but for gaps at its ends. -/
theorem Parsing.exists_row [Build] {lexical : LexicalPreferences} {preferences : ParserPreferences}
    {reporter : Reporter} {text : String}
    (htext : ∀ t ∈ (Lexing.tokenize lexical text).tokens, t.value.isError = false ∧ t.value.isComment = false)
    {n : Nat} {e : Expr} {q : Parser}
    (hread : Parsing.expression n (.start (.ofTokens (Lexing.tokenize lexical text).tokens) preferences
      reporter) = (.ok e, q)) (hend : q.stream.atEnd = true) :
    ∃ g w g' ts, text.toList = g ++ (w ++ g') ∧ (∀ c ∈ g, Lexing.isGap c = true) ∧
      (∀ c ∈ g', Lexing.isGap c = true) ∧ e.Over ts ∧ Lexing.Row g ts w ∧
      ∀ t ∈ ts, t ∈ (Lexing.tokenize lexical text).tokens := by
  have hsize := Lexing.utf8ByteSize_le_of_errorless fun t ht => (htext t ht).1
  obtain ⟨-, front, place, htokens, hvisible⟩ := Lexing.tokenize_visible lexical text
  obtain ⟨hready, hpending⟩ := Parser.ready_start htokens preferences reporter
  rw [hvisible] at hpending
  have heof : .eof ∉ (Lexing.tokenize lexical text).visible.map (·.value) := by
    intro hmem
    obtain ⟨t, ht, hvalue⟩ := List.mem_map.1 hmem
    have hseen := (List.mem_filter.1 ht).2
    rw [hvalue] at hseen
    cases hseen
  have hterminals := Parsing.terminals_of_atEnd heof hready hpending hread hend
  obtain ⟨ts, hover, hpassed⟩ := Parsing.expression_over hready hread
  -- The tokens that were passed are all but the end.
  have hall : ts = (Lexing.tokenize lexical text).visible := by
    have hstream := TokenStream.map_spanned_ofTokens htokens
    rw [hvisible] at hstream
    have hfirst : ts <+: (Lexing.tokenize lexical text).visible ++ [⟨.eof, place⟩] := by
      rw [← hstream, ← hpassed.tokens]
      have hzero : (Parser.start (.ofTokens (Lexing.tokenize lexical text).tokens) preferences
          reporter).position = 0 := TokenStream.position_ofTokens _
      rw [hzero, List.drop_zero]
      exact (List.take_prefix _ _).map _
    have hlength : ts.length = (Lexing.tokenize lexical text).visible.length := by
      have hvalues := congrArg List.length (hover.map_value.trans hterminals)
      rwa [List.length_map, List.length_map] at hvalues
    exact (List.prefix_of_prefix_length_le hfirst (List.prefix_append _ _) hlength.le).eq_of_length hlength
  subst hall
  have hcut : Lexing.Cut (Lexing.Reading (Lexing.tokenize lexical text).Limited)
      (Position.start.advanceAll []) text.toList (Lexing.tokenize lexical text).tokens.toList :=
    Lexing.cut_tokenize hsize
  obtain ⟨g, w, g', hcs, hg, hg', -, hrow⟩ :=
    hcut.row fun t ht => htext t (Array.mem_toList_iff.1 ht)
  exact ⟨g, w, g', _, hcs, hg, hg', hover, hrow hover.ne_nil, fun t ht =>
    Array.mem_toList_iff.1 (List.mem_of_mem_filter ht)⟩

/-- The calls of a text are those of the tree that is read from it, if nothing but plain strings and no
comment is in it. -/
theorem Parsing.allCalls_expression [Build] {lexical : LexicalPreferences}
    {preferences : ParserPreferences} {reporter : Reporter} {text : String}
    (htext : ∀ t ∈ (Lexing.tokenize lexical text).tokens,
      t.value.isError = false ∧ t.value.isComment = false ∧ t.value.Plain)
    {n : Nat} {e : Expr} {q : Parser}
    (hread : Parsing.expression n (.start (.ofTokens (Lexing.tokenize lexical text).tokens) preferences
      reporter) = (.ok e, q)) (hend : q.stream.atEnd = true) :
    allCalls text.toList = e.calls text.toList := by
  obtain ⟨g, w, g', ts, hcs, hg, hg', hover, hrow, hmem⟩ :=
    Parsing.exists_row (fun t ht => ⟨(htext t ht).1, (htext t ht).2.1⟩) hread hend
  have hplain : ∀ t ∈ ts, t.value.Plain := fun t ht => (htext t (hmem t ht)).2.2
  have hquiet : Quiet g' := by
    have hnil : Quiet (g' ++ []) :=
      Quiet.append_blanks (fun c hc => isBlank_of_isGap (hg' c hc)) ⟨by simp, rfl⟩
    rwa [List.append_nil] at hnil
  have hnone : allCalls g' = [] := by
    have h := allCalls_gap hg' []
    rwa [List.append_nil] at h
  have h := hover.allCalls_text hrow hplain hquiet
  rw [hnone, List.append_nil, List.append_assoc, ← hcs] at h
  rw [← h, hcs, allCalls_gap hg]

/-- Call extraction agrees with the parse tree. Take a text that is lexed without an error token, that has no
comment and no string in it, and that the rule for expressions reads up to the end. If the tree has no more
calls than are extracted, then the extracted calls are those of the tree, each with the slices of its
arguments, and nothing is logged. -/
theorem calls_expression [Build] (lexical : LexicalPreferences) (preferences : ParserPreferences)
    (reporter : Reporter) {text : String}
    (htext : ∀ t ∈ (Lexing.tokenize lexical text).tokens,
      t.value.isError = false ∧ t.value.isComment = false ∧ ∀ s, t.value ≠ .string s)
    {e : Expr} {q : Parser}
    (hread : Parsing.expression Limit.parseDepth
      (.start (.ofTokens (Lexing.tokenize lexical text).tokens) preferences reporter) = (.ok e, q))
    (hend : q.stream.atEnd = true)
    (hcalls : (e.calls text.toList).length ≤ Limit.callExtraction) :
    calls text.toList = (e.calls text.toList, #[]) := by
  have hall := Parsing.allCalls_expression (fun t ht => ⟨(htext t ht).1, (htext t ht).2.1,
    fun s hs => absurd hs ((htext t ht).2.2 s)⟩) hread hend
  rw [calls_eq, hall, List.take_of_length_le hcalls, if_pos hcalls]

/-- The expression that is read up to the end of a text. -/
def exprRead? [Build] (text : String) : Option Expr :=
  let read := Parsing.expression Limit.parseDepth
    (.start (.ofTokens (Lexing.tokenize {} text).tokens) {} .fresh)
  if read.2.stream.atEnd then read.1.toOption else none

theorem exists_of_exprRead? [Build] {text : String} {e : Expr} (h : exprRead? text = some e) :
    ∃ q : Parser, Parsing.expression Limit.parseDepth
      (.start (.ofTokens (Lexing.tokenize {} text).tokens) {} .fresh) = (.ok e, q) ∧ q.stream.atEnd = true := by
  unfold exprRead? at h
  dsimp only at h
  split at h
  · next hend =>
    generalize Parsing.expression _ _ = read at h hend
    obtain ⟨value, q⟩ := read
    cases value with
    | error fault => cases h
    | ok found =>
      cases h
      exact ⟨q, rfl, hend⟩
  · cases h

/-- No token is an error, a comment or a string. -/
def isCalm (tokens : Array SpannedToken) : Bool :=
  tokens.all fun t => !t.value.isError && !t.value.isComment && !(match t.value with | .string _ => true | _ => false)

theorem isCalm_iff {tokens : Array SpannedToken} (h : isCalm tokens = true) :
    ∀ t ∈ tokens, t.value.isError = false ∧ t.value.isComment = false ∧ ∀ s, t.value ≠ .string s := by
  intro t ht
  have hall := Array.all_eq_true_iff_forall_mem.1 h t ht
  simp only [Bool.and_eq_true, Bool.not_eq_true'] at hall
  refine ⟨hall.1.1, hall.1.2, fun s hs => ?_⟩
  rw [hs] at hall
  cases hall.2

theorem plain_of_isCalm {tokens : Array SpannedToken} (h : isCalm tokens = true) :
    ∀ t ∈ tokens, t.value.isError = false ∧ t.value.isComment = false ∧ t.value.Plain := by
  intro t ht
  obtain ⟨herror, hcomment, hstring⟩ := isCalm_iff h t ht
  exact ⟨herror, hcomment, fun s hs => absurd hs (hstring s)⟩

theorem calls_expression_nested :
    let text := "max( abs(-x), cast ((1), int)) + pow(2, 3)"
    let found : List CallText := [⟨"max", ["abs(-x)".toList, "cast ((1), int)".toList]⟩,
      ⟨"abs", ["-x".toList]⟩, ⟨"cast", ["(1)".toList, "int".toList]⟩,
      ⟨"pow", ["2".toList, "3".toList]⟩]
    (exprRead? text).map (·.calls text.toList) = some found ∧ calls text.toList = (found, #[]) := by
  intro text found
  have hspelt : text.toList = _ := String.toList_ofList
  have hfound : (exprRead? text).map (·.calls text.toList) = some found := by
    rw [exprRead?, Lexing.tokenize, hspelt]
    decide +kernel
  obtain ⟨e, he, hcalls⟩ := Option.map_eq_some_iff.1 hfound
  obtain ⟨q, hread, hend⟩ := exists_of_exprRead? he
  refine ⟨hfound, ?_⟩
  rw [← hcalls]
  exact calls_expression {} {} {} (isCalm_iff (by decide +kernel)) hread hend (by rw [hcalls]; decide)

end EvlCheck
