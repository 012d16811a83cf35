/-
What validation takes the header of a block for. A header of a `try` or of a handler with its binding,
and a brace alone, is a line of structure, which is passed over (`isStructure_header`). A header that
begins with `if` or `while` is a call of a function of that name (`condition_header`), and one of
another branch is no statement that validation knows (`branch_header`).
-/
import EvlCheck.Proofs.Check.Grounds
import EvlCheck.Proofs.Check.LineShape

namespace EvlCheck

open Text Check Lexing

namespace Check

open TryTracker

variable {raw : List Char}

/-! ## Lines that begin with a word of the language -/

section

variable {g g' j : List Char} (hg : ∀ d ∈ g, isGap d = true) (hg' : ∀ d ∈ g', isGap d = true)
  (hj : ∀ d ∈ j, isGap d = true)

theorem head?_keyword (k : Keyword) : ∃ c w, k.text.toList = c :: w ∧ isBlank c = false := by
  obtain ⟨c, w, hk, hc, -⟩ := keyword_text_shape k
  exact ⟨c, w, hk, isBlank_of_isNamePart (isNamePart_of_isNameStart hc)⟩

include hj

theorem trimStart_keyword (k : Keyword) (rest : List Char) :
    trimStart (j ++ (k.text.toList ++ rest)) = k.text.toList ++ rest := by
  obtain ⟨c, w, hk, hc⟩ := head?_keyword k
  rw [trimStart_blanks_append (isBlank_of_gap hj), hk]
  exact trimStart_cons hc _

include hg hg'

/-- Normal form keeps a brace, a word of the language and the character that follows it. -/
theorem normalizeLine_brace_keyword (k : Keyword) {v : Char} (hv : isBlank v = false)
    (hslash : v ≠ '/') (hsemicolon : v ≠ ';') (rest : List Char) :
    normalizeLine (g ++ '\x7d' :: (j ++ (k.text.toList ++ (g' ++ v :: rest)))) =
      '\x7d' :: (j ++ (k.text.toList ++ (g' ++ v :: lineTail rest))) := by
  obtain ⟨c, w, hk, hc, hw⟩ := keyword_text_shape k
  rw [hk]
  have hline := normalizeLine_opening hg (v := v) (p := '\x7d' :: (j ++ (c :: w ++ g'))) ?_ ?_ hv
    hsemicolon rest
  · simpa only [List.append_assoc, List.cons_append] using hline
  · rintro d hd
    cases hd
    decide
  · refine .of_not_mem ?_
    have hname := slash_not_mem_name hc hw
    simp only [List.mem_append, List.mem_cons, not_or, List.not_mem_nil, not_false_eq_true,
      and_true] at hname ⊢
    exact ⟨⟨by decide, not_mem_gap hj (by decide), hname, not_mem_gap hg' (by decide)⟩, hslash.symm⟩

end

/-- A line that closes a block is no statement. -/
theorem lineForm_brace (cs : List Char) : lineForm ('\x7d' :: cs) = .other := by
  rw [lineForm_of_declarationHead?_eq_none rfl]
  rfl

/-- A line that begins with a word and goes on with neither a parenthesis nor an assignment. -/
theorem lineForm_word {c v : Char} {w g rest : List Char}
    (hhead : declarationHead? (c :: w ++ (g ++ v :: rest)) = none) (hc : isNameStart c = true)
    (hw : ∀ d ∈ w, isWord d = true) (hends : ∀ d ∈ (g ++ v :: rest).head?, isWord d = false)
    (hg : ∀ d ∈ g, isGap d = true) (hv : isBlank v = false) (hparen : v ≠ '(')
    (hassign : (after? "=" (skipArithmetic (v :: rest))) = none) :
    lineForm (c :: w ++ (g ++ v :: rest)) = .other := by
  have hname := name?_append hc hw hends
  have hcall : isCallStart (c :: w ++ (g ++ v :: rest)) = false := by
    unfold isCallStart callHead?
    rw [hname]
    simp [afterBlanks?_blanks_append (isBlank_of_gap hg), afterBlanks?_cons hv, hparen]
  have hassignment : isAssignmentStart (c :: w ++ (g ++ v :: rest)) = false := by
    unfold isAssignmentStart
    rw [hname]
    dsimp only
    rw [trimStart_blanks_append (isBlank_of_gap hg), trimStart_cons hv, hassign]
    rfl
  rw [lineForm_of_declarationHead?_eq_none hhead, hcall, hassignment]
  rfl

/-! ## Headers -/

/-- A line that reads as a brace alone is one. -/
theorem normalizeLine_brace {s : OpSymbol} (hs : s = .leftBrace ∨ s = .rightBrace)
    (h : LineReads raw [.symbol s]) : normalizeLine raw = s.chars := by
  obtain ⟨g, rest, hg, rfl, hrest⟩ := h.symbol
  have hbrace : ∀ v : Char, isBlank v = false → v ≠ ';' → v ≠ '/' →
      normalizeLine (g ++ v :: rest) = [v] := by
    intro v hv hsemicolon hslash
    have hline := normalizeLine_opening hg (p := []) (by simpa using hv)
      (.of_not_mem (by simpa using hslash.symm)) hv hsemicolon rest
    rwa [lineTail_of_reads_nil hrest] at hline
  rcases hs with rfl | rfl <;> exact hbrace _ (by decide) (by decide) (by decide)

theorem isStructure_try (g : List Char) (hg : ∀ d ∈ g, isGap d = true) (rest : List Char) :
    isStructure (Keyword.try.text.toList ++ (g ++ '\x7b' :: rest)) = true := by
  have htry : after? "try" (Keyword.try.text.toList ++ (g ++ '\x7b' :: rest)) =
      some (g ++ '\x7b' :: rest) := rfl
  have hopens : opensTry (Keyword.try.text.toList ++ (g ++ '\x7b' :: rest)) = true := by
    unfold opensTry
    rw [htry, Option.bind_some, afterBlanks?_blanks_append (isBlank_of_gap hg)]
    rfl
  unfold isStructure
  rw [hopens]
  rfl

theorem catches_keyword {g : List Char} (hg : ∀ d ∈ g, isGap d = true) (rest : List Char) :
    catches (Keyword.catch.text.toList ++ (g ++ rest)) = (afterBlanks? '(' rest).isSome := by
  have hcatch : after? "catch" (Keyword.catch.text.toList ++ (g ++ rest)) = some (g ++ rest) := rfl
  unfold catches
  rw [hcatch, Option.bind_some, afterBlanks?_blanks_append (isBlank_of_gap hg)]

/-- What a line that begins with a brace closes and catches is told by the text behind the word. -/
theorem closesThenCatches_keyword {j : List Char} (hj : ∀ d ∈ j, isGap d = true) (rest : List Char) :
    closesThenCatches ('\x7d' :: (j ++ (Keyword.catch.text.toList ++ rest))) =
      (do
        let (_, rest) ← word? (trimStart (← afterBlanks? '(' rest))
        afterBlanks? '\x7b' (← afterBlanks? ')' rest)).isSome := by
  have hbrace : ∀ cs, after? "\x7d" ('\x7d' :: cs) = some cs := fun _ => rfl
  have hcatch : after? "catch" (Keyword.catch.text.toList ++ rest) = some rest := rfl
  unfold closesThenCatches
  rw [hbrace]
  simp only [Option.bind_eq_bind, Option.bind_some, trimStart_keyword hj, hcatch]

theorem closesThenCatches_handler {g j g₁ g₂ g₃ g₄ w : List Char} {c : Char}
    (hg : ∀ d ∈ g, isGap d = true) (hj : ∀ d ∈ j, isGap d = true) (hg₁ : ∀ d ∈ g₁, isGap d = true)
    (hg₂ : ∀ d ∈ g₂, isGap d = true) (hg₃ : ∀ d ∈ g₃, isGap d = true)
    (hg₄ : ∀ d ∈ g₄, isGap d = true) (hc : isNameStart c = true) (hw : ∀ d ∈ w, isNamePart d = true)
    (rest : List Char) :
    closesThenCatches (normalizeLine (g ++ '\x7d' :: (j ++ (Keyword.catch.text.toList ++
      (g₁ ++ '(' :: (g₂ ++ (c :: w ++ (g₃ ++ ')' :: (g₄ ++ '\x7b' :: rest))))))))) = true := by
  have hslash : '/' ∉ '\x7d' :: (j ++ (Keyword.catch.text.toList ++
      (g₁ ++ '(' :: (g₂ ++ (c :: w ++ (g₃ ++ ')' :: g₄)))))) := by
    have hname := slash_not_mem_name hc hw
    have hcatch : '/' ∉ Keyword.catch.text.toList := by decide
    simp only [List.mem_append, List.mem_cons, not_or] at hname ⊢
    exact ⟨by decide, not_mem_gap hj (by decide), hcatch, not_mem_gap hg₁ (by decide), by decide,
      not_mem_gap hg₂ (by decide), hname, not_mem_gap hg₃ (by decide), by decide,
      not_mem_gap hg₄ (by decide)⟩
  have hline := normalizeLine_opening hg (v := '\x7b') (p := '\x7d' :: (j ++
    (Keyword.catch.text.toList ++ (g₁ ++ '(' :: (g₂ ++ (c :: w ++ (g₃ ++ ')' :: g₄)))))))
    (by rintro d hd; cases hd; decide) (.of_not_mem ?_) (by decide) (by decide) rest
  · have hname : word? (c :: w ++ (g₃ ++ ')' :: (g₄ ++ '\x7b' :: lineTail rest))) =
        some (c :: w, g₃ ++ ')' :: (g₄ ++ '\x7b' :: lineTail rest)) := by
      refine word?_append (isWord_of_name hc hw) (head?_blanks_append (isBlank_of_gap hg₃) ?_)
        (List.cons_ne_nil _ _)
      rintro d hd
      cases hd
      decide
    have hstart : trimStart (c :: w ++ (g₃ ++ ')' :: (g₄ ++ '\x7b' :: lineTail rest))) =
        c :: w ++ (g₃ ++ ')' :: (g₄ ++ '\x7b' :: lineTail rest)) :=
      trimStart_cons (isBlank_of_isNamePart (isNamePart_of_isNameStart hc)) _
    simp only [List.append_assoc, List.cons_append] at hline hname hstart ⊢
    rw [hline, closesThenCatches_keyword hj]
    have hopen : ∀ cs, afterBlanks? '(' (g₁ ++ '(' :: cs) = some cs := fun cs => by
      rw [afterBlanks?_blanks_append (isBlank_of_gap hg₁)]
      rfl
    have hclose : ∀ cs, afterBlanks? ')' (g₃ ++ ')' :: cs) = some cs := fun cs => by
      rw [afterBlanks?_blanks_append (isBlank_of_gap hg₃)]
      rfl
    have hbrace : ∀ cs, afterBlanks? '\x7b' (g₄ ++ '\x7b' :: cs) = some cs := fun cs => by
      rw [afterBlanks?_blanks_append (isBlank_of_gap hg₄)]
      rfl
    simp only [Option.bind_eq_bind, hopen, Option.bind_some, trimStart_blanks_append (isBlank_of_gap hg₂),
      hstart, hname, hclose, hbrace, Option.isSome_some]
  · rw [List.mem_append, not_or]
    exact ⟨hslash, by decide⟩

/-- A line without words is empty in normal form. -/
theorem normalizeLine_nil (h : LineReads raw []) : normalizeLine raw = [] := by
  have htail := lineTail_of_reads_nil h
  unfold lineTail trimEnd at htail
  rw [List.reverse_eq_nil_iff, List.dropWhile_eq_nil_iff] at htail
  exact trim_eq_nil_iff.2 fun c hc => htail c (List.mem_reverse.2 hc)

/-- A brace alone, the beginning of a `try`, and a handler with its binding are structure. -/
theorem isStructure_header {h : Header} (hcondition : h.condition? = none) (hbranch : h.isBranch = false)
    (hreads : LineReads raw h.terminals) : isStructure (normalizeLine raw) = true := by
  cases h with
  | block =>
    rw [normalizeLine_brace (.inl rfl) hreads]
    rfl
  | tryOpens =>
    obtain ⟨g, rest, hg, rfl, -, hrest⟩ := LineReads.keyword hreads
    obtain ⟨g', rest, hg', rfl, -⟩ := hrest.symbol
    have hline := normalizeLine_keyword .try hg hg' (v := '\x7b') (by decide) (by decide) (by decide) rest
    rw [OpSymbol.chars, List.singleton_append, hline]
    exact isStructure_try g' hg' _
  | catchOpens closes binding =>
    cases binding with
    | none => cases hbranch
    | some n =>
      cases closes with
      | false =>
        obtain ⟨g, rest, hg, rfl, -, hrest⟩ := LineReads.keyword hreads
        obtain ⟨g', rest, hg', rfl, -⟩ := hrest.symbol
        have hline := normalizeLine_keyword .catch hg hg' (v := '(') (by decide) (by decide) (by decide)
          rest
        rw [OpSymbol.chars, List.singleton_append, hline]
        unfold isStructure
        rw [catches_keyword hg']
        simp [afterBlanks?_cons, isBlank]
      | true =>
        obtain ⟨g, rest, hg, rfl, hbrace⟩ := LineReads.symbol hreads
        obtain ⟨j, rest, hj, rfl, -, hword⟩ := LineReads.keyword hbrace
        obtain ⟨g₁, rest, hg₁, rfl, hparen⟩ := hword.symbol
        obtain ⟨g₂, c, w, rest, hg₂, rfl, -, hc, hw, -, hname⟩ := LineReads.identifier hparen
        obtain ⟨g₃, rest, hg₃, rfl, hclose⟩ := hname.symbol
        obtain ⟨g₄, rest, hg₄, rfl, -⟩ := hclose.symbol
        have hhandler := closesThenCatches_handler hg hj hg₁ hg₂ hg₃ hg₄ hc hw rest
        simp only [OpSymbol.chars, List.singleton_append]
        unfold isStructure
        rw [hhandler, Bool.or_true]
        rfl
  | ifOpens c => cases hcondition
  | whileOpens c => cases hcondition
  | elseIfOpens closes c => cases hbranch
  | elseOpens closes => cases hbranch

/-- A header with a condition is taken for a call of its word. -/
theorem condition_header {h : Header} {k : Keyword} (hcondition : h.condition? = some k)
    (hreads : LineReads raw h.terminals) :
    ∃ g tail, (∀ c ∈ g, isGap c = true) ∧ normalizeLine raw = k.text.toList ++ (g ++ '(' :: tail) ∧
      lineForm (normalizeLine raw) = .call ∧ isStructure (normalizeLine raw) = false := by
  obtain ⟨c, hk, hword⟩ : ∃ c, (k = .if ∨ k = .while) ∧
      h.terminals = .keyword k :: Header.conditionTerminals c := by
    cases h with
    | ifOpens c =>
      cases hcondition
      exact ⟨c, .inl rfl, rfl⟩
    | whileOpens c =>
      cases hcondition
      exact ⟨c, .inr rfl, rfl⟩
    | _ => cases hcondition
  rw [hword] at hreads
  obtain ⟨g, rest, hg, rfl, -, hrest⟩ := hreads.keyword
  obtain ⟨g', rest, hg', rfl, -⟩ := LineReads.symbol hrest
  have hline := normalizeLine_keyword k hg hg' (v := '(') (by decide) (by decide) (by decide) rest
  rw [OpSymbol.chars, List.singleton_append, hline]
  refine ⟨g', lineTail rest, hg', rfl, ?_, ?_⟩
  · have hhead : declarationHead? (k.text.toList ++ (g' ++ '(' :: lineTail rest)) = none := by
      rcases hk with rfl | rfl <;> rfl
    rw [lineForm_of_declarationHead?_eq_none hhead, isCallStart_paren k hg']
    rfl
  · rcases hk with rfl | rfl <;> rfl

/-- What follows the word of another branch: the brace, or the next condition. -/
theorem branch_word {g : List Char} {k : Keyword} (hk : k = .else ∨ k = .catch) {v : Char}
    (hg : ∀ d ∈ g, isGap d = true) (hv : v = '\x7b' ∨ v = 'i' ∧ g ≠ []) (rest : List Char) :
    lineForm (k.text.toList ++ (g ++ v :: rest)) = .other ∧
      isStructure (k.text.toList ++ (g ++ v :: rest)) = false := by
  have hblank : isBlank v = false ∧ v ≠ '(' ∧ after? "=" (skipArithmetic (v :: rest)) = none := by
    rcases hv with rfl | ⟨rfl, -⟩ <;> exact ⟨by decide, by decide, rfl⟩
  have hends : ∀ d ∈ (g ++ v :: rest).head?, isWord d = false := by
    rcases hv with rfl | ⟨rfl, hne⟩
    · refine head?_blanks_append (isBlank_of_gap hg) ?_
      rintro d hd
      cases hd
      decide
    · cases g with
      | nil => exact absurd rfl hne
      | cons a g =>
        rintro d hd
        cases hd
        exact isWord_of_isBlank (isBlank_of_gap hg _ List.mem_cons_self)
  have hparen : afterBlanks? '(' (g ++ v :: rest) = none := by
    rw [afterBlanks?_blanks_append (isBlank_of_gap hg), afterBlanks?_cons hblank.1, if_neg hblank.2.1]
  constructor
  · obtain ⟨c, w, hchars, hc, hw⟩ := keyword_text_shape k
    have hhead : declarationHead? (k.text.toList ++ (g ++ v :: rest)) = none := by
      rcases hk with rfl | rfl <;> rfl
    rw [hchars] at hhead ⊢
    exact lineForm_word hhead hc (fun d hd => isWord_of_isNamePart (hw d hd)) hends hg hblank.1
      hblank.2.1 hblank.2.2
  · rcases hk with rfl | rfl
    · rfl
    · have hcatch := catches_keyword hg (v :: rest)
      rw [afterBlanks?_cons hblank.1, if_neg hblank.2.1] at hcatch
      unfold isStructure
      rw [hcatch]
      rfl

/-- The same behind the brace of the block before. -/
theorem branch_brace {j g : List Char} {k : Keyword} (hk : k = .else ∨ k = .catch) {v : Char}
    (hj : ∀ d ∈ j, isGap d = true) (hg : ∀ d ∈ g, isGap d = true) (hv : isBlank v = false)
    (hparen : v ≠ '(') (rest : List Char) :
    isStructure ('\x7d' :: (j ++ (k.text.toList ++ (g ++ v :: rest)))) = false := by
  have hcloses : closesThenCatches ('\x7d' :: (j ++ (k.text.toList ++ (g ++ v :: rest)))) = false := by
    rcases hk with rfl | rfl
    · have hbrace : ∀ cs, after? "\x7d" ('\x7d' :: cs) = some cs := fun _ => rfl
      have hword : after? "catch" (Keyword.else.text.toList ++ (g ++ v :: rest)) = none := rfl
      unfold closesThenCatches
      rw [hbrace]
      simp only [Option.bind_eq_bind, Option.bind_some, trimStart_keyword hj, hword, Option.bind_none,
        Option.isSome_none]
    · rw [closesThenCatches_keyword hj, afterBlanks?_blanks_append (isBlank_of_gap hg),
        afterBlanks?_cons hv, if_neg hparen]
      rfl
  have halone : '\x7d' :: (j ++ (k.text.toList ++ (g ++ v :: rest))) ≠ ['\x7d'] := by simp
  have hopens : opensTry ('\x7d' :: (j ++ (k.text.toList ++ (g ++ v :: rest)))) = false := rfl
  have hcatches : catches ('\x7d' :: (j ++ (k.text.toList ++ (g ++ v :: rest)))) = false := rfl
  unfold isStructure
  rw [hopens, hcloses, hcatches]
  simp [halone]

/-- The terminals of another branch: perhaps a brace, the word, and the brace or the next condition. -/
theorem terminals_of_isBranch {h : Header} (hbranch : h.isBranch = true) :
    ∃ closes k t ts, (k = .else ∨ k = .catch) ∧ (t = .symbol .leftBrace ∨ t = .keyword .if) ∧
      h.terminals = Header.closing closes ++ .keyword k :: t :: ts := by
  cases h with
  | elseIfOpens closes c => exact ⟨closes, .else, _, _, .inl rfl, .inr rfl, rfl⟩
  | elseOpens closes => exact ⟨closes, .else, _, _, .inl rfl, .inl rfl, rfl⟩
  | catchOpens closes binding =>
    cases binding with
    | none => exact ⟨closes, .catch, _, _, .inr rfl, .inl rfl, rfl⟩
    | some n => cases hbranch
  | _ => cases hbranch

theorem reads_branch {k : Keyword} {t : Token} {ts : List Token}
    (ht : t = .symbol .leftBrace ∨ t = .keyword .if) (h : LineReads raw (.keyword k :: t :: ts)) :
    ∃ g g' v rest, (∀ c ∈ g, isGap c = true) ∧ (∀ c ∈ g', isGap c = true) ∧
      raw = g ++ (k.text.toList ++ (g' ++ v :: rest)) ∧ (v = '\x7b' ∨ v = 'i' ∧ g' ≠ []) := by
  obtain ⟨g, rest, hg, rfl, hends, hrest⟩ := h.keyword
  rcases ht with rfl | rfl
  · obtain ⟨g', rest, hg', rfl, -⟩ := hrest.symbol
    exact ⟨g, g', _, rest, hg, hg', rfl, .inl rfl⟩
  · obtain ⟨g', rest, hg', rfl, -, -⟩ := hrest.keyword
    refine ⟨g, g', 'i', 'f' :: rest, hg, hg', rfl, .inr ⟨rfl, ?_⟩⟩
    rintro rfl
    have := hends 'i' rfl
    revert this
    decide

/-- A header of another branch is no statement that validation knows. -/
theorem branch_header {h : Header} (hbranch : h.isBranch = true) (hreads : LineReads raw h.terminals) :
    normalizeLine raw ≠ [] ∧ lineForm (normalizeLine raw) = .other ∧
      isStructure (normalizeLine raw) = false := by
  obtain ⟨closes, k, t, ts, hk, ht, hterminals⟩ := terminals_of_isBranch hbranch
  rw [hterminals] at hreads
  cases closes with
  | false =>
    obtain ⟨g, g', v, rest, hg, hg', rfl, hv⟩ := reads_branch ht hreads
    have hplain : isBlank v = false ∧ v ≠ '/' ∧ v ≠ ';' := by
      rcases hv with rfl | ⟨rfl, -⟩ <;> decide
    rw [normalizeLine_keyword k hg hg' hplain.1 hplain.2.1 hplain.2.2]
    refine ⟨?_, branch_word hk hg' hv _⟩
    rcases hk with rfl | rfl <;> exact List.cons_ne_nil _ _
  | true =>
    obtain ⟨g, rest, hg, rfl, hrest⟩ := LineReads.symbol hreads
    obtain ⟨j, g', v, rest, hj, hg', rfl, hv⟩ := reads_branch ht hrest
    have hplain : isBlank v = false ∧ v ≠ '/' ∧ v ≠ ';' ∧ v ≠ '(' := by
      rcases hv with rfl | ⟨rfl, -⟩ <;> decide
    rw [OpSymbol.chars, List.singleton_append,
      normalizeLine_brace_keyword hg hg' hj k hplain.1 hplain.2.1 hplain.2.2.1]
    exact ⟨List.cons_ne_nil _ _, lineForm_brace _, branch_brace hk hj hg' hplain.1 hplain.2.2.2 _⟩

end Check

end EvlCheck
