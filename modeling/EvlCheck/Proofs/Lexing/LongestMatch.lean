/-
The lexer takes the longest match. At each place it emits the longest head of the remaining text
that is a word of some terminal, and no other word is as long; an error token stands exactly where a
string or a comment is opened and never closed, or where a character begins no word at all.

Per kind of lexeme there are two facts: what is taken is a word, and every word that begins the same
way is no longer. For strings and block comments the second is exactness: the scanner closes at the
word's last character, so it finds a word whenever there is one.
-/
import EvlCheck.Proofs.Lexing.Terminal
import Mathlib.Data.List.TakeWhile
import Mathlib.Tactic.SplitIfs

namespace EvlCheck.Lexing

open EvlCheck.Text

/-! ## The longest word, and text without one -/

/-- The characters at the head of a text are a word of the token's terminal, and every other word
at the head of the text is shorter. -/
structure Longest (cs taken : List Char) (t : Token) : Prop where
  at_head : taken <+: cs
  spells : Spells taken t
  longest : ∀ w u, w <+: cs → Spells w u → w.length < taken.length ∨ (w = taken ∧ u = t)

/-- The piece at the head of a text is no word. -/
inductive Faulty : List Char → List Char → Prop
  /-- A quote that opens no string takes the rest of its line. -/
  | unclosedString {rest : List Char} (none : ∀ w s, w <+: '"' :: rest → ¬ Spells w (.string s)) :
      Faulty ('"' :: rest) ('"' :: rest.takeWhile fun c => c != '\r' && c != '\n')
  /-- A comment without a closing mark takes the rest of the source. -/
  | unclosedComment {rest : List Char} (none : ¬ ['*', '/'] <:+: rest) :
      Faulty ('/' :: '*' :: rest) ('/' :: '*' :: rest)
  /-- Any other character that begins no word stands alone. -/
  | stray {c : Char} {rest : List Char} (quote : c ≠ '"')
      (none : ∀ w t, w <+: c :: rest → ¬ Spells w t) : Faulty (c :: rest) [c]

/-- A word that is as long as all others is longer than them. -/
theorem Longest.of_le {cs taken : List Char} {t : Token} (hp : taken <+: cs) (hs : Spells taken t)
    (h : ∀ w u, w <+: cs → Spells w u → w.length ≤ taken.length) : Longest cs taken t := by
  refine ⟨hp, hs, fun w u hw hu => ?_⟩
  rcases Nat.lt_or_eq_of_le (h w u hw hu) with hlt | heq
  · exact .inl hlt
  · have hwt : w = taken := by
      rw [List.prefix_iff_eq_take.1 hw, List.prefix_iff_eq_take.1 hp, heq]
    subst hwt
    exact .inr ⟨rfl, hu.unique hs⟩

/-- Where a word stands, nothing is at fault, save an open comment. -/
theorem not_faulty {cs w : List Char} {t : Token} (hw : w <+: cs) (hs : Spells w t)
    (hc : ∀ rest, cs = '/' :: '*' :: rest → ['*', '/'] <:+: rest) (v : List Char) :
    ¬ Faulty cs v := by
  intro hf
  cases hf with
  | unclosedString none =>
    obtain ⟨c, w, rfl⟩ := hs.exists_cons
    obtain ⟨rfl, -⟩ := List.cons_prefix_cons.1 hw
    exact none _ _ hw ((hs.of_quote rfl).1 ▸ hs)
  | unclosedComment none => exact none (hc _ rfl)
  | stray quote none => exact none _ _ hw hs

theorem length_le_takeWhile {p : Char → Bool} {w cs : List Char} (hw : w <+: cs)
    (hp : ∀ c ∈ w, p c = true) : w.length ≤ (cs.takeWhile p).length := by
  obtain ⟨more, rfl⟩ := hw
  rw [List.takeWhile_append_of_pos hp, List.length_append]
  omega

theorem takeWhile_append_of_stop {p : Char → Bool} {w rest : List Char} (hw : ∀ c ∈ w, p c = true)
    (hrest : ∀ c ∈ rest.head?, p c = false) : (w ++ rest).takeWhile p = w := by
  rw [List.takeWhile_append_of_pos hw]
  cases rest with
  | nil => rw [List.takeWhile_nil, List.append_nil]
  | cons c rest => rw [List.takeWhile_cons_of_neg (by simp [hrest c rfl]), List.append_nil]

theorem dropWhile_append_of_stop {p : Char → Bool} {w rest : List Char} (hw : ∀ c ∈ w, p c = true)
    (hrest : ∀ c ∈ rest.head?, p c = false) : (w ++ rest).dropWhile p = rest := by
  rw [List.dropWhile_append_of_pos hw]
  cases rest with
  | nil => rfl
  | cons c rest => rw [List.dropWhile_cons_of_neg (by simp [hrest c rfl])]

/-- A word at the head of a text begins with the character that the text begins with. -/
theorem Spells.head_of_isPrefix {c : Char} {rest w : List Char} {t : Token} (hs : Spells w t)
    (hw : w <+: c :: rest) : ∃ more, w = c :: more ∧ more <+: rest := by
  obtain ⟨d, more, rfl⟩ := hs.exists_cons
  obtain ⟨rfl, h⟩ := List.cons_prefix_cons.1 hw
  exact ⟨more, rfl, h⟩

/-! ## Strings -/

/-- The scan of a string closes at the quote behind a well-formed inside. -/
theorem closeString_body {body : List Char} (hb : StringBody body) (taken rest : List Char) :
    closeString taken (body ++ '"' :: rest) = (taken.reverse ++ (body ++ ['"']), rest, true) := by
  induction hb generalizing taken with
  | nil => simp [closeString]
  | plain quote backslash cr lf body ih => simp [closeString, isLineEnd, backslash, cr, lf, ih]
  | escape cr lf body ih => simp [closeString, isLineEnd, cr, lf, ih]

theorem body_of_closeString {taken cs piece rest : List Char}
    (h : closeString taken cs = (piece, rest, true)) :
    ∃ body, StringBody body ∧ piece = taken.reverse ++ (body ++ ['"']) := by
  fun_induction closeString taken cs with
  | case1 | case3 | case4 | case6 => simp at h
  | case2 taken r =>
    simp only [Prod.mk.injEq, and_true] at h
    obtain ⟨rfl, -⟩ := h
    exact ⟨[], .nil, by simp⟩
  | case5 taken c r hc ih =>
    simp only [isLineEnd, Bool.or_eq_true, beq_iff_eq, not_or] at hc
    obtain ⟨body, hb, rfl⟩ := ih h
    exact ⟨'\\' :: c :: body, .escape hc.1 hc.2 hb, by simp⟩
  | case7 taken c r quote lone pair hc ih =>
    simp only [isLineEnd, Bool.or_eq_true, beq_iff_eq, not_or] at hc
    obtain ⟨body, hb, rfl⟩ := ih h
    have backslash : c ≠ '\\' := by
      rintro rfl
      cases r with
      | nil => exact lone rfl rfl
      | cons d r => exact pair d r rfl rfl
    exact ⟨c :: body, .plain quote backslash hc.1 hc.2 hb, by simp⟩

/-- A string that is never closed takes the rest of the line. -/
theorem taken_of_closeString {taken cs piece rest : List Char}
    (h : closeString taken cs = (piece, rest, false)) :
    piece = taken.reverse ++ cs.takeWhile fun c => c != '\r' && c != '\n' := by
  fun_induction closeString taken cs with
  | case1 | case3 => simp at h; simp [h]
  | case2 => simp at h
  | case4 taken c r hc =>
    simp only [isLineEnd, Bool.or_eq_true, beq_iff_eq] at hc
    simp only [Prod.mk.injEq, and_true] at h
    obtain ⟨rfl, -⟩ := h
    rcases hc with rfl | rfl <;> simp
  | case5 taken c r hc ih =>
    simp only [isLineEnd, Bool.or_eq_true, beq_iff_eq, not_or] at hc
    rw [ih h]
    simp [hc]
  | case6 taken c r quote lone pair hc =>
    simp only [isLineEnd, Bool.or_eq_true, beq_iff_eq] at hc
    simp only [Prod.mk.injEq, and_true] at h
    obtain ⟨rfl, -⟩ := h
    rcases hc with rfl | rfl <;> simp
  | case7 taken c r quote lone pair hc ih =>
    simp only [isLineEnd, Bool.or_eq_true, beq_iff_eq, not_or] at hc
    rw [ih h]
    simp [hc]

/-! ## Block comments -/

theorem mark_prefix_iff {c : Char} {cs : List Char} :
    ['*', '/'] <+: c :: cs ↔ c = '*' ∧ ∃ rest, cs = '/' :: rest := by
  rw [List.cons_prefix_cons]
  refine and_congr eq_comm ⟨?_, ?_⟩
  · rintro ⟨rest, rfl⟩; exact ⟨rest, rfl⟩
  · rintro ⟨rest, rfl⟩; exact ⟨rest, rfl⟩

/-- The scan of a comment closes at the first closing mark. -/
theorem closeComment_first {body : List Char} (h : ¬ ['*', '/'] <:+: body ++ ['*'])
    (taken rest : List Char) :
    closeComment taken (body ++ '*' :: '/' :: rest) =
      (taken.reverse ++ (body ++ ['*', '/']), some rest) := by
  induction body generalizing taken with
  | nil => simp [closeComment]
  | cons c body ih =>
    rw [List.cons_append, List.infix_cons_iff, not_or] at h
    have hmark : ∀ r, c = '*' → body ++ '*' :: '/' :: rest = '/' :: r → False := by
      rintro r rfl hr
      cases body with
      | nil => cases hr
      | cons d body =>
        cases hr
        exact h.1 (mark_prefix_iff.2 ⟨rfl, _, rfl⟩)
    rw [List.cons_append, closeComment.eq_3 _ _ _ hmark, ih h.2]
    simp

theorem body_of_closeComment {taken cs piece rest : List Char}
    (h : closeComment taken cs = (piece, some rest)) :
    ∃ body, ¬ ['*', '/'] <:+: body ++ ['*'] ∧ cs = body ++ '*' :: '/' :: rest ∧
      piece = taken.reverse ++ (body ++ ['*', '/']) := by
  fun_induction closeComment taken cs with
  | case1 => simp at h
  | case2 taken r =>
    simp only [Prod.mk.injEq, Option.some.injEq] at h
    obtain ⟨rfl, rfl⟩ := h
    exact ⟨[], by decide, rfl, by simp⟩
  | case3 taken c r hmark ih =>
    obtain ⟨body, hb, rfl, rfl⟩ := ih h
    refine ⟨c :: body, ?_, rfl, by simp⟩
    rw [List.cons_append, List.infix_cons_iff, not_or]
    refine ⟨fun hp => ?_, hb⟩
    obtain ⟨rfl, r, hr⟩ := mark_prefix_iff.1 hp
    cases body with
    | nil => cases hr
    | cons d body => cases hr; exact hmark _ rfl rfl

theorem not_infix_of_closeComment {taken cs piece : List Char}
    (h : closeComment taken cs = (piece, none)) : ¬ ['*', '/'] <:+: cs := by
  fun_induction closeComment taken cs with
  | case1 => simp
  | case2 taken r => simp at h
  | case3 taken c r hmark ih =>
    rw [List.infix_cons_iff]
    rintro (hp | hi)
    · obtain ⟨rfl, r, rfl⟩ := mark_prefix_iff.1 hp
      exact hmark r rfl rfl
    · exact ih h hi

/-! ## Each kind of lexeme -/

theorem symbol_chars_length_le (s : OpSymbol) : s.chars.length ≤ 2 := by cases s <;> decide

/-- A lexeme is what the head of a text is to be read as: its longest word where nothing is at
fault, and else the piece at fault. A lexeme over a limit is not judged. -/
def Reads (cs : List Char) (l : Lexeme) : Prop :=
  match l.outcome with
  | .ok t => Longest cs l.taken t ∧ ∀ v, ¬ Faulty cs v
  | .error f => f.isBreach = false → Faulty cs l.taken

theorem Reads.of_longest {cs : List Char} {l : Lexeme} {t : Token}
    (hl : Longest cs l.taken t) (hf : ∀ v, ¬ Faulty cs v)
    (ho : l.outcome = .ok t ∨ ∃ f, l.outcome = .error f ∧ f.isBreach = true) : Reads cs l := by
  unfold Reads
  rcases ho with ho | ⟨f, ho, hb⟩
  · rw [ho]; exact ⟨hl, hf⟩
  · rw [ho]
    intro h
    rw [hb] at h; cases h

/-- Where only a limit can stop a lexeme, there is its token or a breach. -/
theorem outcome_of_limit {exceeded : Prop} [Decidable exceeded] {f : LexFault} {t : Token}
    (hf : f.isBreach = true) {o : Except LexFault Token}
    (ho : o = if exceeded then .error f else .ok t) :
    o = .ok t ∨ ∃ f, o = .error f ∧ f.isBreach = true := by
  by_cases h : exceeded
  · exact .inr ⟨f, by rw [ho, if_pos h], hf⟩
  · exact .inl (by rw [ho, if_neg h])

theorem reads_gap {c : Char} {rest : List Char} (hc : isGap c = true) :
    Reads (c :: rest)
      (scanWhile isGap (c :: rest) fun taken => .ok (.whitespace (String.ofList taken))) := by
  have hs : Spells ((c :: rest).takeWhile isGap)
      (.whitespace (String.ofList ((c :: rest).takeWhile isGap))) :=
    .whitespace (by simp [hc]) fun d hd => (isGap_iff d).1 (List.mem_takeWhile_imp hd)
  refine .of_longest (.of_le (List.takeWhile_prefix _) hs fun w u hw hu => ?_)
    (not_faulty (List.takeWhile_prefix _) hs ?_) (.inl rfl)
  · obtain ⟨more, rfl, -⟩ := hu.head_of_isPrefix hw
    exact length_le_takeWhile hw (hu.of_gap rfl hc).2
  · rintro r hr
    cases hr
    exact absurd hc (by decide)

theorem reads_lineComment [Build] (body : List Char) :
    Reads ('/' :: '/' :: body) (scanLineComment ('/' :: '/' :: body)) := by
  have htaken : ('/' :: '/' :: body).takeWhile (fun c => !isLineEnd c) =
      '/' :: '/' :: body.takeWhile fun c => !isLineEnd c := by
    simp [isLineEnd]
  have hline : ∀ c ∈ body.takeWhile (fun c => !isLineEnd c), c ≠ '\r' ∧ c ≠ '\n' := by
    intro c hc
    simpa [isLineEnd] using List.mem_takeWhile_imp hc
  have hs := Spells.lineComment hline
  rw [← htaken] at hs
  refine .of_longest (.of_le (List.takeWhile_prefix _) hs fun w u hw hu => ?_)
    (not_faulty (List.takeWhile_prefix _) hs (by rintro r hr; cases hr)) ?_
  · obtain ⟨more, rfl, hmore⟩ := hu.head_of_isPrefix hw
    rcases hu.of_other rfl (by decide) with ⟨s, rfl, hs'⟩ | ⟨-, b, hb, hline'⟩ | ⟨-, b, hb, -⟩
    -- A comment has the two slashes at least, and no symbol has more characters.
    · have := symbol_chars_length_le s
      rw [hs'] at this
      have hlen : (scanLineComment ('/' :: '/' :: body)).taken.length =
          (body.takeWhile fun c => !isLineEnd c).length + 2 := congrArg List.length htaken
      omega
    · refine length_le_takeWhile hw fun d hd => ?_
      rw [hb] at hd
      rcases List.mem_cons.1 hd with rfl | hd
      · rfl
      rcases List.mem_cons.1 hd with rfl | hd
      · rfl
      · simpa [isLineEnd] using hline' d hd
    · cases hb; obtain ⟨h, -⟩ := List.cons_prefix_cons.1 hmore; cases h
  · exact outcome_of_limit rfl rfl

theorem reads_blockComment [Build] (body : List Char) :
    Reads ('/' :: '*' :: body) (scanBlockComment body) := by
  unfold scanBlockComment
  cases h : closeComment ['*', '/'] body with
  | mk taken rest =>
    cases rest with
    | none =>
      -- the scan looks for the mark everywhere, so there is none
      have htaken := closeComment_none h
      simp only [List.reverse_cons, List.reverse_nil, List.nil_append, List.cons_append] at htaken
      rw [htaken]
      exact fun _ => .unclosedComment (not_infix_of_closeComment h)
    | some rest =>
      obtain ⟨inner, hfirst, rfl, htaken⟩ := body_of_closeComment h
      simp only [List.reverse_cons, List.reverse_nil, List.nil_append, List.cons_append] at htaken
      subst htaken
      have hs := Spells.blockComment hfirst
      have hp : '/' :: '*' :: (inner ++ ['*', '/']) <+: '/' :: '*' :: (inner ++ '*' :: '/' :: rest) :=
        ⟨rest, by simp⟩
      refine .of_longest (.of_le hp hs fun w u hw hu => ?_) (not_faulty hp hs ?_) ?_
      · obtain ⟨more, rfl, hmore⟩ := hu.head_of_isPrefix hw
        rcases hu.of_other rfl (by decide) with ⟨s, rfl, hs'⟩ | ⟨-, b, hb, -⟩ | ⟨-, b, hb, hfirst'⟩
        · have := symbol_chars_length_le s
          rw [hs'] at this
          simp only [List.length_cons] at this ⊢
          omega
        · cases hb; obtain ⟨h, -⟩ := List.cons_prefix_cons.1 hmore; cases h
        · -- both comments close at their first mark, so the scan takes either
          cases hb
          obtain ⟨-, after, hafter⟩ := List.cons_prefix_cons.1 hmore
          have h' := closeComment_first hfirst' ['*', '/'] after
          rw [show b ++ '*' :: '/' :: after = inner ++ '*' :: '/' :: rest by simpa using hafter, h] at h'
          have := congrArg (fun p => p.1.length) h'
          simp at this ⊢
          omega
      · rintro r hr
        cases hr
        exact ⟨inner, rest, by simp⟩
      · exact outcome_of_limit rfl rfl

/-- A word that begins with a digit has only digits, or digits behind a point that follows all the
digits at the head of the text. -/
theorem Spells.digits_or_point {c : Char} {rest w : List Char} {t : Token} (hs : Spells w t)
    (hw : w <+: c :: rest) (hc : c.isDigit = true) :
    (∀ d ∈ w, d.isDigit = true) ∨
      ∃ part after, part ≠ [] ∧ (∀ d ∈ part, d.isDigit = true) ∧
        w = (c :: rest).takeWhile Char.isDigit ++ '.' :: part ∧
        (c :: rest).dropWhile Char.isDigit = '.' :: (part ++ after) := by
  obtain ⟨more, rfl, after, rfl⟩ := hs.head_of_isPrefix hw
  rcases hs.of_digit rfl hc with ⟨-, hall⟩ | ⟨-, whole, part, hwp, hne, hwhole, hpart⟩
  · exact .inl hall
  · -- the digits before the point of the word are those that the scan takes first
    have htext : c :: (more ++ after) = whole ++ '.' :: (part ++ after) := by
      rw [← List.cons_append, hwp, List.append_assoc]
      rfl
    refine .inr ⟨part, after, hne, hpart, ?_, ?_⟩
    · rw [htext, List.takeWhile_append_of_pos hwhole, hwp]
      simp [show Char.isDigit '.' = false from rfl]
    · rw [htext, List.dropWhile_append_of_pos hwhole]
      simp [show Char.isDigit '.' = false from rfl]

section

variable {c : Char} {rest : List Char} (hc : c.isDigit = true)
include hc

theorem no_comment_of_digit : ∀ r, c :: rest = '/' :: '*' :: r → ['*', '/'] <:+: r := by
  rintro r hr
  cases hr
  exact absurd hc (by decide)

theorem takeWhile_digits_ne_nil : (c :: rest).takeWhile Char.isDigit ≠ [] := by simp [hc]

/-- Without a digit behind a point, no word goes on behind the digits. -/
theorem reads_integer (hend : ∀ part after : List Char, part ≠ [] →
      (∀ d ∈ part, d.isDigit = true) → (c :: rest).dropWhile Char.isDigit ≠ '.' :: (part ++ after))
    (tail : List Char) :
    Reads (c :: rest) ⟨(c :: rest).takeWhile Char.isDigit, tail,
      .ok (.integer (String.ofList ((c :: rest).takeWhile Char.isDigit)))⟩ := by
  have hne : (c :: rest).takeWhile Char.isDigit ≠ [] := takeWhile_digits_ne_nil hc
  have hs := Spells.integer hne fun d hd => List.mem_takeWhile_imp hd
  have hp : (c :: rest).takeWhile Char.isDigit <+: c :: rest := List.takeWhile_prefix _
  refine .of_longest (.of_le hp hs fun w u hw hu => ?_) (not_faulty hp hs (no_comment_of_digit hc))
    (.inl rfl)
  rcases hu.digits_or_point hw hc with hall | ⟨part, after, hpart_ne, hpart, -, hdrop⟩
  · exact length_le_takeWhile hw hall
  · exact absurd hdrop (hend part after hpart_ne hpart)

theorem reads_number : Reads (c :: rest) (scanNumber (c :: rest)) := by
  unfold scanNumber
  split
  · next d more hd =>
    split
    · next hdigit =>
      have hs : Spells
          ((c :: rest).takeWhile Char.isDigit ++ '.' :: (d :: more).takeWhile Char.isDigit) _ :=
        .real (takeWhile_digits_ne_nil hc) (by simp [hdigit]) (fun e he => List.mem_takeWhile_imp he)
          fun e he => List.mem_takeWhile_imp he
      have hp : (c :: rest).takeWhile Char.isDigit ++ '.' :: (d :: more).takeWhile Char.isDigit <+:
          c :: rest := by
        conv_rhs => rw [← List.takeWhile_append_dropWhile (p := Char.isDigit) (l := c :: rest), hd]
        rw [List.prefix_append_right_inj, List.cons_prefix_cons]
        exact ⟨rfl, List.takeWhile_prefix _⟩
      refine .of_longest (.of_le hp hs fun w u hw hu => ?_)
        (not_faulty hp hs (no_comment_of_digit hc)) (.inl rfl)
      rcases hu.digits_or_point hw hc with hall | ⟨part, after, -, hpart, rfl, hdrop⟩
      · have := length_le_takeWhile hw hall
        simp only [List.length_append]
        omega
      · rw [hd, List.cons.injEq] at hdrop
        have := length_le_takeWhile ⟨after, hdrop.2.symm⟩ hpart
        simp only [List.length_append, List.length_cons]
        omega
    · next hdigit =>
      -- a point without a digit behind it is a lexeme of its own
      refine reads_integer hc (fun part after hne hpart hdrop => ?_) _
      obtain ⟨e, part, rfl⟩ := List.exists_cons_of_ne_nil hne
      rw [hd] at hdrop
      cases hdrop
      exact hdigit (hpart d (by simp))
  · next hd =>
    refine reads_integer hc (fun part after hne hpart hdrop => ?_) _
    obtain ⟨e, part, rfl⟩ := List.exists_cons_of_ne_nil hne
    exact hd e (part ++ after) hdrop

end

theorem reads_string [Build] (rest : List Char) : Reads ('"' :: rest) (scanString rest) := by
  unfold scanString
  have hword : ∀ w u, w <+: '"' :: rest → Spells w u → ∃ body after,
      w = '"' :: (body ++ ['"']) ∧ closeString ['"'] rest = (w, after, true) := by
    intro w u hw hu
    obtain ⟨more, rfl, ⟨after, rfl⟩⟩ := hu.head_of_isPrefix hw
    obtain ⟨-, body, rfl, hbody⟩ := hu.of_quote rfl
    refine ⟨body, after, rfl, ?_⟩
    have := closeString_body hbody ['"'] after
    simpa using this
  cases h : closeString ['"'] rest with
  | mk taken p =>
    obtain ⟨after, closed⟩ := p
    cases closed with
    | true =>
      obtain ⟨body, hbody, rfl⟩ := body_of_closeString h
      have hs := Spells.string hbody
      have hp : '"' :: (body ++ ['"']) <+: '"' :: rest := ⟨after, by simpa using closeString_append h⟩
      refine .of_longest (.of_le hp hs fun w u hw hu => ?_)
        (not_faulty hp hs (by rintro r hr; cases hr)) ?_
      · obtain ⟨b, after', -, hw'⟩ := hword w u hw hu
        rw [h] at hw'
        cases hw'
        exact Nat.le_refl _
      · exact outcome_of_limit rfl rfl
    | false =>
      -- the scan would have closed at the end of a word
      intro _
      have htaken := taken_of_closeString h
      simp only [List.reverse_cons, List.reverse_nil, List.nil_append, List.cons_append] at htaken
      subst htaken
      refine .unclosedString fun w s hw hu => ?_
      obtain ⟨b, after', -, hw'⟩ := hword w _ hw hu
      rw [h] at hw'
      cases hw'

/-- The token that a word makes, reserved or not, is the one that it spells. -/
theorem spells_ofWord {c : Char} {cs : List Char} (hc : isNameStart c = true)
    (hcs : ∀ d ∈ cs, isNamePart d = true) :
    Spells (c :: cs) (.ofWord (String.ofList (c :: cs))) := by
  unfold Token.ofWord
  split
  · next k hk =>
    have := Spells.keyword k
    rwa [Keyword.text_of_ofText? hk, String.toList_ofList] at this
  · next hnone =>
    refine .identifier (by simpa [isNameStart] using hc)
      (fun d hd => by simpa [isNamePart] using hcs d hd) fun k hk => ?_
    rw [← hk, String.ofList_toList, Keyword.ofText?_text] at hnone
    cases hnone

theorem reads_word [Build] {c : Char} {rest : List Char} (hc : isNameStart c = true) :
    Reads (c :: rest) (scanWhile isNamePart (c :: rest) wordOutcome) := by
  have htaken : (c :: rest).takeWhile isNamePart = c :: rest.takeWhile isNamePart := by
    simp [isNamePart_of_isNameStart hc]
  have hpart : ∀ d ∈ rest.takeWhile isNamePart, isNamePart d = true :=
    fun d hd => List.mem_takeWhile_imp hd
  have hs := spells_ofWord hc hpart
  rw [← htaken] at hs
  have hp : (c :: rest).takeWhile isNamePart <+: c :: rest := List.takeWhile_prefix _
  refine .of_longest (.of_le hp hs fun w u hw hu => ?_) (not_faulty hp hs ?_) ?_
  · obtain ⟨more, rfl, -⟩ := hu.head_of_isPrefix hw
    refine length_le_takeWhile hw fun d hd => ?_
    rcases List.mem_cons.1 hd with rfl | hd
    · exact isNamePart_of_isNameStart hc
    · exact (hu.of_letter rfl hc).2 d hd
  · rintro r hr
    cases hr
    exact absurd hc (by decide)
  · exact outcome_of_limit rfl rfl

section

variable {c : Char} {rest : List Char} (hc : headKind c = .other)
  (hcomment : ∀ d r, c = '/' → rest = d :: r → d ≠ '/' ∧ d ≠ '*')
include hc hcomment

/-- Where no comment is opened, the words that begin with none of the other kinds of character are
symbols. -/
theorem Spells.exists_symbol {w : List Char} {t : Token} (hs : Spells w t) (hw : w <+: c :: rest) :
    ∃ s, s.chars = w ∧ t = .symbol s := by
  obtain ⟨more, rfl, hmore⟩ := hs.head_of_isPrefix hw
  rcases hs.of_other rfl hc with ⟨s, rfl, hs'⟩ | ⟨-, b, hb, -⟩ | ⟨-, b, hb, -⟩
  · exact ⟨s, hs', rfl⟩
  · cases hb
    obtain ⟨r, rfl⟩ := hmore
    exact absurd rfl (hcomment _ _ rfl rfl).1
  · cases hb
    obtain ⟨r, rfl⟩ := hmore
    exact absurd rfl (hcomment _ _ rfl rfl).2

theorem not_faulty_symbol {w : List Char} {s : OpSymbol} (hw : w <+: c :: rest)
    (hs : Spells w (.symbol s)) (v : List Char) : ¬ Faulty (c :: rest) v := by
  refine not_faulty hw hs (fun r hr => ?_) v
  cases hr
  exact absurd rfl (hcomment _ _ rfl rfl).2

/-- Where two characters are no symbol, a word has the first of them only. -/
theorem Spells.eq_single (hpair : ∀ d r, rest = d :: r → OpSymbol.ofChars? [c, d] = none)
    {w : List Char} {t : Token} (hs : Spells w t) (hw : w <+: c :: rest) :
    w = [c] ∧ ∃ s, OpSymbol.ofChars? [c] = some s := by
  obtain ⟨s, rfl, rfl⟩ := hs.exists_symbol hc hcomment hw
  obtain ⟨more, hchars, hmore⟩ := hs.head_of_isPrefix hw
  have hlen := symbol_chars_length_le s
  have hof := OpSymbol.ofChars?_chars s
  rw [hchars] at hof hlen ⊢
  match more, hmore with
  | [], _ => exact ⟨rfl, s, hof⟩
  | [d], ⟨r, hr⟩ =>
    rw [hpair d r hr.symm] at hof
    cases hof
  | _ :: _ :: _, _ => simp at hlen

theorem reads_single (hpair : ∀ d r, rest = d :: r → OpSymbol.ofChars? [c, d] = none) :
    Reads (c :: rest) (scanSingle c rest) := by
  unfold scanSingle
  split
  · next s hs =>
    have hword : Spells [c] (.symbol s) := OpSymbol.chars_of_ofChars? hs ▸ .symbol s
    have hp : [c] <+: c :: rest := ⟨rest, rfl⟩
    refine .of_longest (.of_le hp hword fun w u hw hu => ?_)
      (not_faulty_symbol hc hcomment hp hword) (.inl rfl)
    rw [(hu.eq_single hc hcomment hpair hw).1]
  · next hnone =>
    intro _
    refine .stray (by rintro rfl; cases hc) fun w u hw hu => ?_
    obtain ⟨-, s, hs⟩ := hu.eq_single hc hcomment hpair hw
    rw [hs] at hnone
    cases hnone

theorem reads_symbol : Reads (c :: rest) (scanSymbol c rest) := by
  unfold scanSymbol
  split
  · next d r =>
    split
    · next s hs =>
      have hword : Spells [c, d] (.symbol s) := OpSymbol.chars_of_ofChars? hs ▸ .symbol s
      have hp : [c, d] <+: c :: d :: r := ⟨r, rfl⟩
      refine .of_longest (.of_le hp hword fun w u hw hu => ?_)
        (not_faulty_symbol hc hcomment hp hword) (.inl rfl)
      -- no symbol is longer than the two characters
      obtain ⟨s', rfl, -⟩ := hu.exists_symbol hc hcomment hw
      exact symbol_chars_length_le s'
    · next hnone =>
      exact reads_single hc hcomment fun e r' h => by cases h; exact hnone
  · exact reads_single hc hcomment fun d r h => by cases h

end

/-! ## The lexer -/

/-- What the lexer takes next is what the head of the text is to be read as. -/
theorem reads_scan [Build] (c : Char) (rest : List Char) : Reads (c :: rest) (scan c rest) := by
  unfold scan
  split
  · next hc => exact reads_gap hc
  next hgap =>
  split
  · next h =>
    obtain ⟨rfl, h⟩ := h
    obtain ⟨body, rfl⟩ : ∃ body, rest = '/' :: body := by
      cases rest with
      | nil => cases h
      | cons d body => cases h; exact ⟨body, rfl⟩
    exact reads_lineComment body
  next hline =>
  split
  · next h =>
    obtain ⟨rfl, h⟩ := h
    obtain ⟨body, rfl⟩ : ∃ body, rest = '*' :: body := by
      cases rest with
      | nil => cases h
      | cons d body => cases h; exact ⟨body, rfl⟩
    exact reads_blockComment body
  next hblock =>
  split
  · next hc => exact reads_number hc
  next hdigit =>
  split
  · next hc => subst hc; exact reads_string rest
  next hquote =>
  split
  · next hc => exact reads_word hc
  next hletter =>
  refine reads_symbol (by simp [headKind, hgap, hdigit, hquote, hletter]) ?_
  rintro d r rfl rfl
  exact ⟨fun hd => hline ⟨rfl, by rw [hd]; rfl⟩, fun hd => hblock ⟨rfl, by rw [hd]; rfl⟩⟩

end EvlCheck.Lexing
