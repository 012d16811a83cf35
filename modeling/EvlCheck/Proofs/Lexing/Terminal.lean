/-
The languages of the terminals, said without the lexer. `Spells w t` holds when the characters `w`
are a word of the terminal of `t` and `t` is the token that they make. No word belongs to two
terminals (`Spells.unique`), since a reserved word is no name and any other two kinds differ in how
their words begin or, for the two kinds of number, in the point.
-/
import EvlCheck.Lexing.Scan
import Mathlib.Data.List.Infix

namespace EvlCheck.Lexing

open EvlCheck.Text

/-! ## The languages -/

/-- What stands between the quotes of a string: characters other than a quote, a backslash and a
line end, and pairs of a backslash and a character that is no line end. -/
inductive StringBody : List Char → Prop
  | nil : StringBody []
  | plain {c : Char} {cs : List Char} (quote : c ≠ '"') (backslash : c ≠ '\\') (cr : c ≠ '\r')
      (lf : c ≠ '\n') (body : StringBody cs) : StringBody (c :: cs)
  | escape {c : Char} {cs : List Char} (cr : c ≠ '\r') (lf : c ≠ '\n') (body : StringBody cs) :
      StringBody ('\\' :: c :: cs)

/-- The characters are a word of a terminal, and make the token. -/
inductive Spells : List Char → Token → Prop
  | whitespace {w : List Char} (nonempty : w ≠ [])
      (blank : ∀ c ∈ w, c = ' ' ∨ c = '\t' ∨ c = '\r' ∨ c = '\n') :
      Spells w (.whitespace (String.ofList w))
  | lineComment {body : List Char} (line : ∀ c ∈ body, c ≠ '\r' ∧ c ≠ '\n') :
      Spells ('/' :: '/' :: body) (.lineComment (String.ofList ('/' :: '/' :: body)))
  /-- The closing mark is the first one: none begins before its star. -/
  | blockComment {body : List Char} (first : ¬ ['*', '/'] <:+: body ++ ['*']) :
      Spells ('/' :: '*' :: (body ++ ['*', '/']))
        (.blockComment (String.ofList ('/' :: '*' :: (body ++ ['*', '/']))))
  | integer {w : List Char} (nonempty : w ≠ []) (digits : ∀ c ∈ w, c.isDigit) :
      Spells w (.integer (String.ofList w))
  | real {whole part : List Char} (whole_ne : whole ≠ []) (part_ne : part ≠ [])
      (whole_digits : ∀ c ∈ whole, c.isDigit) (part_digits : ∀ c ∈ part, c.isDigit) :
      Spells (whole ++ '.' :: part) (.real (String.ofList (whole ++ '.' :: part)))
  | string {body : List Char} (inside : StringBody body) :
      Spells ('"' :: (body ++ ['"'])) (.string (String.ofList ('"' :: (body ++ ['"']))))
  | symbol (s : OpSymbol) : Spells s.chars (.symbol s)
  | keyword (k : Keyword) : Spells k.text.toList (.keyword k)
  | identifier {c : Char} {cs : List Char} (start : c.isAlpha ∨ c = '_')
      (more : ∀ d ∈ cs, d.isAlphanum ∨ d = '_') (free : ∀ k : Keyword, k.text.toList ≠ c :: cs) :
      Spells (c :: cs) (.identifier (String.ofList (c :: cs)))

namespace Spells

variable {w : List Char} {t : Token} {c : Char}

/-- A token has the text that spells it. -/
theorem text_eq (h : Spells w t) : t.text = String.ofList w := by
  cases h with
  | symbol s => rfl
  | keyword k => rw [String.ofList_toList]; rfl
  | _ => rfl

theorem ne_eof (h : Spells w t) : t ≠ .eof := by rintro rfl; cases h

theorem ne_error (h : Spells w t) (s : String) : t ≠ .error s := by rintro rfl; cases h

end Spells

/-! ## The first character -/

/-- The kinds of character that a lexeme can begin with. -/
inductive HeadKind where
  | gap | digit | quote | letter | other
  deriving DecidableEq

/-- The kind of a character. -/
def headKind (c : Char) : HeadKind :=
  if isGap c then .gap
  else if c.isDigit then .digit
  else if c = '"' then .quote
  else if isNameStart c then .letter
  else .other

/-- The kind of character that the words of a token's terminal begin with. -/
def terminalHead : Token → HeadKind
  | .whitespace _ => .gap
  | .integer _ | .real _ => .digit
  | .string _ => .quote
  | .keyword _ | .identifier _ => .letter
  | _ => .other

theorem isGap_iff (c : Char) : isGap c = true ↔ c = ' ' ∨ c = '\t' ∨ c = '\r' ∨ c = '\n' := by
  simp [isGap, or_assoc]

theorem headKind_of_isGap {c : Char} (h : isGap c = true) : headKind c = .gap := if_pos h

theorem headKind_of_isDigit {c : Char} (h : c.isDigit = true) : headKind c = .digit := by
  have hg : isGap c = false := by
    by_contra hg
    rcases (isGap_iff c).1 (by simpa using hg) with rfl | rfl | rfl | rfl <;> exact absurd h (by decide)
  simp [headKind, hg, h]

theorem isDigit_eq_false_of_isNameStart {c : Char} (h : isNameStart c = true) :
    c.isDigit = false := by
  simp only [isNameStart, Bool.or_eq_true, beq_iff_eq] at h
  rcases h with h | rfl
  · cases hd : c.isDigit with
    | false => rfl
    | true =>
      obtain ⟨-, hd⟩ := Bool.and_eq_true_iff.1 (show (decide _ && decide _) = true from hd)
      have hnine : c.val.toNat ≤ 57 := UInt32.le_iff_toNat_le.1 (of_decide_eq_true hd)
      rcases Bool.or_eq_true_iff.1 (show (c.isUpper || c.isLower) = true from h) with h | h
      · have hupper : 65 ≤ c.val.toNat := UInt32.le_iff_toNat_le.1 (of_decide_eq_true h).1
        omega
      · obtain ⟨h, -⟩ := Bool.and_eq_true_iff.1 (show (decide _ && decide _) = true from h)
        have hlower : 97 ≤ c.val.toNat := UInt32.le_iff_toNat_le.1 (of_decide_eq_true h)
        omega
  · decide

theorem headKind_of_isNameStart {c : Char} (h : isNameStart c = true) : headKind c = .letter := by
  have hg : isGap c = false := by
    by_contra hg
    rcases (isGap_iff c).1 (by simpa using hg) with rfl | rfl | rfl | rfl <;> exact absurd h (by decide)
  have hq : c ≠ '"' := by rintro rfl; exact absurd h (by decide)
  simp [headKind, hg, hq, isDigit_eq_false_of_isNameStart h, h]

theorem keyword_text_shape (k : Keyword) :
    ∃ c cs, k.text.toList = c :: cs ∧ isNameStart c = true ∧ ∀ d ∈ cs, isNamePart d = true := by
  cases k <;> exact ⟨_, _, rfl, by decide, List.all_eq_true.1 (by decide)⟩

theorem headKind_symbol_chars (s : OpSymbol) :
    ∃ c cs, s.chars = c :: cs ∧ headKind c = .other := by
  cases s <;> exact ⟨_, _, rfl, by decide⟩

/-- What the kind of a character says of it. -/
theorem headKind_spec (c : Char) :
    match headKind c with
    | .gap => isGap c = true
    | .digit => c.isDigit = true
    | .quote => c = '"'
    | .letter => isNameStart c = true
    | .other => isGap c = false ∧ c.isDigit = false ∧ c ≠ '"' ∧ isNameStart c = false := by
  unfold headKind
  split_ifs <;> simp_all

theorem symbol_chars_ne_comment (s : OpSymbol) (body : List Char) :
    s.chars ≠ '/' :: '/' :: body ∧ s.chars ≠ '/' :: '*' :: body := by
  cases s <;> simp [OpSymbol.chars]

/-- The first character of a word tells which terminals it may belong to. -/
theorem Spells.terminalHead_eq {c : Char} {w : List Char} {t : Token} (h : Spells (c :: w) t) :
    terminalHead t = headKind c := by
  generalize hv : c :: w = v at h
  cases h with
  | whitespace nonempty blank =>
    subst hv
    exact (headKind_of_isGap ((isGap_iff c).2 (blank c (by simp)))).symm
  | lineComment line => cases hv; rfl
  | blockComment first => cases hv; rfl
  | integer nonempty digits => subst hv; exact (headKind_of_isDigit (digits c (by simp))).symm
  | @real whole part whole_ne part_ne whole_digits part_digits =>
    cases whole with
    | nil => exact absurd rfl whole_ne
    | cons d whole => cases hv; exact (headKind_of_isDigit (whole_digits c (by simp))).symm
  | string inside => cases hv; rfl
  | symbol s =>
    obtain ⟨d, ds, hs, hk⟩ := headKind_symbol_chars s
    rw [hs] at hv; cases hv; exact hk.symm
  | keyword k =>
    obtain ⟨d, ds, hs, hk, -⟩ := keyword_text_shape k
    rw [hs] at hv; cases hv; exact (headKind_of_isNameStart hk).symm
  | identifier start more free =>
    cases hv
    exact (headKind_of_isNameStart (by simpa [isNameStart] using start)).symm

/-! ## Words by their first character -/

namespace Spells

variable {c : Char} {w : List Char} {t u : Token}

theorem exists_cons (h : Spells w t) : ∃ c cs, w = c :: cs := by
  have hne : w ≠ [] := by
    cases h with
    | whitespace nonempty _ => exact nonempty
    | integer nonempty _ => exact nonempty
    | symbol s =>
      obtain ⟨c, cs, hs, -⟩ := headKind_symbol_chars s
      simp [hs]
    | keyword k =>
      obtain ⟨c, cs, hk, -⟩ := keyword_text_shape k
      simp [hk]
    | _ => simp
  exact List.exists_cons_of_ne_nil hne

variable {v : List Char}

theorem of_gap (h : Spells v t) (hv : v = c :: w) (hc : isGap c = true) :
    t = .whitespace (String.ofList v) ∧ ∀ d ∈ v, isGap d = true := by
  have hk := (hv ▸ h).terminalHead_eq
  rw [headKind_of_isGap hc] at hk
  cases h with
  | whitespace _ blank => exact ⟨rfl, fun d hd => (isGap_iff d).2 (blank d hd)⟩
  | _ => simp [terminalHead] at hk

theorem of_digit (h : Spells v t) (hv : v = c :: w) (hc : c.isDigit = true) :
    (t = .integer (String.ofList v) ∧ ∀ d ∈ v, d.isDigit = true) ∨
      (t = .real (String.ofList v) ∧ ∃ whole part, v = whole ++ '.' :: part ∧
        part ≠ [] ∧ (∀ d ∈ whole, d.isDigit = true) ∧ ∀ d ∈ part, d.isDigit = true) := by
  have hk := (hv ▸ h).terminalHead_eq
  rw [headKind_of_isDigit hc] at hk
  cases h with
  | integer _ digits => exact .inl ⟨rfl, digits⟩
  | real _ part_ne whole_digits part_digits =>
    exact .inr ⟨rfl, _, _, rfl, part_ne, whole_digits, part_digits⟩
  | _ => simp [terminalHead] at hk

theorem of_quote (h : Spells v t) (hv : v = '"' :: w) :
    t = .string (String.ofList v) ∧ ∃ body, w = body ++ ['"'] ∧ StringBody body := by
  have hk := (hv ▸ h).terminalHead_eq
  cases h with
  | string inside => cases hv; exact ⟨rfl, _, rfl, inside⟩
  | _ => simp [terminalHead, show headKind '"' = .quote from rfl] at hk

theorem of_letter (h : Spells v t) (hv : v = c :: w) (hc : isNameStart c = true) :
    t = .ofWord (String.ofList v) ∧ ∀ d ∈ w, isNamePart d = true := by
  have hk := (hv ▸ h).terminalHead_eq
  rw [headKind_of_isNameStart hc] at hk
  cases h with
  | keyword k =>
    obtain ⟨d, ds, hs, -, hmore⟩ := keyword_text_shape k
    refine ⟨by rw [String.ofList_toList, Token.ofWord_text], ?_⟩
    rw [hs] at hv; cases hv
    exact hmore
  | @identifier d ds start more free =>
    cases hv
    refine ⟨?_, fun d hd => by simpa [isNamePart] using more d hd⟩
    have hnone : Keyword.ofText? (String.ofList (c :: w)) = none := by
      by_contra hsome
      obtain ⟨k, hk'⟩ := Option.ne_none_iff_exists'.1 hsome
      exact free k (by rw [Keyword.text_of_ofText? hk', String.toList_ofList])
    rw [Token.ofWord, hnone]
  | _ => simp [terminalHead] at hk

theorem of_other (h : Spells v t) (hv : v = c :: w) (hc : headKind c = .other) :
    (∃ s, t = .symbol s ∧ s.chars = v) ∨
      (t = .lineComment (String.ofList v) ∧ ∃ body, v = '/' :: '/' :: body ∧
        ∀ d ∈ body, d ≠ '\r' ∧ d ≠ '\n') ∨
      (t = .blockComment (String.ofList v) ∧ ∃ body, v = '/' :: '*' :: (body ++ ['*', '/']) ∧
        ¬ ['*', '/'] <:+: body ++ ['*']) := by
  have hk := (hv ▸ h).terminalHead_eq
  rw [hc] at hk
  cases h with
  | symbol s => exact .inl ⟨s, rfl, rfl⟩
  | lineComment line => exact .inr (.inl ⟨rfl, _, rfl, line⟩)
  | blockComment first => exact .inr (.inr ⟨rfl, _, rfl, first⟩)
  | _ => simp [terminalHead] at hk

/-- No word belongs to two terminals. -/
theorem unique (h : Spells w t) (h' : Spells w u) : t = u := by
  obtain ⟨c, cs, hw⟩ := h.exists_cons
  have hc := headKind_spec c
  cases hk : headKind c with
  | gap =>
    rw [hk] at hc
    rw [(h.of_gap hw hc).1, (h'.of_gap hw hc).1]
  | digit =>
    rw [hk] at hc
    -- the words of a real hold a point, which is no digit
    have hpoint : ∀ whole part : List Char, w = whole ++ '.' :: part →
        ¬ ∀ d ∈ w, d.isDigit = true := by
      rintro whole part rfl hall
      exact absurd (hall '.' (by simp)) (by decide)
    rcases h.of_digit hw hc with ⟨rfl, hall⟩ | ⟨rfl, whole, part, hwp, -⟩ <;>
      rcases h'.of_digit hw hc with ⟨rfl, hall'⟩ | ⟨rfl, whole', part', hwp', -⟩
    · rfl
    · exact absurd hall (hpoint _ _ hwp')
    · exact absurd hall' (hpoint _ _ hwp)
    · rfl
  | quote =>
    rw [hk] at hc
    subst hc
    rw [(h.of_quote hw).1, (h'.of_quote hw).1]
  | letter =>
    rw [hk] at hc
    rw [(h.of_letter hw hc).1, (h'.of_letter hw hc).1]
  | other =>
    rcases h.of_other hw hk with ⟨s, rfl, hs⟩ | ⟨rfl, body, hb, -⟩ | ⟨rfl, body, hb, -⟩ <;>
      rcases h'.of_other hw hk with ⟨s', rfl, hs'⟩ | ⟨rfl, body', hb', -⟩ | ⟨rfl, body', hb', -⟩
    · rw [OpSymbol.chars_injective (hs.trans hs'.symm)]
    · exact absurd (hs.trans hb') (symbol_chars_ne_comment s body').1
    · exact absurd (hs.trans hb') (symbol_chars_ne_comment s _).2
    · exact absurd (hs'.trans hb) (symbol_chars_ne_comment s' body).1
    · rfl
    · rw [hb] at hb'; cases hb'
    · exact absurd (hs'.trans hb) (symbol_chars_ne_comment s' _).2
    · rw [hb] at hb'; cases hb'
    · rfl

end Spells

end EvlCheck.Lexing
