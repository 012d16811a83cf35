/-
The written form of an expression is lexed to what it was written from. Its tokens are the terminals
of the expression, with a blank on both sides of each binary operator and behind each comma, and with
a square bracket, which belongs to no terminal, before and behind each binary operation.

No two of these tokens run into one another: every word of an expression stops at a blank, a comma, a
bracket and a parenthesis (`stops_delimiter`), and where something else follows, namely behind a minus
sign, an opening parenthesis and a blank, it is the first character of an expression or an operator,
at which these three stop (`Fresh`).
-/
import EvlCheck.Proofs.Lexing.Reading
import EvlCheck.Proofs.Tree.Grammar

namespace EvlCheck

namespace Expr

/-! ## Tokens of the written form -/

/-- The tokens of the written form, brackets and blanks included. -/
def written : Expr → List Token
  | .unaryMinus e _ => .symbol .minus :: e.written
  | .paren e _ => .symbol .leftParen :: (e.written ++ [.symbol .rightParen])
  | .cast e t _ =>
    .keyword .cast :: .symbol .leftParen ::
      (e.written ++ [.symbol .comma, .whitespace " ", .keyword t.keyword, .symbol .rightParen])
  | .unaryCall f e _ =>
    .keyword f.keyword :: .symbol .leftParen :: (e.written ++ [.symbol .rightParen])
  | .binaryCall f a b _ =>
    .keyword f.keyword :: .symbol .leftParen ::
      (a.written ++ .symbol .comma :: .whitespace " " :: (b.written ++ [.symbol .rightParen]))
  | .constant c _ => [.keyword c.keyword]
  | .name n _ => [.identifier n]
  | .integer t _ => [.integer t]
  | .real t _ => [.real t]
  | .string t _ => [.string t]
  | .truth true _ => [.keyword .true]
  | .truth false _ => [.keyword .false]
  | .binary op _ a b _ =>
    .error "[" :: (a.written ++ .whitespace " " :: .symbol op.symbol :: .whitespace " " ::
      (b.written ++ [.error "]"]))

/-- Without its blanks and brackets the written form has the terminals of the expression. -/
theorem filter_written (e : Expr) : e.written.filter (·.isSignificant) = e.terminals := by
  induction e with
  | truth b s => cases b <;> rfl
  | _ => simp_all [written, terminals, Token.isSignificant, Token.isTrivia, Token.isError]

/-- The written form is made of the texts of its tokens. -/
theorem toList_text (e : Expr) : e.text.toList = e.written.flatMap (·.text.toList) := by
  induction e with
  | cast e t s ih =>
    have htype : t.keyword.text = t.text := by cases t <;> rfl
    have hcast : "cast(".toList = Keyword.cast.text.toList ++ ['('] := rfl
    simp only [text, written, String.toList_append]
    simp [Token.text, ih, htype, hcast, OpSymbol.text, OpSymbol.chars]
  | truth b s => cases b <;> simp [text, written, Token.text, Keyword.text]
  | _ =>
    simp_all [text, written, Token.text, OpSymbol.text, OpSymbol.chars, UnaryFunction.text,
      BinaryFunction.text, BinaryOp.text, BuiltinConstant.text]

/-- Each terminal is spelled by its own text. -/
def Spelled (e : Expr) : Prop := ∀ t ∈ e.terminals, Lexing.Spells t.text.toList t

end Expr

namespace Lexing

open EvlCheck.Text

/-! ## What stands next to a word -/

/-- The characters that stand behind an expression, or between its words. -/
def delimiters : List Char := [' ', ',', '(', ')', ']']

theorem stops_delimiter {d : Char} (hd : d ∈ delimiters) {w : List Char} {t : Token}
    (ht : t.isSignificant = true) (hs : Spells w t) : Stops d t := by
  have hall : d.isDigit = false ∧ d ≠ '.' ∧ isNamePart d = false ∧ d ≠ '=' ∧ d ≠ '/' ∧ d ≠ '*' := by
    simp only [delimiters, List.mem_cons, List.not_mem_nil, or_false] at hd
    rcases hd with rfl | rfl | rfl | rfl | rfl <;> decide
  obtain ⟨hdigit, hpoint, hname, hsymbol⟩ := hall
  cases hs with
  | whitespace | lineComment | blockComment => cases ht
  | integer | real => exact ⟨hdigit, hpoint⟩
  | string => trivial
  | symbol => exact hsymbol
  | keyword | identifier => exact hname

/-- The character is no blank and goes on with no symbol. -/
def Fresh (c : Char) : Prop := isGap c = false ∧ c ≠ '=' ∧ c ≠ '/' ∧ c ≠ '*'

instance (c : Char) : Decidable (Fresh c) := inferInstanceAs (Decidable (_ ∧ _))

/-- The first character of the texts of some tokens. -/
def headChar? (ts : List Token) : Option Char := (ts.flatMap (·.text.toList)).head?

theorem headChar?_cons {t : Token} {c : Char} {cs : List Char} (h : t.text.toList = c :: cs)
    (ts : List Token) : headChar? (t :: ts) = some c := by
  unfold headChar?
  rw [List.flatMap_cons, h]
  rfl

/-- The token's text begins with a delimiter. -/
theorem delimited_head {t : Token} {c : Char} {cs : List Char} (h : t.text.toList = c :: cs)
    (hc : c ∈ delimiters) (ts : List Token) : ∀ d ∈ headChar? (t :: ts), d ∈ delimiters := by
  rw [headChar?_cons h]
  rintro d ⟨⟩
  exact hc

/-- The token's text begins with a fresh character. -/
def BeginsFresh (t : Token) : Prop := ∃ c cs, t.text.toList = c :: cs ∧ Fresh c

theorem BeginsFresh.head {t : Token} (h : BeginsFresh t) (ts : List Token) :
    ∀ d ∈ headChar? (t :: ts), Fresh d := by
  obtain ⟨c, cs, hc, hfresh⟩ := h
  rw [headChar?_cons hc]
  rintro d ⟨⟩
  exact hfresh

theorem toList_text_symbol (s : OpSymbol) : (Token.symbol s).text.toList = s.chars :=
  String.toList_ofList

/-- A symbol begins with no blank. -/
theorem gap_symbol (s : OpSymbol) (ts : List Token) :
    ∀ d ∈ headChar? (.symbol s :: ts), isGap d = false := by
  obtain ⟨c, cs, hs, hkind⟩ := headKind_symbol_chars s
  rw [headChar?_cons ((toList_text_symbol s).trans hs)]
  rintro d ⟨⟩
  cases hc : isGap c with
  | false => rfl
  | true =>
    rw [headKind_of_isGap hc] at hkind
    cases hkind

/-- Words begin with a fresh character, unless they are blanks or symbols. -/
theorem beginsFresh_of_spells {t : Token} (hs : Spells t.text.toList t)
    (hgap : terminalHead t ≠ .gap) (hother : terminalHead t ≠ .other) : BeginsFresh t := by
  obtain ⟨c, cs, hw⟩ := hs.exists_cons
  rw [hw] at hs
  have hkind := hs.terminalHead_eq
  rw [hkind] at hgap hother
  refine ⟨c, cs, hw, ?_, ?_, ?_, ?_⟩
  · cases hc : isGap c with
    | false => rfl
    | true => exact absurd (headKind_of_isGap hc) hgap
  all_goals
    rintro rfl
    exact hother (by decide)

theorem beginsFresh_keyword (k : Keyword) : BeginsFresh (.keyword k) :=
  beginsFresh_of_spells (.keyword k) (by simp [terminalHead]) (by simp [terminalHead])

/-- An expression begins with a fresh character. -/
theorem fresh_head {e : Expr} (h : e.Spelled) (ts : List Token) :
    ∀ d ∈ headChar? (e.written ++ ts), Fresh d := by
  have hleaf : ∀ {t : Token}, e.terminals = [t] → terminalHead t ≠ .gap →
      terminalHead t ≠ .other → BeginsFresh t :=
    fun ht => beginsFresh_of_spells (h _ (by rw [ht]; exact .head _))
  cases e with
  | unaryMinus => exact BeginsFresh.head ⟨'-', [], rfl, by decide⟩ _
  | paren => exact BeginsFresh.head ⟨'(', [], rfl, by decide⟩ _
  | binary => exact BeginsFresh.head ⟨'[', [], rfl, by decide⟩ _
  | cast | unaryCall | binaryCall | constant => exact (beginsFresh_keyword _).head _
  | truth b => cases b <;> exact (beginsFresh_keyword _).head _
  | name | integer | real | string =>
    exact (hleaf rfl (by simp [terminalHead]) (by simp [terminalHead])).head _

/-! ## Reading the written form -/

/-- The texts of the tokens, one behind the other, are read as the tokens. -/
def ReadsBack (ts : List Token) : Prop := ReadAs (ts.flatMap (·.text.toList)) ts

namespace ReadsBack

variable {ts : List Token} (h : ReadsBack ts)
include h

theorem word {t : Token} (hs : Spells t.text.toList t) (hstop : ∀ d ∈ headChar? ts, Stops d t) :
    ReadsBack (t :: ts) := by
  unfold ReadsBack
  rw [List.flatMap_cons]
  exact .word hs hstop h

/-- A terminal in front of a delimiter. -/
theorem terminal {t : Token} (hs : Spells t.text.toList t) (ht : t.isSignificant = true)
    (hdelimited : ∀ d ∈ headChar? ts, d ∈ delimiters) : ReadsBack (t :: ts) :=
  h.word hs fun d hd => stops_delimiter (hdelimited d hd) ht hs

theorem symbol (s : OpSymbol) (hstop : ∀ d ∈ headChar? ts, d ∈ delimiters ∨ Fresh d) :
    ReadsBack (.symbol s :: ts) := by
  have hs : Spells (Token.symbol s).text.toList (.symbol s) := by
    rw [toList_text_symbol]
    exact .symbol s
  refine h.word hs fun d hd => ?_
  rcases hstop d hd with hdelimiter | hfresh
  · exact stops_delimiter hdelimiter rfl hs
  · exact hfresh.2

theorem keyword (k : Keyword) (hdelimited : ∀ d ∈ headChar? ts, d ∈ delimiters) :
    ReadsBack (.keyword k :: ts) :=
  h.terminal (.keyword k) rfl hdelimited

theorem blank (hstop : ∀ d ∈ headChar? ts, isGap d = false) :
    ReadsBack (.whitespace " " :: ts) := by
  unfold ReadsBack
  rw [List.flatMap_cons]
  exact ReadAs.blank hstop h

theorem leftBracket : ReadsBack (.error "[" :: ts) := by
  unfold ReadsBack
  rw [List.flatMap_cons]
  exact ReadAs.bracket (.inl rfl) h

theorem rightBracket : ReadsBack (.error "]" :: ts) := by
  unfold ReadsBack
  rw [List.flatMap_cons]
  exact ReadAs.bracket (.inr rfl) h

end ReadsBack

/-- The written form of an expression is read back in front of a delimiter. -/
theorem readsBack_written {e : Expr} (h : e.Spelled) {ts : List Token}
    (hdelimited : ∀ d ∈ headChar? ts, d ∈ delimiters) (hts : ReadsBack ts) :
    ReadsBack (e.written ++ ts) := by
  have hparen : ∀ us, ∀ d ∈ headChar? (.symbol .rightParen :: us), d ∈ delimiters :=
    delimited_head rfl (by decide)
  have hcomma : ∀ us, ∀ d ∈ headChar? (.symbol .comma :: us), d ∈ delimiters :=
    delimited_head rfl (by decide)
  have hblank : ∀ us, ∀ d ∈ headChar? (.whitespace " " :: us), d ∈ delimiters :=
    delimited_head rfl (by decide)
  have hleft : ∀ us, ∀ d ∈ headChar? (.symbol .leftParen :: us), d ∈ delimiters :=
    delimited_head rfl (by decide)
  have hclose : ∀ {us}, (∀ d ∈ headChar? us, d ∈ delimiters) → ReadsBack us →
      ReadsBack (.symbol .rightParen :: us) :=
    fun hus hread => hread.symbol .rightParen fun d hd => .inl (hus d hd)
  have hseparate : ∀ {us}, ReadsBack (.whitespace " " :: us) →
      ReadsBack (.symbol .comma :: .whitespace " " :: us) :=
    fun hread => hread.symbol .comma fun d hd => .inl (hblank _ d hd)
  have hopen : ∀ {e : Expr} {us}, e.Spelled → ReadsBack (e.written ++ us) →
      ReadsBack (.symbol .leftParen :: (e.written ++ us)) :=
    fun he hread => hread.symbol .leftParen fun d hd => .inr (fresh_head he _ d hd)
  induction e generalizing ts with
  | unaryMinus e s ih =>
    have he : e.Spelled := fun t ht => h t (by simp [Expr.terminals, ht])
    exact (ih he hdelimited hts).symbol .minus fun d hd => .inr (fresh_head he _ d hd)
  | paren e s ih =>
    have he : e.Spelled := fun t ht => h t (by simp [Expr.terminals, ht])
    simp only [Expr.written, List.cons_append, List.append_assoc, List.nil_append]
    exact hopen he (ih he (hparen _) (hclose hdelimited hts))
  | cast e t s ih =>
    have he : e.Spelled := fun t ht => h t (by simp [Expr.terminals, ht])
    simp only [Expr.written, List.cons_append, List.append_assoc, List.nil_append]
    have htype := (hclose hdelimited hts).keyword t.keyword (hparen _)
    have hsecond := htype.blank fun d hd => ((beginsFresh_keyword _).head _ d hd).1
    exact (hopen he (ih he (hcomma _) (hseparate hsecond))).keyword .cast (hleft _)
  | unaryCall f e s ih =>
    have he : e.Spelled := fun t ht => h t (by simp [Expr.terminals, ht])
    simp only [Expr.written, List.cons_append, List.append_assoc, List.nil_append]
    exact (hopen he (ih he (hparen _) (hclose hdelimited hts))).keyword f.keyword (hleft _)
  | binaryCall f a b s iha ihb =>
    have ha : a.Spelled := fun t ht => h t (by simp [Expr.terminals, ht])
    have hb : b.Spelled := fun t ht => h t (by simp [Expr.terminals, ht])
    simp only [Expr.written, List.cons_append, List.append_assoc, List.nil_append]
    have hsecond := (ihb hb (hparen _) (hclose hdelimited hts)).blank fun d hd =>
      (fresh_head hb _ d hd).1
    exact (hopen ha (iha ha (hcomma _) (hseparate hsecond))).keyword f.keyword (hleft _)
  | binary op opSpan a b s iha ihb =>
    have ha : a.Spelled := fun t ht => h t (by simp [Expr.terminals, ht])
    have hb : b.Spelled := fun t ht => h t (by simp [Expr.terminals, ht])
    simp only [Expr.written, List.cons_append, List.append_assoc, List.nil_append]
    have hright := ihb hb (delimited_head rfl (by decide) _) hts.rightBracket
    have hoperand := hright.blank fun d hd => (fresh_head hb _ d hd).1
    have hsign := hoperand.symbol op.symbol fun d hd => .inl (hblank _ d hd)
    exact (iha ha (hblank _) (hsign.blank (gap_symbol op.symbol _))).leftBracket
  | constant c s => exact hts.keyword c.keyword hdelimited
  | truth b s => cases b <;> exact hts.keyword _ hdelimited
  | name | integer | real | string => exact hts.terminal (h _ (.head _)) rfl hdelimited

end Lexing

end EvlCheck
