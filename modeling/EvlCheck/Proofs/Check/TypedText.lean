/-
The type that a text is given is the type of the expression that it was written from. Inference goes
by the first and the last characters of a text and by the commas outside of brackets. In the written
form of an expression without binary operators these say what the expression is: no text begins or
ends with a blank, each bracket is closed by its own (`Expr.crossed_text`), and a text with a
parenthesis or a minus sign is no literal and no name (`atomType?_eq_negativeType?`).
-/
import EvlCheck.Check.Infer
import EvlCheck.Proofs.Check.LineShape
import EvlCheck.Proofs.Parsing.RoundTrip

namespace EvlCheck

open Text Check

/-! ## Decimal digits -/

namespace Text

theorem isDecimal_of_isNamePart {c : Char} (h : isNamePart c = true) : isDecimal c = c.isDigit :=
  if_pos (toNat_of_isNamePart h)

theorem isDecimal_of_isDigit {c : Char} (h : c.isDigit = true) : isDecimal c = true := by
  have hpart : isNamePart c = true := by simp [isNamePart, Char.isAlphanum, h]
  rw [isDecimal_of_isNamePart hpart, h]

theorem isDecimal_of_isNameStart {c : Char} (h : isNameStart c = true) : isDecimal c = false := by
  rw [isDecimal_of_isNamePart (isNamePart_of_isNameStart h),
    Lexing.isDigit_eq_false_of_isNameStart h]

theorem isWord_of_isDecimal {c : Char} (h : isDecimal c = true) : isWord c = true := by
  unfold isDecimal at h
  unfold isWord
  split at h
  · next hascii => rw [if_pos hascii, Char.isAlphanum, h, Bool.or_true, Bool.true_or]
  · next hascii => rw [if_neg hascii, h, Bool.or_true, Bool.true_or, Bool.true_or]

end Text

namespace Check

/-! ## Atoms -/

section

variable {cs : List Char}

theorem isDecimal_of_isIntLiteral (h : isIntLiteral cs = true) : ∀ c ∈ cs, isDecimal c = true := by
  simp only [isIntLiteral, Bool.and_eq_true, List.all_eq_true] at h
  exact h.2

theorem isDecimal_of_isFloatLiteral (h : isFloatLiteral cs = true) :
    ∀ c ∈ cs, isDecimal c = true ∨ c = '.' := by
  unfold isFloatLiteral at h
  split at h
  · next rest hrest =>
    rw [Bool.and_eq_true] at h
    rw [← List.takeWhile_append_dropWhile (p := isDecimal) (l := cs), hrest]
    intro c hc
    rcases List.mem_append.1 hc with hc | hc
    · exact .inl (List.mem_takeWhile_imp hc)
    · rcases List.mem_cons.1 hc with rfl | hc
      · exact .inr rfl
      · exact .inl (isDecimal_of_isIntLiteral h.2 c hc)
  · cases h

/-- A number begins with a digit. -/
theorem isDecimal_head (h : isIntLiteral cs = true ∨ isFloatLiteral cs = true) :
    ∃ c rest, cs = c :: rest ∧ isDecimal c = true := by
  rcases h with h | h
  · cases cs with
    | nil => cases h
    | cons c rest => exact ⟨c, rest, rfl, isDecimal_of_isIntLiteral h c (.head _)⟩
  · cases cs with
    | nil => cases h
    | cons c rest =>
      refine ⟨c, rest, rfl, ?_⟩
      by_contra hc
      rw [isFloatLiteral, List.takeWhile_cons_of_neg hc, List.dropWhile_cons_of_neg hc] at h
      split at h <;> simp at h

/-- A text with a character that neither words nor numbers have is an atom only by its quotes or its
sign. -/
theorem atomType?_eq_negativeType? {symbols : Symbols}
    (hs : ∀ entry ∈ symbols.entries, ∀ c ∈ entry.1.toList, isWord c = true) {x : Char} (hx : x ∈ cs)
    (hword : isWord x = false) (hpoint : x ≠ '.') (hstring : isStringLiteral cs = false) :
    atomType? symbols cs = negativeType? cs := by
  have hint : isIntLiteral cs = false := by
    by_contra h
    have := isWord_of_isDecimal (isDecimal_of_isIntLiteral (Bool.not_eq_false _ ▸ h) x hx)
    rw [hword] at this
    cases this
  have hfloat : isFloatLiteral cs = false := by
    by_contra h
    rcases isDecimal_of_isFloatLiteral (Bool.not_eq_false _ ▸ h) x hx with h | h
    · have := isWord_of_isDecimal h
      rw [hword] at this
      cases this
    · exact hpoint h
  have htext : ∀ name : String, (∀ c ∈ name.toList, isWord c = true) → cs ≠ name.toList := by
    rintro name hname rfl
    rw [hname x hx] at hword
    cases hword
  have hsymbol : symbols.get? (String.ofList cs) = none := by
    unfold Symbols.get?
    rw [List.lookup_eq_none_iff]
    intro entry hentry
    rw [bne_iff_ne]
    intro heq
    exact htext entry.1 (hs entry hentry) (by rw [← heq, String.toList_ofList])
  have hconstant : BuiltinConstant.ofText? (String.ofList cs) = none := by
    unfold BuiltinConstant.ofText?
    rw [List.find?_eq_none]
    intro c _ heq
    refine htext c.text ?_ (by rw [eq_of_beq heq, String.toList_ofList])
    cases c <;> exact List.all_eq_true.1 (by decide)
  have htruth : ¬ (cs = "true".toList ∨ cs = "false".toList) :=
    not_or.2 ⟨htext "true" (List.all_eq_true.1 (by decide)),
      htext "false" (List.all_eq_true.1 (by decide))⟩
  have hliteral : literalType? cs = none := by
    unfold literalType?
    rw [hint, hfloat, hstring, if_neg htruth]
    rfl
  unfold atomType?
  rw [hliteral, hsymbol, hconstant]
  rfl

theorem isStringLiteral_eq_false {c : Char} (hc : c ≠ '"') : isStringLiteral (c :: cs) = false := by
  unfold isStringLiteral
  split
  · next h => exact absurd (List.cons_eq_cons.1 h).1 hc
  · rfl

theorem negativeType?_eq_none {c : Char} (hc : c ≠ '-') : negativeType? (c :: cs) = none := by
  unfold negativeType?
  split
  · next h => exact absurd (List.cons_eq_cons.1 h).1 hc
  · rfl

theorem parenthesized?_eq_none (h : '(' ∉ cs) : parenthesized? cs = none := by
  unfold parenthesized?
  split
  · exact absurd (.head _) h
  · rfl

/-- A text in which no parenthesis opens is no call. -/
theorem wholeCall?_eq_none (h : '(' ∉ cs) : wholeCall? cs = none := by
  have hhead : callHead? cs = none := by
    unfold callHead?
    cases hname : name? cs with
    | none => rfl
    | some found =>
      obtain ⟨name, rest⟩ := found
      cases hafter : afterBlanks? '(' rest with
      | none => simp [hafter]
      | some inner =>
        refine absurd ?_ h
        rw [← append_of_name? hname]
        exact List.mem_append_right _ (mem_of_afterBlanks? hafter)
  rw [wholeCall?, hhead]
  rfl

end

/-! ## Arguments -/

/-- The text has all its brackets closed, and is passed over as one piece of an argument where at
least `least` brackets are open around it. -/
def Crossed (least : Int) (w : List Char) : Prop :=
  ∀ (rest : List Char) (depth : Int) (piece : List Char) (done : List (List Char)), least ≤ depth →
    argPieces.go (w ++ rest) depth piece done = argPieces.go rest depth (w.reverse ++ piece) done

/-- The characters that tell arguments apart. -/
def separators : List Char := [',', '(', ')', '[', ']']

namespace Crossed

variable {least : Int} {v w : List Char}

theorem append (hv : Crossed least v) (hw : Crossed least w) : Crossed least (v ++ w) := by
  intro rest depth piece done h
  rw [List.append_assoc, hv _ _ _ _ h, hw _ _ _ _ h, List.reverse_append, List.append_assoc]

theorem mono {more : Int} (h : Crossed least w) (hle : least ≤ more) : Crossed more w :=
  fun rest depth piece done hdepth => h rest depth piece done (Int.le_trans hle hdepth)

theorem of_quiet (h : ∀ c ∈ w, c ∉ separators) : Crossed least w := by
  intro rest depth piece done hdepth
  induction w generalizing piece with
  | nil => rfl
  | cons c w ih =>
    obtain ⟨hc, hw⟩ := List.forall_mem_cons.1 h
    simp only [separators, List.mem_cons, List.not_mem_nil, or_false, not_or] at hc
    have hsame : bracketDepth depth c = depth := by
      unfold bracketDepth
      rw [if_neg (by simp [hc]), if_neg (by simp [hc])]
    rw [List.cons_append, argPieces.go, if_neg fun hcomma => hc.1 hcomma.1, hsame, ih hw]
    simp

theorem char {c : Char} (h : c ∉ separators) : Crossed least [c] :=
  .of_quiet (List.forall_mem_singleton.2 h)

/-- A comma between brackets divides nothing. -/
theorem comma (hleast : 0 < least) : Crossed least [','] := by
  intro rest depth piece done hdepth
  rw [List.singleton_append, argPieces.go, if_neg fun hzero => by omega]
  rfl

theorem enclosed (h : Crossed (least + 1) w) : Crossed least ('(' :: (w ++ [')'])) := by
  intro rest depth piece done hdepth
  have hopen : bracketDepth depth '(' = depth + 1 := rfl
  have hclose : bracketDepth (depth + 1) ')' = depth := Int.add_sub_cancel depth 1
  rw [List.cons_append, argPieces.go, if_neg (by simp), hopen, List.append_assoc,
    h _ _ _ _ (by omega), List.singleton_append, argPieces.go, if_neg (by simp), hclose]
  simp

end Crossed

/-- The text has a blank at neither end, and is not empty. -/
structure Tight (cs : List Char) : Prop where
  nonempty : cs ≠ []
  first : ∀ c ∈ cs.head?, isBlank c = false
  last : ∀ c ∈ cs.getLast?, isBlank c = false

theorem Tight.trim {cs : List Char} (h : Tight cs) : trim cs = cs := by
  obtain ⟨c, rest, rfl⟩ := List.exists_cons_of_ne_nil h.nonempty
  have hend := trimEnd_append h.last []
  rw [List.append_nil] at hend
  rw [Text.trim, trimStart_cons (h.first c rfl), hend]
  exact List.append_nil _

section

variable {a b : List Char} (ha : Tight a) (hcrossed : Crossed 0 a)
include ha hcrossed

theorem splitArgs_single : splitArgs a = [a] := by
  have hpieces : argPieces a = [a] := by
    have h := hcrossed [] 0 [] [] (Int.le_refl 0)
    rw [List.append_nil, List.append_nil] at h
    rw [argPieces, h, argPieces.go, List.reverse_reverse]
    rfl
  unfold splitArgs
  simp [hpieces, ha.trim, ha.nonempty]

theorem splitArgs_pair (hb : Tight b) (hcrossed' : Crossed 0 b) :
    splitArgs (a ++ ',' :: ' ' :: b) = [a, b] := by
  have hpieces : argPieces (a ++ ',' :: ' ' :: b) = [a, ' ' :: b] := by
    have hsecond : Crossed 0 (' ' :: b) :=
      .append (v := [' ']) (.char (by decide)) hcrossed'
    have h := hsecond [] 0 [] [a] (Int.le_refl 0)
    rw [List.append_nil, List.append_nil] at h
    rw [argPieces, hcrossed _ _ _ _ (Int.le_refl 0), argPieces.go, if_pos ⟨rfl, rfl⟩,
      List.append_nil, List.reverse_reverse, h, argPieces.go, List.reverse_reverse]
    rfl
  have hblank : trim (' ' :: b) = b := by
    have hstart : trimStart (' ' :: b) = trimStart b :=
      trimStart_blanks_append (g := [' ']) (List.all_eq_true.1 (by decide))
    rw [Text.trim, hstart]
    exact hb.trim
  unfold splitArgs
  simp [hpieces, ha.trim, hblank, hb.nonempty]

end

/-! ## Calls -/

section

variable {k : Keyword} {signature : Signature} {inner : List Char}

/-- A call as it is written. -/
def callChars (k : Keyword) (inner : List Char) : List Char :=
  k.text.toList ++ '(' :: (inner ++ [')'])

theorem exists_callChars_cons (k : Keyword) (inner : List Char) :
    ∃ c rest, callChars k inner = c :: rest ∧ isNameStart c = true := by
  obtain ⟨c, w, hk, hc, -⟩ := Lexing.keyword_text_shape k
  exact ⟨c, w ++ '(' :: (inner ++ [')']), by rw [callChars, hk]; rfl, hc⟩

theorem getLast?_callChars (k : Keyword) (inner : List Char) :
    (callChars k inner).getLast? = some ')' := by
  have hend : callChars k inner = (k.text.toList ++ '(' :: inner) ++ [')'] := by simp [callChars]
  rw [hend, List.getLast?_concat]

theorem tight_callChars (k : Keyword) (inner : List Char) : Tight (callChars k inner) := by
  obtain ⟨c, rest, hcs, hc⟩ := exists_callChars_cons k inner
  refine ⟨by rw [hcs]; exact List.cons_ne_nil c rest, ?_, ?_⟩
  · rw [hcs]
    rintro _ ⟨⟩
    exact Lexing.isBlank_of_isNamePart (isNamePart_of_isNameStart hc)
  · rw [getLast?_callChars]
    rintro _ ⟨⟩
    decide

theorem atomType?_callChars {symbols : Symbols}
    (hs : ∀ entry ∈ symbols.entries, ∀ c ∈ entry.1.toList, isWord c = true) (k : Keyword)
    (inner : List Char) : atomType? symbols (callChars k inner) = none := by
  have hparen : '(' ∈ callChars k inner := by simp [callChars]
  obtain ⟨c, rest, hcs, hc⟩ := exists_callChars_cons k inner
  rw [hcs] at hparen ⊢
  have hquote : c ≠ '"' := by rintro rfl; exact absurd hc (by decide)
  have hminus : c ≠ '-' := by rintro rfl; exact absurd hc (by decide)
  rw [atomType?_eq_negativeType? hs hparen (by decide) (by decide) (isStringLiteral_eq_false hquote),
    negativeType?_eq_none hminus]

theorem parenthesized?_callChars (k : Keyword) (inner : List Char) :
    parenthesized? (callChars k inner) = none := by
  obtain ⟨c, rest, hcs, hc⟩ := exists_callChars_cons k inner
  rw [hcs]
  unfold parenthesized?
  split
  · next h =>
    rw [(List.cons_eq_cons.1 h).1] at hc
    exact absurd hc (by decide)
  · rfl

theorem wholeCall?_callChars (hsignature : Signature.find? k.text = some signature)
    (hne : inner ≠ []) : wholeCall? (callChars k inner) = some (signature, inner) := by
  obtain ⟨c, w, hk, hc, hw⟩ := Lexing.keyword_text_shape k
  have hname : name? (callChars k inner) = some (k.text.toList, '(' :: (inner ++ [')'])) := by
    unfold callChars
    rw [hk]
    refine name?_append hc (fun d hd => isWord_of_isNamePart (hw d hd)) ?_
    rintro _ ⟨⟩
    decide
  have hhead : callHead? (callChars k inner) = some (k.text.toList, inner ++ [')']) := by
    unfold callHead?
    rw [hname]
    simp [afterBlanks?_cons (show isBlank '(' = false by decide)]
  unfold wholeCall?
  rw [hhead]
  simp [hsignature, hne]

end

end Check

/-! ## The type of an expression -/

namespace Expr

/-- The type of an expression that is a number. -/
def numberType? : Expr → Option ValueType
  | .integer .. => some .int
  | .real .. => some .float
  | _ => none

/-- The type that the form of an expression tells; a name has the type that it is declared with. -/
def valueType? (symbols : Symbols) : Expr → Option ValueType
  | .integer .. | .unaryCall .round _ _ => some .int
  | .real .. | .unaryCall .sqrt _ _ | .binaryCall .pow _ _ _ => some .float
  | .unaryMinus e _ => e.numberType?
  | .string .. => some .string
  | .truth .. => some .bool
  | .name n _ => symbols.get? n
  | .constant c _ => symbols.get? c.text <|> some c.type
  | .paren e _ | .unaryCall .abs e _ | .binaryCall .min e _ _ | .binaryCall .max e _ _ =>
    e.valueType? symbols
  | .cast _ target _ => some target
  | .binary .. => none

/-- The steps from an expression to the one inside that its type is that of: into parentheses, and to
a first argument. -/
def typeSteps : Expr → Nat
  | .paren e _ | .unaryCall .abs e _ | .binaryCall .min e _ _ | .binaryCall .max e _ _ =>
    e.typeSteps + 1
  | _ => 0

/-- No binary operator occurs in the expression. -/
def OperatorFree : Expr → Prop
  | .binary .. => False
  | .unaryMinus e _ | .paren e _ | .cast e _ _ | .unaryCall _ e _ => e.OperatorFree
  | .binaryCall _ a b _ => a.OperatorFree ∧ b.OperatorFree
  | .constant .. | .name .. | .integer .. | .real .. | .string .. | .truth .. => True

/-- Between its quotes no string of the expression has a quote or a character that tells arguments
apart. -/
def PlainStrings (e : Expr) : Prop :=
  ∀ text, .string text ∈ e.terminals →
    ∀ c ∈ text.toList.tail.dropLast, c ≠ '"' ∧ c ∉ Check.separators

/-- What inference relies on in the written form: no binary operator, names and numbers as they are
spelled, and strings without an inner quote or separator. -/
def Legible : Expr → Prop
  | .binary .. => False
  | .unaryMinus e _ | .paren e _ | .cast e _ _ | .unaryCall _ e _ => e.Legible
  | .binaryCall _ a b _ => a.Legible ∧ b.Legible
  | .name n _ => Lexing.Spells n.toList (.identifier n)
  | .integer t _ => Lexing.Spells t.toList (.integer t)
  | .real t _ => Lexing.Spells t.toList (.real t)
  | .string t _ => Lexing.Spells t.toList (.string t) ∧
    ∀ c ∈ t.toList.tail.dropLast, c ≠ '"' ∧ c ∉ Check.separators
  | .constant .. | .truth .. => True

variable {e : Expr}

theorem Legible.of_spelled (hspelled : e.Spelled) (hfree : e.OperatorFree) (hplain : e.PlainStrings) :
    e.Legible := by
  induction e with
  | unaryMinus e s ih | paren e s ih | cast e target s ih | unaryCall f e s ih =>
    exact ih (fun t ht => hspelled t (by simp [terminals, ht])) hfree
      fun text ht => hplain text (by simp [terminals, ht])
  | binaryCall f a b s iha ihb =>
    exact ⟨iha (fun t ht => hspelled t (by simp [terminals, ht])) hfree.1
        fun text ht => hplain text (by simp [terminals, ht]),
      ihb (fun t ht => hspelled t (by simp [terminals, ht])) hfree.2
        fun text ht => hplain text (by simp [terminals, ht])⟩
  | binary => exact hfree
  | name | integer | real => exact hspelled _ (.head _)
  | string text => exact ⟨hspelled _ (.head _), hplain text (.head _)⟩
  | constant | truth => trivial

/-! ## The written form -/

theorem toList_text_paren (e : Expr) (s : Span) :
    (paren e s).text.toList = '(' :: (e.text.toList ++ [')']) := by
  simp [text]

theorem toList_text_unaryMinus (e : Expr) (s : Span) :
    (unaryMinus e s).text.toList = '-' :: e.text.toList := by
  simp [text]

theorem toList_text_cast (e : Expr) (target : ValueType) (s : Span) :
    (cast e target s).text.toList =
      callChars .cast (e.text.toList ++ ',' :: ' ' :: target.text.toList) := by
  have hcast : "cast(".toList = Keyword.cast.text.toList ++ ['('] := rfl
  simp only [text, callChars, String.toList_append, hcast]
  simp

theorem toList_text_unaryCall (f : UnaryFunction) (e : Expr) (s : Span) :
    (unaryCall f e s).text.toList = callChars f.keyword e.text.toList := by
  simp [text, callChars, UnaryFunction.text]

theorem toList_text_binaryCall (f : BinaryFunction) (a b : Expr) (s : Span) :
    (binaryCall f a b s).text.toList =
      callChars f.keyword (a.text.toList ++ ',' :: ' ' :: b.text.toList) := by
  simp [text, callChars, BinaryFunction.text]

end Expr

namespace Check

theorem not_separator {c : Char} (h : isNamePart c = true ∨ c = '.') : c ∉ separators := by
  rcases h with h | rfl
  · intro hmem
    simp only [separators, List.mem_cons, List.not_mem_nil, or_false] at hmem
    rcases hmem with rfl | rfl | rfl | rfl | rfl <;> exact absurd h (by decide)
  · decide

theorem tight_of_nameParts {w : List Char} (hne : w ≠ [])
    (h : ∀ c ∈ w, isNamePart c = true ∨ c = '.') : Tight w := by
  have hblank : ∀ c ∈ w, isBlank c = false := by
    intro c hc
    rcases h c hc with h | rfl
    · exact Lexing.isBlank_of_isNamePart h
    · decide
  exact ⟨hne, fun c hc => hblank c (List.mem_of_mem_head? hc),
    fun c hc => hblank c (List.mem_of_getLast? hc)⟩

end Check

namespace Lexing

variable {w : List Char} {t : Token}

/-- The first character of a word is of the kind that words of the terminal begin with. -/
theorem Spells.exists_head (h : Spells w t) : ∃ c cs, w = c :: cs ∧ headKind c = terminalHead t := by
  obtain ⟨c, cs, rfl⟩ := h.exists_cons
  exact ⟨c, cs, rfl, h.terminalHead_eq.symm⟩

theorem isNameStart_of_headKind {c : Char} (h : headKind c = .letter) : isNameStart c = true := by
  have hc := headKind_spec c
  rwa [h] at hc

theorem isDigit_of_headKind {c : Char} (h : headKind c = .digit) : c.isDigit = true := by
  have hc := headKind_spec c
  rwa [h] at hc

/-- The characters of a word, a name or a number. -/
theorem Spells.nameParts (h : Spells w t) (ht : terminalHead t = .letter ∨ terminalHead t = .digit) :
    w ≠ [] ∧ ∀ c ∈ w, isNamePart c = true ∨ c = '.' := by
  obtain ⟨c, cs, rfl, hkind⟩ := h.exists_head
  refine ⟨List.cons_ne_nil c cs, ?_⟩
  have hdigit : ∀ {d : Char}, d.isDigit = true → isNamePart d = true := by
    intro d hd
    simp [isNamePart, Char.isAlphanum, hd]
  rcases ht with ht | ht <;> rw [ht] at hkind
  · have hc := isNameStart_of_headKind hkind
    rw [List.forall_mem_cons]
    exact ⟨.inl (isNamePart_of_isNameStart hc), fun d hd => .inl ((h.of_letter rfl hc).2 d hd)⟩
  · rcases h.of_digit rfl (isDigit_of_headKind hkind) with
      ⟨-, hall⟩ | ⟨-, whole, part, hw, -, hwhole, hpart⟩
    · exact fun d hd => .inl (hdigit (hall d hd))
    · intro d hd
      rw [hw, List.mem_append, List.mem_cons] at hd
      rcases hd with hd | rfl | hd
      · exact .inl (hdigit (hwhole d hd))
      · exact .inr rfl
      · exact .inl (hdigit (hpart d hd))

/-- A name is no reserved word. -/
theorem Spells.not_reserved {name : String} (h : Spells name.toList (.identifier name)) (k : Keyword) :
    k.text ≠ name := by
  rintro rfl
  have hsame := h.unique (.keyword k)
  cases hsame

theorem Spells.quoted {text : String} (h : Spells text.toList (.string text)) :
    ∃ body, text.toList = '"' :: (body ++ ['"']) := by
  obtain ⟨c, cs, hcs, hkind⟩ := h.exists_head
  have hc := headKind_spec c
  rw [hkind] at hc
  change c = '"' at hc
  subst hc
  obtain ⟨-, body, hbody, -⟩ := h.of_quote hcs
  exact ⟨body, by rw [hcs, hbody]⟩

end Lexing

namespace Expr

variable {e : Expr}

/-- What is a name, a number or a reserved word has neither blanks nor brackets. -/
theorem layout_of_spells {w : List Char} {t : Token} (h : Lexing.Spells w t)
    (ht : Lexing.terminalHead t = .letter ∨ Lexing.terminalHead t = .digit) :
    Tight w ∧ Crossed 0 w := by
  obtain ⟨hne, hparts⟩ := h.nameParts ht
  exact ⟨tight_of_nameParts hne hparts, .of_quiet fun c hc => not_separator (hparts c hc)⟩

/-- An expression is written without blanks at its ends and with all brackets closed. -/
theorem Legible.layout (h : e.Legible) : Tight e.text.toList ∧ Crossed 0 e.text.toList := by
  have hkeyword : ∀ k : Keyword, Tight k.text.toList ∧ Crossed 0 k.text.toList :=
    fun k => layout_of_spells (.keyword k) (.inl rfl)
  have hcall : ∀ {k : Keyword} {inner : List Char}, Crossed 1 inner → Crossed 0 (callChars k inner) :=
    fun hinner => (hkeyword _).2.append hinner.enclosed
  have hpair : ∀ {a b : List Char}, Crossed 0 a → Crossed 0 b → Crossed 1 (a ++ ',' :: ' ' :: b) :=
    fun ha hb => (ha.mono (by decide)).append <| .append (v := [',']) (.comma (by decide)) <|
      .append (v := [' ']) (.char (by decide)) (hb.mono (by decide))
  induction e with
  | unaryMinus e s ih =>
    obtain ⟨⟨hne, -, hlast⟩, hcrossed⟩ := ih h
    rw [toList_text_unaryMinus]
    refine ⟨⟨List.cons_ne_nil _ _, by rintro _ ⟨⟩; decide, ?_⟩,
      .append (v := ['-']) (.char (by decide)) hcrossed⟩
    rw [List.getLast?_cons_of_ne_nil hne]
    exact hlast
  | paren e s ih =>
    obtain ⟨-, hcrossed⟩ := ih h
    rw [toList_text_paren]
    refine ⟨⟨List.cons_ne_nil _ _, by rintro _ ⟨⟩; decide, ?_⟩, (hcrossed.mono (by decide)).enclosed⟩
    rw [← List.cons_append, List.getLast?_concat]
    rintro _ ⟨⟩
    decide
  | cast e target s ih =>
    rw [toList_text_cast]
    have htarget : Crossed 0 target.text.toList := by
      cases target <;> exact .of_quiet (by simp [ValueType.text, separators])
    exact ⟨tight_callChars _ _, hcall (hpair (ih h).2 htarget)⟩
  | unaryCall f e s ih =>
    rw [toList_text_unaryCall]
    exact ⟨tight_callChars _ _, hcall ((ih h).2.mono (by decide))⟩
  | binaryCall f a b s iha ihb =>
    rw [toList_text_binaryCall]
    exact ⟨tight_callChars _ _, hcall (hpair (iha h.1).2 (ihb h.2).2)⟩
  | constant c s => exact hkeyword c.keyword
  | truth b s =>
    cases b
    · exact hkeyword .false
    · exact hkeyword .true
  | name n s => exact layout_of_spells h (.inl rfl)
  | integer t s => exact layout_of_spells h (.inr rfl)
  | real t s => exact layout_of_spells h (.inr rfl)
  | string t s =>
    obtain ⟨hspells, hinside⟩ := h
    obtain ⟨body, hbody⟩ := hspells.quoted
    rw [hbody] at hinside
    have hquiet : ∀ c ∈ body, c ∉ separators := fun c hc => (hinside c (by simpa using hc)).2
    change Tight t.toList ∧ Crossed 0 t.toList
    rw [hbody]
    refine ⟨⟨List.cons_ne_nil _ _, by rintro _ ⟨⟩; decide, ?_⟩, ?_⟩
    · rw [← List.cons_append, List.getLast?_concat]
      rintro _ ⟨⟩
      decide
    · exact .append (v := ['"']) (.char (by decide))
        (.append (.of_quiet hquiet) (.char (by decide)))
  | binary => exact h.elim

/-! ## What inference finds -/

theorem isIntLiteral_of_spells {text : String} (h : Lexing.Spells text.toList (.integer text)) :
    isIntLiteral text.toList = true ∧ isFloatLiteral text.toList = false := by
  obtain ⟨c, cs, hcs, hkind⟩ := h.exists_head
  rcases h.of_digit hcs (Lexing.isDigit_of_headKind hkind) with ⟨-, hdigits⟩ | ⟨heq, -⟩
  · have hdecimal : ∀ d ∈ text.toList, isDecimal d = true :=
      fun d hd => isDecimal_of_isDigit (hdigits d hd)
    have hnone : text.toList.dropWhile isDecimal = [] := List.dropWhile_eq_nil_iff.2 hdecimal
    unfold isIntLiteral isFloatLiteral
    rw [hnone, List.all_eq_true.2 hdecimal, hcs]
    exact ⟨rfl, rfl⟩
  · cases heq

theorem isFloatLiteral_of_spells {text : String} (h : Lexing.Spells text.toList (.real text)) :
    isIntLiteral text.toList = false ∧ isFloatLiteral text.toList = true := by
  obtain ⟨c, cs, hcs, hkind⟩ := h.exists_head
  have hc := Lexing.isDigit_of_headKind hkind
  rcases h.of_digit hcs hc with ⟨heq, -⟩ | ⟨-, whole, part, hsplit, hpart, hwhole, hdigits⟩
  · cases heq
  · have hdecimal : ∀ d ∈ whole, isDecimal d = true := fun d hd => isDecimal_of_isDigit (hwhole d hd)
    have hdecimal' : ∀ d ∈ part, isDecimal d = true := fun d hd => isDecimal_of_isDigit (hdigits d hd)
    have hne : whole ≠ [] := by
      rintro rfl
      rw [hcs] at hsplit
      rw [(List.cons_eq_cons.1 hsplit).1] at hc
      exact absurd hc (by decide)
    have hpoint : isDecimal '.' = false := by decide
    unfold isIntLiteral isFloatLiteral
    rw [hsplit, List.takeWhile_append_of_pos hdecimal, List.dropWhile_append_of_pos hdecimal,
      List.takeWhile_cons_of_neg (by simp [hpoint]), List.dropWhile_cons_of_neg (by simp [hpoint])]
    simp [isIntLiteral, hpoint, hne, hpart, List.all_eq_true.2 hdecimal']

/-- The written form of what is no number does not begin with a digit. -/
theorem Legible.head (h : e.Legible) (hnumber : e.numberType? = none) :
    ∃ c rest, e.text.toList = c :: rest ∧ isDecimal c = false := by
  have hkeyword : ∀ k : Keyword, ∃ c rest, k.text.toList = c :: rest ∧ isDecimal c = false := by
    intro k
    obtain ⟨c, rest, hk, hc, -⟩ := Lexing.keyword_text_shape k
    exact ⟨c, rest, hk, isDecimal_of_isNameStart hc⟩
  have hcall : ∀ k inner, ∃ c rest, callChars k inner = c :: rest ∧ isDecimal c = false := by
    intro k inner
    obtain ⟨c, rest, hk, hc⟩ := exists_callChars_cons k inner
    exact ⟨c, rest, hk, isDecimal_of_isNameStart hc⟩
  cases e with
  | integer | real => cases hnumber
  | unaryMinus e s => exact ⟨'-', _, toList_text_unaryMinus e s, by decide⟩
  | paren e s => exact ⟨'(', _, toList_text_paren e s, by decide⟩
  | cast e target s =>
    rw [toList_text_cast]
    exact hcall _ _
  | unaryCall f e s =>
    rw [toList_text_unaryCall]
    exact hcall _ _
  | binaryCall f a b s =>
    rw [toList_text_binaryCall]
    exact hcall _ _
  | constant c s => exact hkeyword c.keyword
  | truth b s =>
    cases b
    · exact hkeyword .false
    · exact hkeyword .true
  | name n s =>
    obtain ⟨c, cs, hcs, hkind⟩ := Lexing.Spells.exists_head h
    exact ⟨c, cs, hcs, isDecimal_of_isNameStart (Lexing.isNameStart_of_headKind hkind)⟩
  | string t s =>
    obtain ⟨body, hbody⟩ := h.1.quoted
    exact ⟨'"', _, hbody, by decide⟩
  | binary => exact h.elim

/-- Of the written forms only those of numbers are read as numbers. -/
theorem Legible.number (h : e.Legible) :
    (isIntLiteral e.text.toList = true ↔ e.numberType? = some .int) ∧
      (isFloatLiteral e.text.toList = true ↔ e.numberType? = some .float) := by
  cases hnumber : e.numberType? with
  | none =>
    obtain ⟨c, rest, hcs, hc⟩ := h.head hnumber
    have hno : ¬ (isIntLiteral e.text.toList = true ∨ isFloatLiteral e.text.toList = true) := by
      intro hor
      obtain ⟨d, rest', hcs', hd⟩ := isDecimal_head hor
      rw [hcs] at hcs'
      rw [← (List.cons_eq_cons.1 hcs').1, hc] at hd
      cases hd
    rw [not_or] at hno
    simp [hno]
  | some type =>
    cases e with
    | integer t s =>
      cases hnumber
      obtain ⟨hint, hfloat⟩ := isIntLiteral_of_spells h
      exact ⟨by simpa [text] using hint, by simpa [text] using hfloat⟩
    | real t s =>
      cases hnumber
      obtain ⟨hint, hfloat⟩ := isFloatLiteral_of_spells h
      exact ⟨by simpa [text] using hint, by simpa [text] using hfloat⟩
    | _ => cases hnumber

theorem Legible.negativeType?_eq (h : e.Legible) :
    negativeType? ('-' :: e.text.toList) = e.numberType? := by
  obtain ⟨hint, hfloat⟩ := h.number
  rw [negativeType?, if_congr hint rfl rfl, if_congr hfloat rfl rfl]
  cases e <;> rfl

section

variable {symbols : Symbols}
  (hs : ∀ entry ∈ symbols.entries, ∀ c ∈ entry.1.toList, isWord c = true)

/-- A word of letters that is no truth value is looked up. -/
theorem atomType?_word {word : String} {c : Char} {cs : List Char} (hcs : word.toList = c :: cs)
    (hc : isNameStart c = true) (htruth : word ≠ "true" ∧ word ≠ "false") :
    atomType? symbols word.toList =
      (symbols.get? word <|> (BuiltinConstant.ofText? word).map (·.type)) := by
  have hquote : c ≠ '"' := by rintro rfl; exact absurd hc (by decide)
  have hminus : c ≠ '-' := by rintro rfl; exact absurd hc (by decide)
  have hnumber : ¬ (isIntLiteral (c :: cs) = true ∨ isFloatLiteral (c :: cs) = true) := by
    intro hor
    obtain ⟨d, rest, hd, hdecimal⟩ := isDecimal_head hor
    rw [← (List.cons_eq_cons.1 hd).1, isDecimal_of_isNameStart hc] at hdecimal
    cases hdecimal
  rw [not_or] at hnumber
  have htext : ¬ (c :: cs = "true".toList ∨ c :: cs = "false".toList) := by
    rw [← hcs, String.toList_inj, String.toList_inj]
    exact not_or.2 htruth
  have hliteral : literalType? (c :: cs) = none := by
    unfold literalType?
    rw [if_neg hnumber.1, if_neg hnumber.2, isStringLiteral_eq_false hquote, if_neg htext]
    rfl
  unfold atomType?
  rw [← String.ofList_toList (s := word), String.toList_ofList, hcs, hliteral,
    negativeType?_eq_none hminus]
  cases symbols.get? (String.ofList (c :: cs)) <;>
    cases (BuiltinConstant.ofText? (String.ofList (c :: cs))).map (·.type) <;> rfl

theorem atomType?_constant (c : BuiltinConstant) :
    atomType? symbols c.text.toList = (symbols.get? c.text <|> some c.type) := by
  obtain ⟨d, ds, hd, hstart, -⟩ := Lexing.keyword_text_shape c.keyword
  have hword : c.text.toList = d :: ds := hd
  rw [atomType?_word hword hstart (by cases c <;> decide), BuiltinConstant.ofText?_text]
  rfl

theorem atomType?_name {n : String} (h : Lexing.Spells n.toList (.identifier n)) :
    atomType? symbols n.toList = symbols.get? n := by
  obtain ⟨c, cs, hcs, hkind⟩ := h.exists_head
  have hconstant : BuiltinConstant.ofText? n = none := by
    unfold BuiltinConstant.ofText?
    rw [List.find?_eq_none]
    intro c _ heq
    exact h.not_reserved c.keyword (eq_of_beq heq)
  rw [atomType?_word hcs (Lexing.isNameStart_of_headKind hkind)
    ⟨(h.not_reserved .true).symm, (h.not_reserved .false).symm⟩, hconstant]
  cases symbols.get? n <;> rfl

theorem atomType?_of_literalType? (cs : List Char) {type : ValueType}
    (h : literalType? cs = some type) : atomType? symbols cs = some type := by
  rw [atomType?, h]
  rfl

theorem atomType?_string {body : List Char} (h : '"' ∉ body) :
    atomType? symbols ('"' :: (body ++ ['"'])) = some .string := by
  have hnumber : ¬ (isIntLiteral ('"' :: (body ++ ['"'])) = true ∨
      isFloatLiteral ('"' :: (body ++ ['"'])) = true) := by
    intro hor
    obtain ⟨d, rest, hd, hdecimal⟩ := isDecimal_head hor
    rw [← (List.cons_eq_cons.1 hd).1] at hdecimal
    exact absurd hdecimal (by decide)
  rw [not_or] at hnumber
  have hstring : isStringLiteral ('"' :: (body ++ ['"'])) = true := by simp [isStringLiteral, h]
  refine atomType?_of_literalType? _ ?_
  rw [literalType?, if_neg hnumber.1, if_neg hnumber.2, if_pos hstring]

theorem inferWithin_atom [Build] {cs : List Char} {room : Nat} (htight : Tight cs)
    (hparen : parenthesized? cs = none) (hcall : wholeCall? cs = none) :
    inferWithin symbols (room + 1) cs = .ok { type := atomType? symbols cs } := by
  unfold inferWithin
  dsimp only
  rw [htight.trim, hparen, hcall]
  cases atomType? symbols cs <;> rfl

theorem inferWithin_paren [Build] {cs inner : List Char} {room : Nat} (htight : Tight cs)
    (hatom : atomType? symbols cs = none) (hparen : parenthesized? cs = some inner) :
    inferWithin symbols (room + 1) cs = inferWithin symbols room inner := by
  rw [inferWithin]
  dsimp only
  rw [htight.trim, hatom, hparen]

/-- What is found out about a call with these arguments. -/
def callTyping [Build] (symbols : Symbols) (room : Nat) (args : List (List Char)) :
    ReturnKind → Except CheckFault Typing
  | .float => .ok { type := some .float }
  | .int => .ok { type := some .int }
  | .void => .ok { type := none }
  | .castTarget =>
    .ok { type := args[1]?.bind fun target => ValueType.ofText? (String.ofList target) }
  | .firstArgument => inferWithin symbols room (args.head?.getD [])

/-- With so many levels to go, inference finds the type of the expression in its text. -/
def Inferred [Build] (symbols : Symbols) (room : Nat) (e : Expr) : Prop :=
  ∃ typing, inferWithin symbols room e.text.toList = .ok typing ∧ typing.type = e.valueType? symbols

/-- What is no call and not in parentheses has the type of an atom, or none. -/
theorem Legible.inferred_atom [Build] (h : e.Legible) {room : Nat} (hparen : '(' ∉ e.text.toList)
    (hatom : atomType? symbols e.text.toList = e.valueType? symbols) : e.Inferred symbols (room + 1) :=
  ⟨_, inferWithin_atom h.layout.1 (parenthesized?_eq_none hparen) (wholeCall?_eq_none hparen), hatom⟩

theorem inferred_integer [Build] {t : String} (h : Lexing.Spells t.toList (.integer t)) {room : Nat}
    {s : Span} :
    (integer t s).Inferred symbols (room + 1) := by
  have hlegible : (integer t s).Legible := h
  exact hlegible.inferred_atom (fun hmem => absurd ((h.nameParts (.inr rfl)).2 _ hmem) (by decide))
    (atomType?_of_literalType? _ (if_pos (isIntLiteral_of_spells h).1))

theorem inferred_real [Build] {t : String} (h : Lexing.Spells t.toList (.real t)) {room : Nat}
    {s : Span} :
    (real t s).Inferred symbols (room + 1) := by
  have hlegible : (real t s).Legible := h
  obtain ⟨hint, hfloat⟩ := isFloatLiteral_of_spells h
  refine hlegible.inferred_atom (fun hmem => absurd ((h.nameParts (.inr rfl)).2 _ hmem) (by decide))
    (atomType?_of_literalType? _ ?_)
  change literalType? t.toList = some .float
  rw [literalType?, hint, hfloat]
  rfl

theorem inferred_string [Build] {t : String} {s : Span} (h : (string t s).Legible) {room : Nat} :
    (string t s).Inferred symbols (room + 1) := by
  obtain ⟨body, hbody⟩ := h.1.quoted
  have hinside := h.2
  rw [hbody] at hinside
  have hquiet : ∀ c ∈ body, c ≠ '"' ∧ c ∉ separators := fun c hc => hinside c (by simpa using hc)
  refine h.inferred_atom ?_ ?_
  · change '(' ∉ t.toList
    rw [hbody]
    simpa using fun hmem => (hquiet '(' hmem).2 (by decide)
  · change atomType? symbols t.toList = some .string
    rw [hbody]
    exact atomType?_string fun hmem => (hquiet _ hmem).1 rfl

include hs

theorem inferWithin_call [Build] {k : Keyword} {signature : Signature} {inner : List Char}
    {room : Nat} (result : Typing) (hsignature : Signature.find? k.text = some signature)
    (hne : inner ≠ [])
    (h : callTyping symbols room (splitArgs inner) signature.returns = .ok result) :
    inferWithin symbols (room + 1) (callChars k inner) =
      .ok { result with calls := result.calls ++ [(signature, result.type)] } := by
  unfold inferWithin
  dsimp only
  rw [(tight_callChars k inner).trim, atomType?_callChars hs, parenthesized?_callChars,
    wholeCall?_callChars hsignature hne]
  dsimp only
  unfold callTyping at h
  cases hreturns : signature.returns with
  | firstArgument =>
    rw [hreturns] at h
    dsimp only at h ⊢
    rw [h]
    rfl
  | _ =>
    rw [hreturns] at h
    cases h
    rfl

theorem inferred_unaryMinus [Build] {s : Span} (h : (unaryMinus e s).Legible) {room : Nat} :
    (unaryMinus e s).Inferred symbols (room + 1) := by
  have htight := h.layout.1
  rw [toList_text_unaryMinus] at htight
  have htype : atomType? symbols ('-' :: e.text.toList) = e.numberType? := by
    rw [atomType?_eq_negativeType? hs (.head _) (by decide) (by decide)
      (isStringLiteral_eq_false (by decide))]
    exact Legible.negativeType?_eq (e := e) h
  unfold Inferred
  rw [toList_text_unaryMinus]
  exact ⟨_, inferWithin_atom htight rfl rfl, htype⟩

theorem Inferred.paren [Build] {room : Nat} {s : Span} (h : (paren e s).Legible)
    (inner : e.Inferred symbols room) :
    (paren e s).Inferred symbols (room + 1) := by
  have htight := h.layout.1
  rw [toList_text_paren] at htight
  have hnone : atomType? symbols ('(' :: (e.text.toList ++ [')'])) = none := by
    rw [atomType?_eq_negativeType? hs (.head _) (by decide) (by decide)
      (isStringLiteral_eq_false (by decide)), negativeType?_eq_none (by decide)]
  have hinner : parenthesized? ('(' :: (e.text.toList ++ [')'])) = some e.text.toList := by
    simp [parenthesized?]
  unfold Inferred
  rw [toList_text_paren, inferWithin_paren htight hnone hinner]
  exact inner

theorem inferred_cast [Build] {target : ValueType} {s : Span} (h : e.Legible) {room : Nat} :
    (cast e target s).Inferred symbols (room + 1) := by
  obtain ⟨htight, hcrossed⟩ := h.layout
  obtain ⟨htight', hcrossed'⟩ :=
    layout_of_spells (.keyword target.keyword) (.inl rfl : Lexing.terminalHead (.keyword target.keyword) = _ ∨ _)
  have htext : target.keyword.text = target.text := by cases target <;> rfl
  rw [htext] at htight' hcrossed'
  unfold Inferred
  rw [toList_text_cast]
  refine ⟨_, inferWithin_call hs (k := .cast) { type := some target } rfl (by simp) ?_, rfl⟩
  rw [splitArgs_pair htight hcrossed htight' hcrossed']
  simp [callTyping, ValueType.ofText?_text]

/-- Only an absolute value has the type of the argument. -/
theorem inferred_unaryCall [Build] {f : UnaryFunction} {s : Span} (h : e.Legible) {room : Nat}
    (inner : f = .abs → e.Inferred symbols room) : (unaryCall f e s).Inferred symbols (room + 1) := by
  obtain ⟨htight, hcrossed⟩ := h.layout
  unfold Inferred
  rw [toList_text_unaryCall]
  cases f with
  | sqrt =>
    exact ⟨_, inferWithin_call hs (k := .sqrt) { type := some .float } rfl htight.nonempty rfl, rfl⟩
  | round =>
    exact ⟨_, inferWithin_call hs (k := .round) { type := some .int } rfl htight.nonempty rfl, rfl⟩
  | abs =>
    obtain ⟨typing, hrun, htype⟩ := inner rfl
    refine ⟨_, inferWithin_call hs (k := .abs) typing rfl htight.nonempty ?_, htype⟩
    rw [splitArgs_single htight hcrossed]
    exact hrun

/-- All but a power have the type of the first argument. -/
theorem inferred_binaryCall [Build] {f : BinaryFunction} {a b : Expr} {s : Span} (ha : a.Legible)
    (hb : b.Legible) {room : Nat} (inner : f ≠ .pow → a.Inferred symbols room) :
    (binaryCall f a b s).Inferred symbols (room + 1) := by
  obtain ⟨htight, hcrossed⟩ := ha.layout
  obtain ⟨htight', hcrossed'⟩ := hb.layout
  have hne : a.text.toList ++ ',' :: ' ' :: b.text.toList ≠ [] := by simp
  have hfirst : ((splitArgs (a.text.toList ++ ',' :: ' ' :: b.text.toList)).head?.getD []) =
      a.text.toList := by
    rw [splitArgs_pair htight hcrossed htight' hcrossed']
    rfl
  unfold Inferred
  rw [toList_text_binaryCall]
  cases f with
  | pow =>
    exact ⟨_, inferWithin_call hs (k := .pow) { type := some .float } rfl hne rfl, rfl⟩
  | min =>
    obtain ⟨typing, hrun, htype⟩ := inner nofun
    refine ⟨_, inferWithin_call hs (k := .min) typing rfl hne ?_, htype⟩
    change inferWithin symbols room _ = _
    rw [hfirst, hrun]
  | max =>
    obtain ⟨typing, hrun, htype⟩ := inner nofun
    refine ⟨_, inferWithin_call hs (k := .max) typing rfl hne ?_, htype⟩
    change inferWithin symbols room _ = _
    rw [hfirst, hrun]

/-- By induction on the expression, with more levels to go than there are steps. -/
theorem Legible.inferred [Build] (h : e.Legible) {room : Nat} (hroom : e.typeSteps < room) :
    e.Inferred symbols room := by
  have hparts : ∀ {w : List Char}, (∀ c ∈ w, isNamePart c = true ∨ c = '.') → '(' ∉ w :=
    fun hw hmem => absurd (hw _ hmem) (by decide)
  induction e generalizing room with
    obtain ⟨room, rfl⟩ : ∃ n, room = n + 1 := ⟨room - 1, by omega⟩
  | unaryMinus e s => exact inferred_unaryMinus hs h
  | paren e s ih => exact .paren hs h (ih h (Nat.lt_of_succ_lt_succ hroom))
  | cast e target s => exact inferred_cast hs (e := e) h
  | unaryCall f e s ih =>
    refine inferred_unaryCall hs (e := e) h ?_
    rintro rfl
    exact ih h (Nat.lt_of_succ_lt_succ hroom)
  | binaryCall f a b s iha =>
    refine inferred_binaryCall hs h.1 h.2 fun hpow => iha h.1 ?_
    cases f with
    | pow => exact absurd rfl hpow
    | min => exact Nat.lt_of_succ_lt_succ hroom
    | max => exact Nat.lt_of_succ_lt_succ hroom
  | constant c s =>
    exact h.inferred_atom (hparts ((Lexing.Spells.keyword c.keyword).nameParts (.inl rfl)).2)
      (atomType?_constant c)
  | truth b s =>
    cases b
    · exact h.inferred_atom (show '(' ∉ "false".toList by decide)
        (atomType?_of_literalType? "false".toList (by decide))
    · exact h.inferred_atom (show '(' ∉ "true".toList by decide)
        (atomType?_of_literalType? "true".toList (by decide))
  | name n s =>
    have hspells : Lexing.Spells n.toList (.identifier n) := h
    exact h.inferred_atom (hparts (hspells.nameParts (.inl rfl)).2) (atomType?_name hspells)
  | integer t s => exact inferred_integer h
  | real t s => exact inferred_real h
  | string t s => exact inferred_string h
  | binary => exact h.elim

end

end Expr

/-- What inference makes of the text of an expression is what the form of the expression tells. Take an
expression that was parsed, without binary operators and with no quote, comma or bracket inside a
string, and a symbol table with names of word characters. Where no more steps than the limit lead into
parentheses and to first arguments, the type of the text is that of the expression: of a literal its
kind, of a name the type it is declared with, of a constant that or its own, of a negated number that
of the number, of parentheses that of their content, and of a call what the function says. -/
theorem infer_text [Build] {e : Expr} (h : e.Parsed) (hfree : e.OperatorFree)
    (hplain : e.PlainStrings) {symbols : Symbols}
    (hs : ∀ entry ∈ symbols.entries, ∀ c ∈ entry.1.toList, isWord c = true)
    (hsteps : e.typeSteps ≤ Limit.inferenceDepth) :
    (infer symbols e.text.toList).1 = e.valueType? symbols := by
  have hlegible : e.Legible := .of_spelled h.spelled hfree hplain
  obtain ⟨typing, hrun, htype⟩ := hlegible.inferred hs (Nat.lt_succ_of_le hsteps)
  unfold infer
  rw [hrun]
  exact htype

/-- A call whose type is that of a constant, behind another call and parentheses. -/
def largestExpr : Expr :=
  .binaryCall .max
    (.unaryCall .abs (.paren (.constant .pi ⟨⟨17, 1, 18⟩, ⟨19, 1, 20⟩⟩) ⟨⟨16, 1, 17⟩, ⟨20, 1, 21⟩⟩)
      ⟨⟨12, 1, 13⟩, ⟨21, 1, 22⟩⟩)
    (.unaryMinus (.integer "2" ⟨⟨24, 1, 25⟩, ⟨25, 1, 26⟩⟩) ⟨⟨23, 1, 24⟩, ⟨25, 1, 26⟩⟩)
    ⟨⟨8, 1, 9⟩, ⟨26, 1, 27⟩⟩

/-- The table comes before what is built in. -/
theorem infer_text_largest :
    largestExpr.Parsed ∧ largestExpr.OperatorFree ∧ largestExpr.PlainStrings ∧
      largestExpr.typeSteps ≤ Limit.inferenceDepth ∧ largestExpr.text = "max(abs((PI)), -2)" ∧
      (infer ⟨[("PI", .int)]⟩ largestExpr.text.toList).1 = some .int := by
  have hparsed : largestExpr.Parsed := by
    have hfirst : (parse {} {} "int x = max(abs((PI)), -2)").tree.firstValue? = some largestExpr := by
      decide +kernel
    exact Expr.parsed_of_firstValue? hfirst
  have hfree : largestExpr.OperatorFree := ⟨trivial, trivial⟩
  have hplain : largestExpr.PlainStrings := by
    intro text htext
    simp [largestExpr, Expr.terminals] at htext
  have hword : ∀ entry ∈ (⟨[("PI", .int)]⟩ : Symbols).entries, ∀ c ∈ entry.1.toList, isWord c = true :=
    List.forall_mem_singleton.2 (List.all_eq_true.1 (by decide))
  exact ⟨hparsed, hfree, hplain, by decide, by decide, infer_text hparsed hfree hplain hword (by decide)⟩

end EvlCheck
