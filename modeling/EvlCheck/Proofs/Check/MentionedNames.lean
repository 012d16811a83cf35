/-
The names that the value of a declaration mentions. Validation looks for them in the text: it takes the
words outside of quotes that begin like a name, but for those in front of a parenthesis. In the text of an
expression without strings these are the names of the tree and some words of the language, which need no
declaration (`Expr.Over.strangers_text`). So a line that is a declaration is told of the names in its value
that nothing declares, each as often as it stands there and in that order (`analyze_undeclared`).
-/
import EvlCheck.Proofs.Check.LineChanges
import EvlCheck.Proofs.Check.Sources
import EvlCheck.Proofs.Check.StatementText
import EvlCheck.Proofs.Check.Tally
import EvlCheck.Proofs.Parsing.CleanSource

namespace EvlCheck

open Text Check

/-! ## Names of a tree -/

namespace Expr

/-- The names in an expression, from left to right. -/
def names : Expr → List String
  | .unaryMinus e _ | .paren e _ | .cast e _ _ | .unaryCall _ e _ => e.names
  | .binaryCall _ a b _ | .binary _ _ a b _ => a.names ++ b.names
  | .name n _ => [n]
  | .constant .. | .integer .. | .real .. | .string .. | .truth .. => []

theorem names_bare (e : Expr) : e.bare.names = e.names := by
  induction e with
  | unaryMinus e s ih | paren e s ih | cast e t s ih | unaryCall f e s ih => exact ih
  | binaryCall f a b s iha ihb | binary op opSpan a b s iha ihb => exact congrArg₂ (· ++ ·) iha ihb
  | _ => rfl

end Expr

/-- A quote stands in no other token than a string. -/
theorem Lexing.Words.quote_not_mem {tail body : List Char} {ts : List Token}
    (h : Lexing.Words tail body ts) (hstring : ∀ t ∈ ts, ∀ text, t ≠ .string text) : '"' ∉ body := by
  have hword : ∀ {w : List Char} {t : Token}, Lexing.Spells w t → t.isSignificant = true →
      (∀ text, t ≠ .string text) → '"' ∉ w := by
    intro w t hspells hseen hstring hmem
    cases hsymbol : t.isSymbol with
    | true =>
      cases hspells with
      | symbol s => cases s <;> exact absurd hmem (by decide)
      | _ => cases hsymbol
    | false =>
      rcases hspells.isNamePart_or_point hseen hsymbol hstring _ hmem with hc | hc
      · exact absurd hc (by decide)
      · exact absurd hc (by decide)
  induction h with
  | last seen reading =>
    exact hword (reading.spells (Lexing.isError_of_isSignificant seen)) seen (hstring _ (.head _))
  | more seen reading gap next ih =>
    rw [List.forall_mem_cons] at hstring
    rw [List.append_assoc] at reading
    rw [List.mem_append, List.mem_append, not_or, not_or]
    exact ⟨hword (reading.spells (Lexing.isError_of_isSignificant seen)) seen hstring.1,
      Lexing.not_mem_gap gap (by decide), ih hstring.2⟩

namespace Check

/-! ## Names that are known -/

section

variable (symbols : Symbols) (current : String)

theorem isKnownName_constant (c : BuiltinConstant) :
    isKnownName symbols current c.keyword.text = true := by
  have hconstant : (BuiltinConstant.ofText? c.keyword.text).isSome = true := by cases c <;> rfl
  simp [isKnownName, hconstant]

theorem isKnownName_type (type : ValueType) :
    isKnownName symbols current type.keyword.text = true := by
  have htype : (ValueType.ofText? type.keyword.text).isSome = true := by cases type <;> rfl
  simp [isKnownName, htype]

theorem isKnownName_true : isKnownName symbols current Keyword.true.text = true := by
  simp [isKnownName, Keyword.text]

theorem isKnownName_false : isKnownName symbols current Keyword.false.text = true := by
  simp [isKnownName, Keyword.text]

/-- A name that is no word of the language has to be declared. -/
theorem isKnownName_of_free {name : String} (h : ∀ k : Keyword, k.text ≠ name) :
    isKnownName symbols current name = (symbols.contains name || name == current) := by
  have hconstant : BuiltinConstant.ofText? name = none := by
    refine List.find?_eq_none.2 fun c _ => ?_
    have hkeyword : c.keyword.text = c.text := by cases c <;> rfl
    simpa [← hkeyword] using h c.keyword
  have hfunction : Signature.find? name = none := by
    refine List.find?_eq_none.2 fun s hs => ?_
    have hall : ∀ s ∈ Signature.all, ∃ k ∈ Keyword.all, k.text = s.name := by decide
    obtain ⟨k, -, hk⟩ := hall s hs
    simpa [← hk] using h k
  have htype : ValueType.ofText? name = none := by
    cases hfound : ValueType.ofText? name with
    | none => rfl
    | some type =>
      have hkeyword : type.keyword.text = type.text := by cases type <;> rfl
      exact absurd (hkeyword.trans (text_of_ofText? hfound)) (h type.keyword)
  have htrue : (name == "true") = false := beq_false_of_ne (h .true).symm
  have hfalse : (name == "false") = false := beq_false_of_ne (h .false).symm
  simp [isKnownName, hconstant, hfunction, htype, htrue, hfalse]

end

/-! ## Names of a text -/

/-- The name that a word mentions, given the text behind it. -/
def mention? (word behind : List Char) : Option String :=
  if word.head?.any isNameStart && (afterBlanks? '(' behind).isNone then some (String.ofList word)
  else none

/-- The names that a text without quotes mentions, but for those that are known in the value of
`current`. -/
def strangers (symbols : Symbols) (current : String) (cs : List Char) : List String :=
  ((words cs).filterMap fun w => mention? w.1 w.2).filter fun name => !isKnownName symbols current name

theorem unquoted_of_not_mem {cs : List Char} (h : '"' ∉ cs) : unquoted cs = cs := by
  unfold unquoted
  rw [splitOn_of_not_mem h]
  exact List.append_nil cs

theorem undeclaredNames_of_not_mem {symbols : Symbols} {current : String} {value : List Char}
    (h : '"' ∉ value) : undeclaredNames symbols current value = strangers symbols current value := by
  unfold undeclaredNames mentionedNames
  rw [unquoted_of_not_mem h]
  rfl

section

variable {symbols : Symbols} {current : String} {g w rest : List Char}

theorem strangers_separators (hw : ∀ c ∈ w, isWord c = false) (rest : List Char) :
    strangers symbols current (w ++ rest) = strangers symbols current rest := by
  unfold strangers
  rw [words_separators hw]

theorem strangers_word (hne : w ≠ []) (hw : ∀ c ∈ w, isWord c = true)
    (hrest : ∀ c ∈ rest.head?, isWord c = false) :
    strangers symbols current (w ++ rest) =
      ((mention? w rest).toList.filter fun name => !isKnownName symbols current name) ++
        strangers symbols current rest := by
  unfold strangers
  rw [words_word hne hw hrest, List.filterMap_cons]
  cases mention? w rest with
  | none => rfl
  | some name => exact List.filter_append [name] _

theorem strangers_gap (hg : ∀ c ∈ g, Lexing.isGap c = true) (rest : List Char) :
    strangers symbols current (g ++ rest) = strangers symbols current rest :=
  strangers_separators (fun c hc => isWord_of_isBlank (isBlank_of_isGap (hg c hc))) rest

theorem strangers_symbol (hg : ∀ c ∈ g, Lexing.isGap c = true) (s : OpSymbol) (rest : List Char) :
    strangers symbols current (g ++ (s.chars ++ rest)) = strangers symbols current rest := by
  rw [strangers_gap hg, strangers_separators s.isWord_chars]

/-- A part between gaps, in front of a symbol. -/
theorem strangers_between {a g' : List Char} {found : List String} {s : OpSymbol}
    (hg : ∀ c ∈ g, Lexing.isGap c = true) (hg' : ∀ c ∈ g', Lexing.isGap c = true)
    (h : strangers symbols current (a ++ (g' ++ (s.chars ++ rest))) =
      found ++ strangers symbols current (g' ++ (s.chars ++ rest))) :
    strangers symbols current (g ++ (a ++ (g' ++ (s.chars ++ rest)))) =
      found ++ strangers symbols current rest := by
  rw [strangers_gap hg, h, strangers_symbol hg']

/-- A word of the language that is called is no name. -/
theorem strangers_called (k : Keyword) (hg : ∀ c ∈ g, Lexing.isGap c = true) (rest : List Char) :
    strangers symbols current (k.text.toList ++ (g ++ '(' :: rest)) = strangers symbols current rest := by
  have hblank : ∀ d ∈ g, isBlank d = true := fun d hd => isBlank_of_isGap (hg d hd)
  have hcalled : mention? k.text.toList (g ++ '(' :: rest) = none := by
    unfold mention?
    rw [afterBlanks?_blanks_append hblank, afterBlanks?_cons (by decide), if_pos rfl]
    simp
  have hends : ∀ c ∈ (g ++ '(' :: rest).head?, isWord c = false :=
    head?_blanks_append hblank (by rintro _ ⟨⟩; decide)
  rw [strangers_word (keyword_text_ne_nil k) (isWord_keyword k) hends, hcalled]
  exact strangers_symbol hg .leftParen rest

/-- The names in the argument of a call. -/
theorem strangers_call_between (k : Keyword) {a g₁ g₂ : List Char} {found : List String}
    (hg : ∀ c ∈ g, Lexing.isGap c = true) (hg₁ : ∀ c ∈ g₁, Lexing.isGap c = true)
    (hg₂ : ∀ c ∈ g₂, Lexing.isGap c = true)
    (ha : strangers symbols current (a ++ (g₂ ++ (OpSymbol.rightParen.chars ++ rest))) =
      found ++ strangers symbols current (g₂ ++ (OpSymbol.rightParen.chars ++ rest))) :
    strangers symbols current (k.text.toList ++ (g ++ '(' :: (g₁ ++ (a ++ (g₂ ++ ')' :: rest))))) =
      found ++ strangers symbols current rest :=
  (strangers_called k hg _).trans (strangers_between hg₁ hg₂ ha)

/-- The names in the two arguments of a call. -/
theorem strangers_pair_between (k : Keyword) {a b g₁ g₂ g₃ g₄ : List Char} {found found' : List String}
    (hg : ∀ c ∈ g, Lexing.isGap c = true) (hg₁ : ∀ c ∈ g₁, Lexing.isGap c = true)
    (hg₂ : ∀ c ∈ g₂, Lexing.isGap c = true) (hg₃ : ∀ c ∈ g₃, Lexing.isGap c = true)
    (hg₄ : ∀ c ∈ g₄, Lexing.isGap c = true)
    (ha : strangers symbols current (a ++ (g₂ ++ (OpSymbol.comma.chars ++ (g₃ ++ (b ++ (g₄ ++ ')' :: rest)))))) =
      found ++ strangers symbols current (g₂ ++ (OpSymbol.comma.chars ++ (g₃ ++ (b ++ (g₄ ++ ')' :: rest))))))
    (hb : strangers symbols current (b ++ (g₄ ++ (OpSymbol.rightParen.chars ++ rest))) =
      found' ++ strangers symbols current (g₄ ++ (OpSymbol.rightParen.chars ++ rest))) :
    strangers symbols current
        (k.text.toList ++ (g ++ '(' :: (g₁ ++ (a ++ (g₂ ++ ',' :: (g₃ ++ (b ++ (g₄ ++ ')' :: rest)))))))) =
      found ++ (found' ++ strangers symbols current rest) := by
  have hsecond : strangers symbols current (g₃ ++ (b ++ (g₄ ++ ')' :: rest))) =
      found' ++ strangers symbols current rest := strangers_between hg₃ hg₄ hb
  rw [← hsecond]
  exact (strangers_called k hg _).trans (strangers_between hg₁ hg₂ ha)

/-- What a word mentions in front of a quiet text. -/
theorem mention?_quiet {c : Char} (hc : isNameStart c = true) (w : List Char) (hrest : Quiet rest) :
    mention? (c :: w) rest = some (String.ofList (c :: w)) := by
  unfold mention?
  rw [hrest.call]
  simp [hc]

theorem strangers_known {k : Keyword} (hk : isKnownName symbols current k.text = true)
    (hrest : Quiet rest) :
    strangers symbols current (k.text.toList ++ rest) = strangers symbols current rest := by
  obtain ⟨c, w, htext, hc, hw⟩ := Lexing.keyword_text_shape k
  have hname : mention? k.text.toList rest = some k.text := by
    rw [htext, mention?_quiet hc w hrest, ← htext, String.ofList_toList]
  rw [strangers_word (keyword_text_ne_nil k) (isWord_keyword k) hrest.word, hname]
  simp [hk]

theorem strangers_name {c : Char} (hc : isNameStart c = true) (hw : ∀ d ∈ w, isNamePart d = true)
    (hfree : ∀ k : Keyword, k.text.toList ≠ c :: w) (hrest : Quiet rest) :
    strangers symbols current (c :: w ++ rest) =
      ([String.ofList (c :: w)].filter fun name => !(symbols.contains name || name == current)) ++
        strangers symbols current rest := by
  have hknown := @isKnownName_of_free symbols current (String.ofList (c :: w)) fun k hk =>
    hfree k (by rw [hk, String.toList_ofList])
  rw [strangers_word (List.cons_ne_nil c w) (isWord_of_name hc hw) hrest.word, mention?_quiet hc w hrest]
  refine congrArg (· ++ _) (List.filter_congr fun name hname => ?_)
  rw [List.mem_singleton.1 hname, hknown]

/-- A word that begins with a digit is no name. -/
theorem strangers_digits (hne : w ≠ []) (hw : ∀ c ∈ w, c.isDigit = true)
    (hrest : ∀ c ∈ rest.head?, isWord c = false) :
    strangers symbols current (w ++ rest) = strangers symbols current rest := by
  have hword : ∀ c ∈ w, isWord c = true := fun c hc =>
    isWord_of_isNamePart (by simp [isNamePart, Char.isAlphanum, hw c hc])
  have hnone : mention? w rest = none := by
    obtain ⟨c, w, rfl⟩ := List.exists_cons_of_ne_nil hne
    have hc : isNameStart c = false := by
      by_contra hstart
      have hother := Lexing.isDigit_eq_false_of_isNameStart ((Bool.not_eq_false _).mp hstart)
      rw [hw c List.mem_cons_self] at hother
      cases hother
    simp [mention?, hc]
  rw [strangers_word hne hword hrest, hnone]
  rfl

end

end Check

/-! ## Names of the text of a tree -/

namespace Expr

open Lexing (Row Spells)

variable {symbols : Symbols} {current : String} {before w rest : List Char}

/-- The names that need a declaration and have none. -/
def strangers (symbols : Symbols) (current : String) (e : Expr) : List String :=
  e.names.filter fun name => !(symbols.contains name || name == current)

theorem strangers_binaryCall (f : BinaryFunction) (a b : Expr) (s : Span) :
    (Expr.binaryCall f a b s).strangers symbols current =
      a.strangers symbols current ++ b.strangers symbols current := List.filter_append _ _

theorem strangers_binary (op : BinaryOp) (opSpan : Span) (a b : Expr) (s : Span) :
    (Expr.binary op opSpan a b s).strangers symbols current =
      a.strangers symbols current ++ b.strangers symbols current := List.filter_append _ _

theorem IsLeaf.strangers_text {make : Span → Expr} {t : Token} (h : IsLeaf make t) (hspells : Spells w t)
    (hstring : ∀ text, t ≠ .string text) (hrest : Quiet rest) (s : Span) :
    Check.strangers symbols current (w ++ rest) =
      (make s).strangers symbols current ++ Check.strangers symbols current rest := by
  have hchildren := h.children s
  have hterminals := h.terminals s
  generalize make s = e at hchildren hterminals
  cases e with
  | unaryMinus | paren | cast | unaryCall | binaryCall | binary => cases hchildren
  | constant c =>
    cases hterminals
    cases hspells
    exact strangers_known (isKnownName_constant _ _ c) hrest
  | name n =>
    cases hterminals
    cases hspells with
    | identifier start more free =>
      exact strangers_name (by simpa [isNameStart] using start)
        (fun d hd => by simpa [isNamePart] using more d hd) free hrest
  | integer =>
    cases hterminals
    cases hspells with
    | integer nonempty digits => exact strangers_digits nonempty digits hrest.word
  | real =>
    cases hterminals
    cases hspells with
    | real whole_ne part_ne whole_digits part_digits =>
      rw [List.append_assoc, strangers_digits whole_ne whole_digits (by rintro _ ⟨⟩; decide)]
      exact (strangers_separators (w := ['.']) (List.forall_mem_singleton.2 (by decide)) _).trans
        (strangers_digits part_ne part_digits hrest.word)
  | string => exact absurd (List.cons.inj hterminals).1.symm (hstring _)
  | truth b =>
    cases b with
    | true =>
      cases hterminals
      cases hspells
      exact strangers_known (isKnownName_true _ _) hrest
    | false =>
      cases hterminals
      cases hspells
      exact strangers_known (isKnownName_false _ _) hrest

namespace Over

variable {e : Expr} {ts : List SpannedToken}

/-- In front of a quiet text, the text of an expression without strings mentions the names of the tree. By
induction on the tree: what stands between its parts are symbols, words that are called, and types. -/
theorem strangers_text (h : e.Over ts) (hrow : Row before ts w)
    (hstring : ∀ t ∈ ts, ∀ text, t.value ≠ .string text) (hrest : Quiet rest) :
    Check.strangers symbols current (w ++ rest) =
      e.strangers symbols current ++ Check.strangers symbols current rest := by
  induction h generalizing before w rest with
  | leaf make_leaf => exact make_leaf.strangers_text hrow.single (hstring _ (.head _)) hrest _
  | unaryMinus sign_value operand span ih =>
    rw [List.forall_mem_cons] at hstring
    obtain ⟨v, g, a, rfl, hv, hg, ha⟩ := hrow.uncons operand.ne_nil
    rw [sign_value] at hv
    cases hv
    rw [List.append_assoc, strangers_separators OpSymbol.minus.isWord_chars, List.append_assoc,
      strangers_gap hg]
    exact ih ha hstring.2 hrest
  | paren left_value right_value inner span ih =>
    rw [List.forall_mem_cons, List.forall_mem_append] at hstring
    obtain ⟨g, a, g', rfl, hg, hg', ha⟩ := hrow.enclosed inner.ne_nil left_value right_value
    have hfront := @strangers_separators symbols current _
      OpSymbol.leftParen.isWord_chars (g ++ (a ++ (g' ++ ')' :: rest)))
    have hinner := strangers_between hg hg'
      (ih ha hstring.2.1 (quiet_symbol hg' rest (s := .rightParen) (by decide)))
    simp only [List.append_assoc, List.cons_append, List.nil_append, OpSymbol.chars] at hfront hinner ⊢
    rw [hfront, hinner]
    rfl
  | @cast e target s word left comma type right ts word_value left_value comma_value type_value right_value
      arg span ih =>
    rw [List.forall_mem_cons, List.forall_mem_cons, List.forall_mem_append] at hstring
    have hrow : Row before (word :: left :: (ts ++ comma :: ([type] ++ [right]))) w := hrow
    obtain ⟨g, g₁, a, g₂, g₃, b, g₄, rfl, hg, hg₁, hg₂, hg₃, hg₄, ha, hb⟩ := hrow.pairCall arg.ne_nil
      (List.cons_ne_nil _ _) word_value left_value comma_value right_value
    have htype := hb.single
    rw [type_value] at htype
    cases htype
    have htarget : Check.strangers symbols current
          (target.keyword.text.toList ++ (g₄ ++ (OpSymbol.rightParen.chars ++ rest))) =
        [] ++ Check.strangers symbols current (g₄ ++ (OpSymbol.rightParen.chars ++ rest)) :=
      strangers_known (isKnownName_type symbols current target) (quiet_symbol hg₄ rest (by decide))
    have hcall := strangers_pair_between .cast hg hg₁ hg₂ hg₃ hg₄
      (ih ha hstring.2.2.1 (quiet_symbol hg₂ _ (s := .comma) (by decide))) htarget
    simp only [List.append_assoc, List.cons_append, List.nil_append] at hcall ⊢
    exact hcall
  | @unaryCall f e s word left right ts word_value left_value right_value arg span ih =>
    rw [List.forall_mem_cons, List.forall_mem_cons, List.forall_mem_append] at hstring
    obtain ⟨g, g₁, a, g₂, rfl, hg, hg₁, hg₂, ha⟩ := hrow.call arg.ne_nil word_value left_value right_value
    have hcall := strangers_call_between f.keyword hg hg₁ hg₂
      (ih ha hstring.2.2.1 (quiet_symbol hg₂ rest (s := .rightParen) (by decide)))
    simp only [List.append_assoc, List.cons_append, List.nil_append] at hcall ⊢
    exact hcall
  | @binaryCall f x y s word left comma right ts us word_value left_value comma_value right_value first
      second span ihx ihy =>
    rw [List.forall_mem_cons, List.forall_mem_cons, List.forall_mem_append, List.forall_mem_cons,
      List.forall_mem_append] at hstring
    obtain ⟨g, g₁, a, g₂, g₃, b, g₄, rfl, hg, hg₁, hg₂, hg₃, hg₄, ha, hb⟩ := hrow.pairCall first.ne_nil
      second.ne_nil word_value left_value comma_value right_value
    have hcall := strangers_pair_between f.keyword hg hg₁ hg₂ hg₃ hg₄
      (ihx ha hstring.2.2.1 (quiet_symbol hg₂ _ (s := .comma) (by decide)))
      (ihy hb hstring.2.2.2.2.1 (quiet_symbol hg₄ rest (s := .rightParen) (by decide)))
    simp only [List.append_assoc, List.cons_append, List.nil_append] at hcall ⊢
    rw [hcall, strangers_binaryCall, List.append_assoc]
  | @binary op x y s sign ts us sign_value first second span ihx ihy =>
    rw [List.forall_mem_append, List.forall_mem_cons] at hstring
    obtain ⟨a, g, g', b, rfl, hg, hg', ha, hb⟩ := hrow.infixed first.ne_nil second.ne_nil sign_value
    have hleft := ihx ha hstring.1
      (quiet_symbol hg (g' ++ (b ++ rest)) (s := op.symbol) (by cases op <;> decide))
    rw [strangers_symbol hg, strangers_gap hg', ihy hb hstring.2.2 hrest] at hleft
    simp only [List.append_assoc] at hleft ⊢
    rw [hleft, strangers_binary, List.append_assoc]

end Over

end Expr

/-! ## Findings on undeclared names -/

/-- The finding is about a name that nothing declares. -/
def Diagnostic.isUndeclared (d : Diagnostic) : Bool :=
  "Reference to undeclared identifier".toList.isPrefixOf d.message.toList

/-- A line of the script declares the name with a value. -/
def Script.declares (s : Script) (name : String) : Bool :=
  s.lines.any fun line => (declaration? line).any (·.name == name)

theorem Script.contains_symbols_eq (s : Script) (name : String) :
    s.symbols.contains name = s.declares name := by
  unfold Symbols.contains declares
  rw [Script.get?_symbols, Option.isSome_map, Bool.eq_iff_iff, List.find?_isSome, List.any_eq_true]
  simp only [List.mem_reverse, List.mem_filterMap, decide_eq_true_eq, Option.any_eq_true, beq_iff_eq]
  constructor
  · rintro ⟨p, ⟨line, hline, hdeclares⟩, rfl⟩
    obtain ⟨d, hd, rfl⟩ := Option.map_eq_some_iff.1 hdeclares
    exact ⟨line, hline, d, hd, rfl⟩
  · rintro ⟨line, hline, d, hd, rfl⟩
    exact ⟨(d.name, d.type), ⟨line, hline, by rw [Script.declares?, hd]; rfl⟩, rfl⟩

namespace Check

theorem Complaint.isUndeclared_iff {c : Complaint} {line : Nat} :
    (c.diagnostic line).isUndeclared = true ↔ c.topic = .undeclared := by
  have hopening : ∀ t : Topic, "Reference to undeclared identifier".toList <+: t.opening ↔ t = .undeclared := by
    have hall : ∀ t ∈ Topic.all, "Reference to undeclared identifier".toList <+: t.opening ↔ t = .undeclared := by
      unfold Topic.opening
      repeat rw [String.toList_ofList]
      decide +kernel
    exact fun t => hall t t.mem_all
  unfold Diagnostic.isUndeclared
  rw [List.isPrefixOf_iff_prefix, message_diagnostic, ← hopening, ← c.beforeQuote_message]
  refine ⟨?_, fun h => h.trans (List.takeWhile_prefix _)⟩
  rintro ⟨rest, hrest⟩
  refine ⟨rest.takeWhile (· != '\''), ?_⟩
  unfold beforeQuote
  rw [← hrest, List.takeWhile_append_of_pos (List.all_eq_true.1 (by decide))]

/-- Of all that a declaration is told of, the names that nothing declares. -/
theorem filter_isUndeclared [Build] (symbols : Symbols) (line : Nat) (repeated guarded : Bool)
    (d : Declaration) :
    (complained line (declarationComplaints symbols line repeated guarded d)).filter (·.isUndeclared) =
      complained line ((undeclaredNames symbols d.name (trim d.value)).map .undeclared) := by
  have hother : ∀ {cs : List Complaint}, (∀ c ∈ cs, c.topic ≠ .undeclared) →
      (complained line cs).filter (·.isUndeclared) = [] := by
    intro cs h
    refine List.filter_eq_nil_iff.2 fun f hf hundeclared => ?_
    obtain ⟨c, hc, rfl⟩ := List.mem_map.1 hf
    exact h c hc (Complaint.isUndeclared_iff.1 hundeclared)
  have hnames : ∀ names : List String, (complained line (names.map .undeclared)).filter (·.isUndeclared) =
      complained line (names.map .undeclared) := by
    intro names
    refine List.filter_eq_self.2 fun f hf => ?_
    obtain ⟨c, hc, rfl⟩ := List.mem_map.1 hf
    obtain ⟨name, -, rfl⟩ := List.mem_map.1 hc
    exact Complaint.isUndeclared_iff.2 rfl
  unfold declarationComplaints
  simp only [complained_append, List.filter_append, hnames]
  rw [hother, hother, hother, @hother (expressionComplaints _ _)]
  · simp
  · exact fun c hc => topic_ne_of_call hc rfl
  · intro c hc
    split at hc
    · rw [List.mem_singleton.1 hc]
      nofun
    · cases hc
  · intro c hc
    split at hc
    · exact topic_ne_of_number hc rfl
    · cases hc
  · intro c hc
    split at hc
    · rw [List.mem_singleton.1 hc]
      nofun
    · cases hc

/-- The value of a declaration in normal form has the strangers of its tree. -/
theorem undeclaredNames_words {value : List Char} {e : Expr} (h : Lexing.Words [] value e.terminals)
    (hstring : ∀ t ∈ e.terminals, ∀ text, t ≠ .string text) (symbols : Symbols) (current : String) :
    undeclaredNames symbols current value = e.strangers symbols current := by
  obtain ⟨row, hvalues, hrow⟩ := h.exists_row []
  obtain ⟨e', hover, hbare⟩ := e.exists_over hvalues
  have hplain : ∀ t ∈ row, ∀ text, t.value ≠ .string text := by
    intro t ht
    refine hstring _ ?_
    rw [← hvalues]
    exact List.mem_map_of_mem ht
  have hfound := @Expr.Over.strangers_text symbols current _ _ [] _ _ hover hrow hplain ⟨by simp, rfl⟩
  rw [List.append_nil] at hfound
  rw [undeclaredNames_of_not_mem (h.quote_not_mem hstring), hfound]
  unfold Expr.strangers
  rw [← e'.names_bare, hbare, e.names_bare]
  exact List.append_nil _

/-- A line of one declaration, without comments and strings, is told of the names in its value that
nothing declares, each as often as it stands there and in that order. -/
theorem analyze_undeclared [Build] (prefs : AnalysisPreferences) {lexical : LexicalPreferences}
    {preferences : ParserPreferences} {source : String} {before behind : List (List Char)}
    {raw : List Char} {s : Stmt} {constant : Bool} {d : VarDecl}
    (hlines : Text.lines source.toList = before ++ raw :: behind)
    (hlength : raw.length ≤ Limit.lineChars) (hinvalid : lexical.reportInvalid = true)
    (hsilent : (parse lexical preferences (String.ofList raw)).diagnostics = [])
    (htree : (parse lexical preferences (String.ofList raw)).tree.statements = [s])
    (hdeclared : s.declared? = some (constant, d))
    (hcalm : ∀ t ∈ (Lexing.tokenize lexical (String.ofList raw)).tokens,
      t.value.isComment = false ∧ ∀ text, t.value ≠ .string text)
    (hroom : (Script.ofSource source.toList).findings.length ≤ Limit.semanticDiagnostics) :
    (analyze prefs source).1.filter (fun f => f.isUndeclared && f.line = before.length + 1) =
      (d.value.names.filter fun name =>
        name != d.name && !(Script.ofSource source.toList).declares name).map fun name =>
          ⟨.warning, before.length + 1, none, none, s!"Reference to undeclared identifier '{name}'"⟩ := by
  have herrors : (parse lexical preferences (String.ofList raw)).hasErrors = false := by
    rw [ParseOutcome.hasErrors, hsilent]
    rfl
  have hshown : (parse lexical preferences (String.ofList raw)).diagnostics.length <
      Limit.syntaxDiagnostics := by
    rw [hsilent]
    exact Limit.syntaxDiagnostics_pos
  have hstring : ∀ t ∈ s.terminals, ∀ text, t ≠ .string text := by
    intro t ht
    obtain ⟨u, hu, rfl⟩ := mem_tokens_of_line herrors hshown htree ht
    exact (hcalm u hu).2
  have hcomment : ∀ t ∈ (Lexing.tokenize lexical (String.ofList raw)).tokens,
      Lexing.isLineComment t.value = false := by
    intro t ht
    have hnone := (hcalm t ht).1
    cases hvalue : t.value <;> rw [hvalue] at hnone <;> first | rfl | cases hnone
  have hwords := words_of_line hinvalid herrors hshown htree
    (fun t ht text hblock => by simpa [hblock, Token.isComment] using (hcalm t ht).1)
    (List.pairwise_of_forall_mem_list fun t ht u _ hline => by
      rw [hcomment t (Array.mem_toList_iff.1 ht)] at hline
      cases hline)
    (fun t ht text h => absurd h ((hcalm t ht).2 text))
  -- Without comments and strings the line is the words of its tree, and so is the value.
  obtain ⟨⟨value, hdeclaration, hvalue⟩, hstructure⟩ := declaration?_words hdeclared hwords
  have hline := Script.filter_findings_ofSource hlines hlength
  rw [Walk.complaints_declaration hdeclaration hstructure] at hline
  -- The words of the value that are no reserved words are the names of the tree.
  have hnames : undeclaredNames (Script.ofSource source.toList).symbols d.name (trim value) =
      d.value.names.filter fun name =>
        name != d.name && !(Script.ofSource source.toList).declares name := by
    rw [hvalue.tight.trim, undeclaredNames_words hvalue fun t ht => hstring t (Stmt.mem_terminals_of_declared? hdeclared ht)]
    unfold Expr.strangers
    refine List.filter_congr fun name _ => ?_
    rw [Script.contains_symbols_eq, Bool.not_or, Bool.and_comm]
    rfl
  rw [analyze_eq_take, List.take_of_length_le hroom, ← List.filter_filter, hline,
    filter_isUndeclared, hnames, complained, List.map_map]
  rfl

/-- A name with a type as its beginning is a name, and one that is declared below is declared. -/
theorem analyze_undeclared_twice :
    let source := "float r = 1.5\nint x = max(y, cast(r, int)) + integral * y\r\nint integral = 2"
    let raw := "int x = max(y, cast(r, int)) + integral * y\r".toList
    let line := parse {} {} (String.ofList raw)
    Text.lines source.toList = ["float r = 1.5".toList] ++ raw :: ["int integral = 2".toList] ∧
      raw.length ≤ Limit.lineChars ∧ line.diagnostics = [] ∧
      line.tree.statements.map (fun s => s.declared?.map fun d => (d.2.name, d.2.value.names)) =
        [some ("x", ["y", "r", "integral", "y"])] ∧
      isCalm (Lexing.tokenize {} (String.ofList raw)).tokens = true ∧
      (Script.ofSource source.toList).findings.length ≤ Limit.semanticDiagnostics ∧
      (analyze {} source).1.filter (fun f => f.isUndeclared && f.line = 2) =
        [⟨.warning, 2, none, none, "Reference to undeclared identifier 'y'"⟩,
          ⟨.warning, 2, none, none, "Reference to undeclared identifier 'y'"⟩] := by
  intro source raw line
  have hspelt : raw = _ := String.toList_ofList
  have hlines : Text.lines source.toList = ["float r = 1.5".toList] ++ raw :: ["int integral = 2".toList] := by
    rw [String.toList_ofList, hspelt]
    decide +kernel
  have hlength : raw.length ≤ Limit.lineChars := by
    rw [hspelt]
    decide
  have hread : line.diagnostics = [] ∧
      line.tree.statements.map (fun s => s.declared?.map fun d => (d.2.name, d.2.value.names)) =
        [some ("x", ["y", "r", "integral", "y"])] ∧
      isCalm (Lexing.tokenize {} (String.ofList raw)).tokens = true := by
    simp only [line]
    rw [hspelt]
    rw [parse, parseState, Parser.ofSource, Lexing.tokenize, String.toList_ofList]
    decide +kernel
  obtain ⟨hsilent, hnames, hcalm⟩ := hread
  have hfindings : (Script.ofSource source.toList).findings =
      [.warning 2 "Reference to undeclared identifier 'y'", .warning 2 "Reference to undeclared identifier 'y'"] := by
    rw [String.toList_ofList]
    decide +kernel
  have hroom : (Script.ofSource source.toList).findings.length ≤ Limit.semanticDiagnostics := by
    rw [hfindings]
    decide
  refine ⟨hlines, hlength, hsilent, hnames, hcalm, hroom, ?_⟩
  obtain ⟨s, htree, hname⟩ := List.map_eq_singleton_iff.1 hnames
  obtain ⟨⟨constant, d⟩, hdeclared, hname⟩ := Option.map_eq_some_iff.1 hname
  obtain ⟨hname, hvalue⟩ := Prod.mk.inj hname
  have hfound := analyze_undeclared {} hlines hlength rfl hsilent htree hdeclared
    (fun t ht => (isCalm_iff hcalm t ht).2) hroom
  rw [hname, hvalue, String.toList_ofList] at hfound
  exact hfound.trans (by decide +kernel)

/-- A line that is too long declares nothing to validation. -/
theorem analyze_undeclared_overlong :
    let raw := "int y = x".toList
    let long := List.replicate Limit.lineChars ' ' ++ "int x = 1".toList
    let source := String.ofList (raw ++ '\n' :: long)
    Text.lines source.toList = [raw, long] ∧ (parse {} {} (String.ofList raw)).diagnostics = [] ∧
      (parse {} {} (String.ofList raw)).tree.statements.map
        (fun s => s.declared?.map fun d => (d.2.name, d.2.value.names)) = [some ("y", ["x"])] ∧
      isCalm (Lexing.tokenize {} (String.ofList raw)).tokens = true ∧
      declaration? (normalizeLine long) = some ⟨false, .int, "x", ['1']⟩ ∧
      (analyze {} source).1 = [⟨.warning, 1, none, none, "Reference to undeclared identifier 'x'"⟩] := by
  intro raw long source
  have hmem : ∀ {c : Char}, c ∈ long → c ∈ "int x = 1".toList := by
    intro c hc
    rcases List.mem_append.1 hc with hc | hc
    · rw [List.eq_of_mem_replicate hc]
      decide
    · exact hc
  have hlines : Text.lines source.toList = [raw, long] := by
    rw [String.toList_ofList]
    refine (splitOn_append_cons (by decide) long).trans ?_
    rw [splitOn_of_not_mem fun hc => absurd (hmem hc) (by decide)]
  have hlong : Limit.lineChars < long.length := by
    rw [List.length_append, List.length_replicate]
    exact Nat.lt_add_of_pos_right (by decide)
  have hscript : Script.ofSource source.toList = ⟨[raw, []]⟩ := by
    refine congrArg Script.mk ?_
    rw [hlines, List.map_cons, List.map_cons, if_pos hlong]
    rfl
  have hlast : long.getLast? = some '1' := by
    rw [List.getLast?_append]
    rfl
  have hsuffix : ∀ c, c ≠ '1' → dropSuffix c long = long := by
    intro c hc
    rw [dropSuffix, hlast, if_neg fun h => hc (Option.some.inj h).symm]
  have hnormal : normalizeLine long = "int x = 1".toList := by
    unfold normalizeLine trim
    rw [hsuffix '\r' (by decide), beforeComment_of_not_mem fun hc => absurd (hmem hc) (by decide),
      hsuffix ';' (by decide), trimStart_blanks_append fun c hc => by rw [List.eq_of_mem_replicate hc]; rfl]
    rfl
  have hspelt : raw = _ := String.toList_ofList
  have hread : (parse {} {} (String.ofList raw)).diagnostics = [] ∧
      (parse {} {} (String.ofList raw)).tree.statements.map
        (fun s => s.declared?.map fun d => (d.2.name, d.2.value.names)) = [some ("y", ["x"])] ∧
      isCalm (Lexing.tokenize {} (String.ofList raw)).tokens = true := by
    rw [hspelt]
    rw [parse, parseState, Parser.ofSource, Lexing.tokenize, String.toList_ofList]
    decide +kernel
  refine ⟨hlines, hread.1, hread.2.1, hread.2.2, ?_, ?_⟩
  · rw [hnormal]
    decide +kernel
  · rw [analyze_eq_take, hscript, hspelt]
    decide +kernel

end Check

end EvlCheck
