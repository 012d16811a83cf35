/-
How many arguments the calls of a statement are found to have. The grammar fixes their number, and
validation counts the pieces of the text between the parentheses. The two agree as long as no string
gives the search something to find: one in the arguments of a call has no comma and no bracket, and one
outside of all calls no opening parenthesis (`Expr.Clear`). The statement print, which takes any number
of arguments, has at least one to the search, whatever stands in its strings.

So a line of such a statement is not told of a wrong number of arguments (`analyze_counts`).
-/
import EvlCheck.Proofs.Check.LineChanges
import EvlCheck.Proofs.Check.Sources
import EvlCheck.Proofs.Check.StatementText
import EvlCheck.Proofs.Check.Tally
import EvlCheck.Proofs.Fix.FixedArgs

namespace EvlCheck

open Text Check

/-! ## Calls with the right number of arguments -/

/-- The function of the call, if there is one, takes as many arguments as it has. -/
def CallText.Fitting (c : CallText) : Prop :=
  ((Signature.find? c.name).bind fun s => arityComplaint? s c.args.length) = none

namespace CallText

theorem fitting_cast (a b : List Char) : Fitting ⟨Keyword.cast.text, [a, b]⟩ := rfl

theorem fitting_unary (f : UnaryFunction) (a : List Char) : Fitting ⟨f.text, [a]⟩ := by
  cases f <;> rfl

theorem fitting_binary (f : BinaryFunction) (a b : List Char) : Fitting ⟨f.text, [a, b]⟩ := by
  cases f <;> rfl

/-- A print statement takes any number of arguments but none. -/
theorem fitting_print {args : List (List Char)} (h : args ≠ []) : Fitting ⟨Keyword.print.text, args⟩ := by
  obtain ⟨a, args, rfl⟩ := List.exists_cons_of_ne_nil h
  rfl

end CallText

/-- In a tree every call has the right number of arguments. -/
theorem Expr.fitting_of_mem_calls {cs : List Char} {e : Expr} {c : CallText} (h : c ∈ e.calls cs) :
    c.Fitting := by
  induction e with
  | unaryMinus e s ih | paren e s ih => exact ih h
  | cast e target s ih =>
    rcases List.mem_cons.1 h with rfl | h
    · exact CallText.fitting_cast _ _
    · exact ih h
  | unaryCall f e s ih =>
    rcases List.mem_cons.1 h with rfl | h
    · exact CallText.fitting_unary f _
    · exact ih h
  | binaryCall f a b s iha ihb =>
    rcases List.mem_cons.1 h with rfl | h
    · exact CallText.fitting_binary f _ _
    · exact (List.mem_append.1 h).elim iha ihb
  | binary op opSpan a b s iha ihb => exact (List.mem_append.1 h).elim iha ihb
  | _ => cases h

/-! ## Strings that are not mistaken -/

theorem Token.plain_symbol (s : OpSymbol) : (Token.symbol s).Plain := by
  intro text h
  cases h

theorem Token.plain_keyword (k : Keyword) : (Token.keyword k).Plain := by
  intro text h
  cases h

namespace Expr

/-- Strings in a call have no character that tells arguments apart, and strings outside of all calls no
opening parenthesis. -/
def Clear : Expr → Prop
  | .unaryMinus e _ | .paren e _ => e.Clear
  | .binary _ _ a b _ => a.Clear ∧ b.Clear
  | .cast e _ _ | .unaryCall _ e _ => ∀ t ∈ e.terminals, t.Plain
  | .binaryCall _ a b _ => (∀ t ∈ a.terminals, t.Plain) ∧ ∀ t ∈ b.terminals, t.Plain
  | .string text _ => '(' ∉ text.toList
  | .constant .. | .name .. | .integer .. | .real .. | .truth .. => True

/-- Whether strings are clear can be computed. -/
def decidableClear : (e : Expr) → Decidable e.Clear
  | .unaryMinus e _ | .paren e _ => e.decidableClear
  | .binary _ _ a b _ => @instDecidableAnd _ _ a.decidableClear b.decidableClear
  | .cast e _ _ | .unaryCall _ e _ => inferInstanceAs (Decidable (∀ t ∈ e.terminals, t.Plain))
  | .binaryCall _ a b _ =>
    inferInstanceAs (Decidable ((∀ t ∈ a.terminals, t.Plain) ∧ ∀ t ∈ b.terminals, t.Plain))
  | .string text _ => inferInstanceAs (Decidable ('(' ∉ text.toList))
  | .constant .. | .name .. | .integer .. | .real .. | .truth .. => isTrue trivial

instance : DecidablePred Expr.Clear := decidableClear

theorem terminals_bare (e : Expr) : e.bare.terminals = e.terminals := by
  induction e with
  | truth b => cases b <;> rfl
  | _ => simp_all [bare, terminals]

theorem clear_bare (e : Expr) : e.bare.Clear ↔ e.Clear := by
  induction e with
  | unaryMinus e s ih | paren e s ih => exact ih
  | binary op opSpan a b s iha ihb => exact and_congr iha ihb
  | cast e t s | unaryCall f e s => rw [bare, Clear, Clear, terminals_bare]
  | binaryCall f a b s => rw [bare, Clear, Clear, terminals_bare, terminals_bare]
  | _ => rfl

open Lexing (Row Spells)

variable {before w rest : List Char}

/-- A leaf makes no calls. -/
theorem IsLeaf.allCalls_text {make : Span → Expr} {t : Token} (h : IsLeaf make t) (hspells : Spells w t)
    {s : Span} (hclear : (make s).Clear) (hrest : Quiet rest) : allCalls (w ++ rest) = allCalls rest := by
  refine allCalls_uncalled (fun hmem => ?_) hrest
  by_cases hstring : ∃ text, t = .string text
  · obtain ⟨text, rfl⟩ := hstring
    have hterminals := h.terminals s
    have hchildren := h.children s
    generalize make s = e at hclear hterminals hchildren
    cases e with
    | unaryMinus | paren | cast | unaryCall | binaryCall | binary => cases hchildren
    | truth b => cases b <;> cases hterminals
    | string =>
      cases hterminals
      have htext : String.ofList w = text := hspells.text_eq.symm
      rw [← htext] at hclear
      exact hclear (by rwa [String.toList_ofList])
    | _ => cases hterminals
  · have hsolid : t.isSignificant = true :=
      isSignificant_of_mem_terminals (e := make s) (by rw [h.terminals]; exact .head _)
    exact hspells.not_separator hsolid h.calls_eq.1 (fun text ht => absurd ⟨text, ht⟩ hstring) _ hmem (by decide)

namespace Over

variable {e : Expr} {ts : List SpannedToken}

theorem fitting_call (h : e.Over ts) (hrow : Row before ts w) (hplain : ∀ t ∈ e.terminals, t.Plain)
    (hrest : Quiet rest) {c : CallText} (hc : c ∈ allCalls (w ++ rest)) : c.Fitting ∨ c ∈ allCalls rest := by
  have htokens : ∀ t ∈ ts, t.value.Plain := by
    intro t ht
    refine hplain _ ?_
    rw [← h.map_value]
    exact List.mem_map_of_mem ht
  rw [h.allCalls_text hrow htokens hrest] at hc
  exact (List.mem_append.1 hc).imp_left fitting_of_mem_calls

/-- The calls that are found in the text of an expression have the right number of arguments. By induction
on the tree down to its calls; in these nothing is mistaken. -/
theorem fitting_text (h : e.Over ts) (hrow : Row before ts w) (hclear : e.Clear) (hrest : Quiet rest)
    {c : CallText} (hc : c ∈ allCalls (w ++ rest)) : c.Fitting ∨ c ∈ allCalls rest := by
  induction h generalizing before w rest with
  | leaf make_leaf =>
    rw [make_leaf.allCalls_text hrow.single hclear hrest] at hc
    exact .inr hc
  | unaryMinus sign_value operand span ih =>
    obtain ⟨v, g, a, rfl, hv, hg, ha⟩ := hrow.uncons operand.ne_nil
    rw [sign_value] at hv
    cases hv
    rw [List.append_assoc, allCalls_separators OpSymbol.minus.isWord_chars, List.append_assoc,
      allCalls_gap hg] at hc
    exact ih ha hclear hrest hc
  | paren left_value right_value inner span ih =>
    obtain ⟨g, a, g', rfl, hg, hg', ha⟩ := hrow.enclosed inner.ne_nil left_value right_value
    have hfront := allCalls_separators OpSymbol.leftParen.isWord_chars (g ++ (a ++ (g' ++ ')' :: rest)))
    simp only [List.append_assoc, List.cons_append, List.nil_append, OpSymbol.chars] at hfront hc
    rw [hfront, allCalls_gap hg] at hc
    refine (ih ha hclear (quiet_symbol hg' rest (s := .rightParen) (by decide)) hc).imp_right fun hc => ?_
    rwa [allCalls_symbol hg'] at hc
  | @cast e target s word left comma type right ts word_value left_value comma_value type_value right_value
      arg span =>
    refine (Over.cast word_value left_value comma_value type_value right_value arg span).fitting_call
      hrow ?_ hrest hc
    simp only [terminals, List.forall_mem_cons, List.forall_mem_append, List.not_mem_nil, false_implies,
      implies_true, and_true, Token.plain_symbol, Token.plain_keyword, true_and]
    exact hclear
  | @unaryCall f e s word left right ts word_value left_value right_value arg span =>
    refine (Over.unaryCall word_value left_value right_value arg span).fitting_call hrow ?_ hrest hc
    simp only [terminals, List.forall_mem_cons, List.forall_mem_append, List.not_mem_nil, false_implies,
      implies_true, and_true, Token.plain_symbol, Token.plain_keyword, true_and]
    exact hclear
  | @binaryCall f x y s word left comma right ts us word_value left_value comma_value right_value first
      second span =>
    refine (Over.binaryCall word_value left_value comma_value right_value first second span).fitting_call
      hrow ?_ hrest hc
    simp only [terminals, List.forall_mem_cons, List.forall_mem_append, List.not_mem_nil, false_implies,
      implies_true, and_true, Token.plain_symbol, Token.plain_keyword, true_and]
    exact hclear
  | @binary op x y s sign ts us sign_value first second span ihx ihy =>
    obtain ⟨a, g, g', b, rfl, hg, hg', ha, hb⟩ := hrow.infixed first.ne_nil second.ne_nil sign_value
    simp only [List.append_assoc] at hc
    rcases ihx ha hclear.1 (quiet_symbol hg (g' ++ (b ++ rest)) (s := op.symbol) (by cases op <;> decide))
      hc with hc | hc
    · exact .inl hc
    · rw [allCalls_symbol hg, allCalls_gap hg'] at hc
      exact ihy hb hclear.2 hrest hc

end Over

end Expr

/-! ## Print statements -/

theorem Lexing.Spells.operand_head {w : List Char} {t : Token} (h : Lexing.Spells w t)
    (hseen : t.isSignificant = true) (ht : t.beginsOperand = true) : ∀ c ∈ w.head?, c ≠ ')' ∧ c ≠ ',' := by
  intro c hc
  cases hsymbol : t.isSymbol with
  | true =>
    cases h with
    | symbol s => cases s <;> first | (cases hc; decide) | cases ht
    | _ => cases hsymbol
  | false =>
    by_cases hstring : ∃ text, t = .string text
    · obtain ⟨text, rfl⟩ := hstring
      cases h
      cases hc
      decide
    · rcases h.isNamePart_or_point hseen hsymbol (fun text ht => hstring ⟨text, ht⟩) c
        (List.mem_of_head? hc) with hpart | rfl
      · constructor <;> rintro rfl <;> exact absurd hpart (by decide)
      · decide

namespace Check

/-- Where something stands between parentheses, it counts as an argument. -/
theorem splitArgs_callInside_ne_nil {g rest : List Char} {c : Char} (hg : ∀ d ∈ g, Lexing.isGap d = true)
    (hblank : isBlank c = false) (hc : c ≠ ')' ∧ c ≠ ',') (hrest : rest ≠ []) :
    splitArgs (callInside (g ++ c :: rest)) ≠ [] := by
  obtain ⟨inside, hinside⟩ : g ++ [c] <+: callInside (g ++ c :: rest) := by
    have hstart : ∃ depth, callInside (g ++ c :: rest) = callInside.go rest depth (c :: g.reverse) := by
      have hpass := (Sealed.of_gap hg).closed (c :: rest) 0 []
      rw [List.append_nil] at hpass
      rw [callInside, hpass, callInside.go]
      by_cases hopen : c = '('
      · exact ⟨1, if_pos hopen⟩
      · exact ⟨0, by rw [if_neg hopen, if_neg hc.1]⟩
    obtain ⟨depth, hgo⟩ := hstart
    have hprefix := callInside_go_isPrefix depth (c :: g.reverse) hrest
    rw [List.reverse_cons, List.reverse_reverse] at hprefix
    rwa [hgo]
  have hcomma : ',' ∉ g ++ [c] := by
    rw [List.mem_append, List.mem_singleton, not_or]
    exact ⟨Lexing.not_mem_gap hg (by decide), Ne.symm hc.2⟩
  obtain ⟨more, others, hpieces⟩ : ∃ more others,
      argPieces (callInside (g ++ c :: rest)) = (g ++ c :: more) :: others := by
    obtain ⟨more, others, hgo⟩ := argPieces_go_eq inside ((g ++ [c]).foldl bracketDepth 0)
      ((g ++ [c]).reverse ++ []) []
    refine ⟨more, others, ?_⟩
    rw [argPieces, ← hinside, argPieces_go_append hcomma, hgo]
    simp
  have hfirst : trim (g ++ c :: more) ≠ [] := by
    rw [Ne, trim_eq_nil_iff]
    intro hall
    rw [hall c (by simp)] at hblank
    cases hblank
  unfold splitArgs
  dsimp only
  rw [hpieces, List.map_cons]
  split
  · next hlast =>
    cases others with
    | nil => exact absurd (Option.some.inj hlast) hfirst
    | cons => exact List.cons_ne_nil _ _
  · exact List.cons_ne_nil _ _

end Check

namespace PrintArg

open Lexing (Row)

/-- As for expressions; a string on its own stands in no call of the grammar. -/
def Clear : PrintArg → Prop
  | .string text _ => '(' ∉ text.toList
  | .expr e => e.Clear

instance : DecidablePred PrintArg.Clear
  | .string text _ => inferInstanceAs (Decidable ('(' ∉ text.toList))
  | .expr e => inferInstanceAs (Decidable e.Clear)

theorem exists_terminals (a : PrintArg) : ∃ t ts, a.terminals = t :: ts ∧ t.beginsOperand = true := by
  cases a with
  | string text s => exact ⟨_, _, rfl, rfl⟩
  | expr e => exact e.exists_terminals

variable {before w rest : List Char} {ts : List SpannedToken}

theorem fitting_text {a : PrintArg} (h : ts.map (·.value) = a.terminals) (hrow : Row before ts w)
    (hclear : a.Clear) (hrest : Quiet rest) {c : CallText} (hc : c ∈ allCalls (w ++ rest)) :
    c.Fitting ∨ c ∈ allCalls rest := by
  cases a with
  | string text s =>
    obtain ⟨e, hover, hbare⟩ := (Expr.string text s).exists_over h
    exact hover.fitting_text hrow (by rw [← e.clear_bare, hbare]; exact hclear) hrest hc
  | expr e =>
    obtain ⟨e', hover, hbare⟩ := e.exists_over h
    exact hover.fitting_text hrow (by rwa [← e'.clear_bare, hbare, e.clear_bare]) hrest hc

/-- The same for some arguments with commas between them. -/
theorem fitting_listText {args : List PrintArg} (hne : args ≠ [])
    (h : ts.map (·.value) = listTerminals args) (hrow : Row before ts w) (hclear : ∀ a ∈ args, a.Clear)
    (hrest : Quiet rest) {c : CallText} (hc : c ∈ allCalls (w ++ rest)) : c.Fitting ∨ c ∈ allCalls rest := by
  induction args generalizing before w ts with
  | nil => exact absurd rfl hne
  | cons a args ih =>
    rw [List.forall_mem_cons] at hclear
    cases args with
    | nil =>
      have hterminals : listTerminals [a] = a.terminals := List.append_nil _
      exact fitting_text (h.trans hterminals) hrow hclear.1 hrest hc
    | cons b more =>
      have hterminals : listTerminals (a :: b :: more) = a.terminals ++ .symbol .comma :: listTerminals (b :: more) := rfl
      obtain ⟨first, others, rfl, hfirst, hothers⟩ := List.map_eq_append_iff.1 (h.trans hterminals)
      obtain ⟨comma, others, rfl, hcomma, hothers⟩ := List.map_eq_cons_iff.1 hothers
      have hnonempty : ∀ {ts : List SpannedToken} {a : PrintArg} {more : List Token},
          ts.map (·.value) = a.terminals ++ more → ts ≠ [] := by
        rintro ts a more hvalues rfl
        obtain ⟨t, terminals, hts, -⟩ := a.exists_terminals
        rw [hts] at hvalues
        cases hvalues
      obtain ⟨v, g, g', v', rfl, hg, hg', hv, hv'⟩ := hrow.infixed
        (hnonempty (hfirst.trans (List.append_nil _).symm)) (hnonempty hothers) hcomma
      simp only [List.append_assoc] at hc
      rcases fitting_text hfirst hv hclear.1 (quiet_symbol hg _ (by decide)) hc with hc | hc
      · exact .inl hc
      · rw [allCalls_symbol hg, allCalls_gap hg'] at hc
        exact ih (List.cons_ne_nil b more) hothers hv' hclear.2 hc

end PrintArg

/-! ## Statements -/

/-- What is asked of the strings of a statement without a block. -/
def Stmt.Clear : Stmt → Prop
  | .varDecl d | .constDecl d _ => d.value.Clear
  | .assignment _ _ e _ => e.Clear
  | .print args _ => ∀ a ∈ args, a.Clear
  | .ifElse .. | .whileLoop .. | .tryCatch .. | .block _ => True

instance : DecidablePred Stmt.Clear
  | .varDecl d | .constDecl d _ => inferInstanceAs (Decidable d.value.Clear)
  | .assignment _ _ e _ => inferInstanceAs (Decidable e.Clear)
  | .print args _ => inferInstanceAs (Decidable (∀ a ∈ args, a.Clear))
  | .ifElse .. | .whileLoop .. | .tryCatch .. | .block _ => isTrue trivial

namespace Check

open Lexing (Words)

variable {body : List Char} {c : CallText}

theorem fitting_value {e : Expr} (h : Words [] body e.terminals) (hclear : e.Clear)
    (hc : c ∈ allCalls body) : c.Fitting := by
  obtain ⟨row, hvalues, hrow⟩ := h.exists_row []
  obtain ⟨e', hover, hbare⟩ := e.exists_over hvalues
  rw [← List.append_nil body] at hc
  exact (hover.fitting_text hrow (by rwa [← e'.clear_bare, hbare, e.clear_bare]) ⟨by simp, rfl⟩
    hc).resolve_right List.not_mem_nil

theorem fitting_print {args : List PrintArg} {span : Span}
    (h : Words [] body (Stmt.print args span).terminals) (hne : args ≠ []) (hclear : ∀ a ∈ args, a.Clear)
    (hc : c ∈ allCalls body) : c.Fitting := by
  have hsignificant := h.isSignificant
  obtain ⟨row, hvalues, hrow⟩ := h.exists_row []
  rw [← hvalues] at hsignificant
  obtain ⟨word, others, rfl, hword, hvalues⟩ := List.map_eq_cons_iff.1 hvalues
  obtain ⟨left, others, rfl, hleft, hvalues⟩ := List.map_eq_cons_iff.1 hvalues
  obtain ⟨ts, closing, rfl, hargs, hclosing⟩ := List.map_eq_append_iff.1 hvalues
  obtain ⟨right, rfl, hright⟩ := List.map_eq_singleton_iff.1 hclosing
  obtain ⟨first, ts, rfl, hbegins⟩ : ∃ first more, ts = first :: more ∧ first.value.beginsOperand = true := by
    obtain ⟨a, args, rfl⟩ := List.exists_cons_of_ne_nil hne
    obtain ⟨t, terminals, ha, ht⟩ := a.exists_terminals
    rw [PrintArg.listTerminals, ha] at hargs
    obtain ⟨first, more, rfl, rfl, -⟩ := List.map_eq_cons_iff.1 hargs
    exact ⟨first, more, rfl, ht⟩
  obtain ⟨g, g', v, j, rfl, hg, hg', hj, hv⟩ := hrow.call (List.cons_ne_nil first ts) hword hleft hright
  obtain ⟨w, behind, rfl, hspells⟩ : ∃ w behind, v = w ++ behind ∧ Lexing.Spells w first.value := by
    cases hv with
    | last spells => exact ⟨v, [], (List.append_nil v).symm, spells⟩
    | cons spells gap next => exact ⟨_, _, rfl, spells⟩
  have hseen : first.value.isSignificant = true := hsignificant _ (by simp)
  obtain ⟨b, w, rfl⟩ := hspells.exists_cons
  simp only [List.append_assoc, List.cons_append] at hc
  rw [allCalls_called .print fun d hd => isBlank_of_isGap (hg d hd)] at hc
  rcases List.mem_cons.1 hc with rfl | hc
  · exact CallText.fitting_print (splitArgs_callInside_ne_nil hg' ((hspells.tight hseen).first b rfl)
      (hspells.operand_head hseen hbegins b rfl) (by simp))
  · rw [allCalls_gap hg'] at hc
    have hargs := PrintArg.fitting_listText hne hargs hv hclear
      (quiet_symbol hj [] (s := .rightParen) (by decide)) (c := c)
    simp only [List.append_assoc, List.cons_append] at hargs
    refine (hargs hc).resolve_right fun hnone => ?_
    rw [allCalls_symbol hj] at hnone
    cases hnone

/-- The calls that validation checks on the line of a statement without a block have the right number of
arguments. -/
theorem fitting_of_expression {s : Stmt} (hsimple : s.isSimple = true) (hgood : s.Grammatical)
    (hclear : s.Clear) (h : Words [] body s.terminals) (hline : '\n' ∉ body) {declared : Option ValueType}
    {cs : List Char} (hchecked : Walk.Expression body declared cs) (hc : c ∈ allCalls cs) : c.Fitting := by
  have hdeclaration : ∀ {constant : Bool} {d : VarDecl}, s.declared? = some (constant, d) → d.value.Clear →
      c.Fitting := by
    intro constant d hs hclear
    obtain ⟨⟨value, hfound, hvalue⟩, -⟩ := declaration?_words hs h
    have hform : lineForm body = .declaration ⟨constant, d.type, d.name, value⟩ := by
      unfold lineForm
      rw [hfound]
    cases hchecked with
    | value form =>
      cases hform.symm.trans form
      rw [hvalue.tight.trim] at hc
      exact fitting_value hvalue hclear hc
    | call form => cases hform.symm.trans form
    | assigned form => cases hform.symm.trans form
  cases s with
  | varDecl d => exact hdeclaration rfl hclear
  | constDecl d span => exact hdeclaration rfl hclear
  | assignment target op e span =>
    obtain ⟨⟨value, hform, hvalue⟩, -⟩ := lineForm_assignment_words h hline
    cases hchecked with
    | value form => cases hform.symm.trans form
    | call form => cases hform.symm.trans form
    | assigned form =>
      cases hform.symm.trans form
      exact fitting_value hvalue hclear hc
  | print args span =>
    obtain ⟨hform, -⟩ := lineForm_print_words h
    cases hchecked with
    | value form => cases hform.symm.trans form
    | call form => exact fitting_print h hgood.1 hclear hc
    | assigned form => cases hform.symm.trans form
  | _ => cases hsimple

/-! ## Findings -/

theorem mem_allCalls_of_mem_calls [Build] {cs : List Char} (h : c ∈ (calls cs).1) :
    c ∈ allCalls cs := by
  rw [calls_eq] at h
  exact List.mem_of_mem_take h

/-- A complaint about the number of arguments is about a call that does not fit. -/
theorem exists_misfit [Build] {symbols : Symbols} {w : Walk} {number : Nat} {line : List Char}
    {c : Complaint} (h : c ∈ w.complaints symbols number line)
    (ht : c.topic = .tooFew ∨ c.topic = .tooMany) :
    ∃ declared cs, Walk.Expression line declared cs ∧ ∃ call ∈ allCalls cs, ¬ call.Fitting := by
  obtain ⟨declared, cs, checked, mem⟩ :=
    Walk.exists_expression h (by rcases ht with ht | ht <;> rw [ht] <;> rfl)
      (by rcases ht with ht | ht <;> rw [ht] <;> rfl)
  obtain ⟨call, hcall, _, complaint, rfl, -, hground⟩ := exists_ground_of_mem mem
  refine ⟨declared, cs, checked, call, mem_allCalls_of_mem_calls hcall, fun hfitting => ?_⟩
  cases hground with
  | arity find wrong =>
    unfold CallText.Fitting at hfitting
    rw [find, Option.bind_some, wrong] at hfitting
    cases hfitting
  | target name second wrong =>
    rcases castComplaint?_cases wrong with ⟨rfl, -⟩ | ⟨_, _, rfl, -⟩ <;> rcases ht with ht | ht <;> cases ht
  | args find no_cast mem =>
    obtain ⟨_, _, -, ⟨rfl, -⟩ | ⟨rfl, -⟩⟩ := argsComplaint?_cases (Option.mem_toList.1 mem) <;>
      rcases ht with ht | ht <;> cases ht
  | _ => rcases ht with ht | ht <;> cases ht

end Check

/-- The finding is that a function expects more or fewer arguments: it quotes the function, and goes on
with these words. -/
def Diagnostic.countsArguments (d : Diagnostic) : Bool :=
  beforeQuote d.message.toList == "Function ".toList &&
    ("' expects at least".toList.isPrefixOf (fromSecondQuote d.message.toList) ||
      "' expects at most".toList.isPrefixOf (fromSecondQuote d.message.toList))

namespace Check

theorem Complaint.topic_of_countsArguments {c : Complaint} {line : Nat} (hc : c.Named)
    (h : (c.diagnostic line).countsArguments = true) : c.topic = .tooFew ∨ c.topic = .tooMany := by
  unfold Diagnostic.countsArguments at h
  rw [message_diagnostic, Bool.and_eq_true, beq_iff_eq, c.beforeQuote_message, Bool.or_eq_true,
    List.isPrefixOf_iff_prefix, List.isPrefixOf_iff_prefix] at h
  obtain ⟨hopening, hwords⟩ := h
  have hclosing := closing_isPrefix hc
  refine hwords.imp (fun hwords => ?_) fun hwords => ?_
  · have hstart : Topic.tooFew.closing <+: fromSecondQuote c.message.toList :=
      (List.isPrefixOf_iff_prefix.1 rfl).trans hwords
    exact Topic.eq_of_opening hopening (List.prefix_or_prefix_of_prefix hclosing hstart)
  · have hstart : Topic.tooMany.closing <+: fromSecondQuote c.message.toList :=
      (List.isPrefixOf_iff_prefix.1 rfl).trans hwords
    exact Topic.eq_of_opening hopening (List.prefix_or_prefix_of_prefix hclosing hstart)

open Lexing (tokenize)

/-- A line of one statement without a block, which parses without errors, is told of no wrong number of
arguments: as long as it has no block comment, nothing stands behind a line comment, and its strings are
clear. -/
theorem analyze_counts [Build] (prefs : AnalysisPreferences) {lexical : LexicalPreferences}
    {preferences : ParserPreferences} {source : String} {before behind : List (List Char)}
    {raw : List Char} {s : Stmt} (hlines : Text.lines source.toList = before ++ raw :: behind)
    (hlength : raw.length ≤ Limit.lineChars) (hinvalid : lexical.reportInvalid = true)
    (herrors : (parse lexical preferences (String.ofList raw)).hasErrors = false)
    (hshown : (parse lexical preferences (String.ofList raw)).diagnostics.length < Limit.syntaxDiagnostics)
    (htree : (parse lexical preferences (String.ofList raw)).tree.statements = [s])
    (hsimple : s.isSimple = true)
    (hblock : ∀ t ∈ (tokenize lexical (String.ofList raw)).tokens, ∀ text, t.value ≠ .blockComment text)
    (hlast : (tokenize lexical (String.ofList raw)).tokens.toList.Pairwise fun t u =>
      Lexing.isLineComment t.value = true → Lexing.seen u = false)
    (hslashless : ∀ t ∈ (tokenize lexical (String.ofList raw)).tokens, t.value.Slashless)
    (hclear : s.Clear) :
    ∀ d ∈ (analyze prefs source).1, d.line = before.length + 1 → d.countsArguments = false := by
  intro d hd hnumber
  by_contra hcounts
  rw [Bool.not_eq_false] at hcounts
  have hgood : s.Grammatical := by
    have hgood := (grammatical_of_parse herrors hshown).1
    rw [Program.Grammatical, htree] at hgood
    exact hgood.1
  have hwords := words_of_line hinvalid herrors hshown htree hblock hlast hslashless
  have hline : '\n' ∉ normalizeLine raw := fun hmem =>
    not_mem_of_mem_splitOn (show raw ∈ Text.lines source.toList by rw [hlines]; simp)
      ((normalizeLine_isInfix raw).subset hmem)
  -- The finding is one of the complaints about this line.
  rw [analyze_eq_take] at hd
  have hfound : d ∈ (Script.ofSource source.toList).findings.filter (·.line = before.length + 1) :=
    List.mem_filter.2 ⟨List.mem_of_mem_take hd, decide_eq_true hnumber⟩
  rw [Script.filter_findings_ofSource hlines hlength] at hfound
  obtain ⟨c, hc, rfl⟩ := List.mem_map.1 hfound
  obtain ⟨declared, cs, hchecked, call, hcall, hmisfit⟩ :=
    exists_misfit hc (Complaint.topic_of_countsArguments (Walk.named_of_mem_complaints hc) hcounts)
  exact hmisfit (fitting_of_expression hsimple hgood hclear hwords hline hchecked hcall)

/-- Commas in a string that is printed, and a call in a comment, do no harm. -/
theorem analyze_counts_print :
    let source := "int x = 1\nprint(\"a, b\", max(x, cast(2.5, int)) + 1) // abs()"
    let raw := "print(\"a, b\", max(x, cast(2.5, int)) + 1) // abs()".toList
    let line := parse {} {} (String.ofList raw)
    let tokens := (tokenize {} (String.ofList raw)).tokens
    Text.lines source.toList = ["int x = 1".toList] ++ raw :: [] ∧ raw.length ≤ Limit.lineChars ∧
      line.hasErrors = false ∧ line.diagnostics.length < Limit.syntaxDiagnostics ∧
      line.tree.statements.length = 1 ∧ (∀ s ∈ line.tree.statements, s.isSimple = true ∧ s.Clear) ∧
      (∀ t ∈ tokens, ∀ text, t.value ≠ .blockComment text) ∧
      (tokens.toList.Pairwise fun t u => Lexing.isLineComment t.value = true → Lexing.seen u = false) ∧
      (∀ t ∈ tokens, t.value.Slashless) ∧
      ∀ d ∈ (analyze {} source).1, d.line = 2 → d.countsArguments = false := by
  intro source raw line tokens
  have hspelt : raw = _ := String.toList_ofList
  have hlines : Text.lines source.toList = ["int x = 1".toList] ++ raw :: [] := by
    rw [String.toList_ofList, hspelt]
    decide +kernel
  have hlength : raw.length ≤ Limit.lineChars := by
    rw [hspelt]
    decide
  have hread : line.hasErrors = false ∧ line.diagnostics.length < Limit.syntaxDiagnostics ∧
      line.tree.statements.length = 1 ∧ (∀ s ∈ line.tree.statements, s.isSimple = true ∧ s.Clear) := by
    simp only [line]
    rw [hspelt, parse, parseState, Parser.ofSource, tokenize, String.toList_ofList]
    decide +kernel
  obtain ⟨herrors, hshown, hsingle, hstatement⟩ := hread
  have htokens : (∀ t ∈ tokens, t.value.terminal ≠ "BLOCK_COMMENT") ∧
      (tokens.toList.Pairwise fun t u => Lexing.isLineComment t.value = true → Lexing.seen u = false) ∧
      ∀ t ∈ tokens, t.value.Slashless := by
    simp only [tokens]
    rw [hspelt, tokenize, String.toList_ofList]
    decide +kernel
  obtain ⟨hnone, hlast, hslashless⟩ := htokens
  have hblock : ∀ t ∈ tokens, ∀ text, t.value ≠ .blockComment text :=
    fun t ht text h => hnone t ht (congrArg Token.terminal h)
  obtain ⟨s, htree⟩ := List.length_eq_one_iff.1 hsingle
  obtain ⟨hsimple, hclear⟩ := hstatement s (by rw [htree]; exact List.mem_singleton_self s)
  exact ⟨hlines, hlength, herrors, hshown, hsingle, hstatement, hblock, hlast, hslashless,
    analyze_counts {} hlines hlength rfl herrors hshown htree hsimple hblock hlast hslashless hclear⟩

/-- A comma in a string counts as one between arguments. -/
theorem analyze_counts_comma :
    let source := "int x = cast(\"a,b\", int)"
    Text.lines source.toList = [source.toList] ∧ (parse {} {} source).diagnostics = [] ∧
      (parse {} {} source).tree.statements.map Stmt.isSimple = [true] ∧
      (analyze {} source).1 =
        [⟨.error, 1, none, none, "Function 'cast' expects at most 2 argument(s), got 3"⟩] := by
  intro source
  rw [analyze_eq_take, parse, parseState, Parser.ofSource, tokenize, String.toList_ofList]
  decide +kernel

end Check

end EvlCheck
