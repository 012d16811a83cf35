/-
When inference gives a binary expression no type. Apart from blanks and parentheses at its ends, a
text with a binary operator at the root of its expression is no atom: some character of the operator
is left (`Spells.operator_left`), so that the text is no name and no plain number, a string would be
the only token between the parentheses, and so would be a number behind a minus sign, which is then no
operator. What remains is a text that begins with the head of a call and ends with a parenthesis. It
is taken for one call, whatever stands between the two: here inference guesses.
-/
import EvlCheck.Proofs.Check.TypedText
import EvlCheck.Proofs.Lexing.Errorless

namespace EvlCheck

open Text Check

/-! ## Lexing without errors -/

namespace Lexing

/-- The texts of the tokens lie in the text. -/
theorem ReadAs.mem_of_mem_text {cs : List Char} {ts : List Token} (h : ReadAs cs ts)
    (herror : ∀ t ∈ ts, t.isError = false) {t : Token} (ht : t ∈ ts) : ∀ c ∈ t.text.toList, c ∈ cs := by
  induction h with
  | nil => cases ht
  | @piece taken rest u ts nonempty reading next ih =>
    rw [List.forall_mem_cons] at herror
    intro c hc
    rw [List.mem_append]
    rcases List.mem_cons.1 ht with rfl | ht
    · rw [(reading.spells herror.1).text_eq, String.toList_ofList] at hc
      exact .inl hc
    · exact .inr (ih herror.2 ht c hc)

theorem ReadAs.eof_not_mem {cs : List Char} {ts : List Token} (h : ReadAs cs ts)
    (herror : ∀ t ∈ ts, t.isError = false) : .eof ∉ ts := by
  induction h with
  | nil => simp
  | @piece taken rest t ts nonempty reading next ih =>
    rw [List.forall_mem_cons] at herror
    rw [List.mem_cons, not_or]
    exact ⟨((reading.spells herror.1).ne_eof).symm, ih herror.2⟩

/-- What a word can be that begins with a blank or an opening parenthesis. -/
theorem Spells.opening {c : Char} {w : List Char} {t : Token} (h : Spells (c :: w) t)
    (hc : isBlank c = true ∨ c = '(') :
    (t = .symbol .leftParen ∧ c :: w = ['(']) ∨
      (t.isSignificant = false ∧ ∀ d ∈ c :: w, isGap d = true) := by
  rcases hc with hc | rfl
  · cases hgap : isGap c with
    | true =>
      obtain ⟨rfl, hall⟩ := h.of_gap rfl hgap
      exact .inr ⟨rfl, hall⟩
    | false =>
      -- The blanks of the language are the only ones that begin a word.
      have hword : isWord c = false := isWord_of_isBlank hc
      have hpart : isNamePart c = false := by
        by_contra hpart
        rw [isWord_of_isNamePart (Bool.not_eq_false _ ▸ hpart)] at hword
        cases hword
      have hkind : headKind c = .other := by
        simp only [isNamePart, Char.isAlphanum, Bool.or_eq_false_iff] at hpart
        have hquote : c ≠ '"' := by rintro rfl; exact absurd hc (by decide)
        simp [headKind, hgap, hpart, hquote, isNameStart]
      rcases h.of_other rfl hkind with ⟨s, -, hs⟩ | ⟨-, body, hbody, -⟩ | ⟨-, body, hbody, -⟩
      · cases s <;> cases hs <;> exact absurd hc (by decide)
      · rw [(List.cons_eq_cons.1 hbody).1] at hc
        exact absurd hc (by decide)
      · rw [(List.cons_eq_cons.1 hbody).1] at hc
        exact absurd hc (by decide)
  · rcases h.of_other rfl (by decide) with ⟨s, rfl, hs⟩ | ⟨-, body, hbody, -⟩ | ⟨-, body, hbody, -⟩
    · refine .inl ?_
      cases s <;> first | exact ⟨rfl, hs.symm⟩ | cases hs
    · cases hbody
    · cases hbody

/-- Blanks and opening parentheses in front of a text are tokens of their own. -/
theorem ReadAs.skip_opening {pre rest : List Char} {ts : List Token} (h : ReadAs (pre ++ rest) ts)
    (herror : ∀ t ∈ ts, t.isError = false) (hpre : ∀ c ∈ pre, isBlank c = true ∨ c = '(')
    (hrest : ∀ c ∈ rest.head?, isGap c = false) :
    ∃ front back, ts = front ++ back ∧ ReadAs rest back ∧
      ∀ t ∈ front, t = .symbol .leftParen ∨ t.isSignificant = false := by
  generalize hcs : pre ++ rest = cs at h
  induction h generalizing pre with
  | nil =>
    obtain ⟨rfl, rfl⟩ := List.append_eq_nil_iff.1 hcs
    exact ⟨[], [], rfl, .nil, by simp⟩
  | @piece taken after t ts nonempty reading next ih =>
    rw [List.forall_mem_cons] at herror
    cases pre with
    | nil =>
      rw [List.nil_append] at hcs
      subst hcs
      exact ⟨[], _, rfl, .piece nonempty reading next, by simp⟩
    | cons c pre =>
      have hspells := reading.spells herror.1
      obtain ⟨d, w, rfl⟩ := hspells.exists_cons
      obtain rfl : c = d := (List.cons_eq_cons.1 hcs).1
      rw [List.forall_mem_cons] at hpre
      -- What is left of the opening stands before the rest, and is read by induction.
      have hnext : ∀ pre' : List Char, pre' ++ rest = after → (∀ e ∈ pre', e ∈ pre) →
          (t = .symbol .leftParen ∨ t.isSignificant = false) → ∃ front back, t :: ts = front ++ back ∧
            ReadAs rest back ∧ ∀ u ∈ front, u = .symbol .leftParen ∨ u.isSignificant = false := by
        intro pre' hsplit hsub ht
        obtain ⟨front, back, rfl, hback, hfront⟩ :=
          ih herror.2 (fun e he => hpre.2 e (hsub e he)) hsplit
        exact ⟨t :: front, back, rfl, hback, List.forall_mem_cons.2 ⟨ht, hfront⟩⟩
      rcases hspells.opening hpre.1 with ⟨ht, hparen⟩ | ⟨ht, hgaps⟩
      · obtain rfl : w = [] := (List.cons_eq_cons.1 hparen).2
        exact hnext pre (List.cons_eq_cons.1 hcs).2 (fun e he => he) (.inl ht)
      · rcases List.append_eq_append_iff.1 hcs with ⟨more, hw, hrest'⟩ | ⟨more, hpre', hafter⟩
        · cases more with
          | nil => exact hnext [] hrest' (by simp) (.inr ht)
          | cons e more =>
            have hgap := hgaps e (by rw [hw]; simp)
            rw [hrest e (by rw [hrest']; rfl)] at hgap
            cases hgap
        · refine hnext more hafter.symm ?_ (.inr ht)
          rw [(List.cons_eq_cons.1 hpre').2]
          exact fun e he => List.mem_append_right _ he

/-- The first token of a text. -/
theorem ReadAs.first {c : Char} {cs : List Char} {ts : List Token} (h : ReadAs (c :: cs) ts)
    (herror : ∀ t ∈ ts, t.isError = false) :
    ∃ w after t ts', ts = t :: ts' ∧ cs = w ++ after ∧ Spells (c :: w) t ∧ ReadAs after ts' := by
  generalize hcs : c :: cs = text at h
  cases h with
  | nil => cases hcs
  | @piece taken after t ts nonempty reading next =>
    have hspells := reading.spells (herror t (.head _))
    obtain ⟨d, w, rfl⟩ := hspells.exists_cons
    obtain ⟨rfl, rfl⟩ := List.cons_eq_cons.1 hcs
    exact ⟨w, after, t, ts, rfl, rfl, hspells, next⟩

end Lexing

/-! ## What stands between parentheses -/

namespace Check

theorem append_of_parenthesized? {cs inner : List Char} (h : parenthesized? cs = some inner) :
    cs = '(' :: (inner ++ [')']) := by
  unfold parenthesized? at h
  split at h
  · next rest =>
    split at h
    · next hlast =>
      cases h
      exact congrArg _ (List.dropLast_append_getLast? ')' hlast).symm
    · cases h
  · cases h

/-- The text without blanks and pairs of parentheses at its ends. -/
def peel (cs : List Char) : List Char :=
  match _h : parenthesized? (trim cs) with
  | some inner => peel inner
  | none => trim cs
termination_by cs.length
decreasing_by
  obtain ⟨g, g', -, -, hcs⟩ := exists_trim cs
  have hlength := congrArg List.length hcs
  rw [append_of_parenthesized? _h] at hlength
  simp at hlength
  omega

/-- The text without some blanks and parentheses at its ends. -/
def Cored (cs core : List Char) : Prop :=
  ∃ pre suf, cs = pre ++ (core ++ suf) ∧ (∀ c ∈ pre, isBlank c = true ∨ c = '(') ∧
    ∀ c ∈ suf, isBlank c = true ∨ c = ')'

namespace Cored

variable {cs core inner : List Char}

theorem trim (cs : List Char) : Cored cs (trim cs) := by
  obtain ⟨g, g', hg, hg', hcs⟩ := exists_trim cs
  exact ⟨g, g', hcs, fun c hc => .inl (hg c hc), fun c hc => .inl (hg' c hc)⟩

theorem parenthesized (inner : List Char) : Cored ('(' :: (inner ++ [')'])) inner :=
  ⟨['('], [')'], rfl, by simp, by simp⟩

theorem trans (h : Cored cs core) (h' : Cored core inner) : Cored cs inner := by
  obtain ⟨pre, suf, rfl, hpre, hsuf⟩ := h
  obtain ⟨pre', suf', rfl, hpre', hsuf'⟩ := h'
  refine ⟨pre ++ pre', suf' ++ suf, by simp, ?_, ?_⟩ <;>
  · intro c hc
    rcases List.mem_append.1 hc with hc | hc
    · first | exact hpre c hc | exact hsuf' c hc
    · first | exact hpre' c hc | exact hsuf c hc

end Cored

/-- By induction on the levels left: on each of them no atom is found, and behind the last parentheses
no call. -/
theorem inferWithin_untyped [Build] {symbols : Symbols} {cs : List Char}
    (hatom : ∀ core, Cored cs core → atomType? symbols core = none)
    (hcall : wholeCall? (peel cs) = none) {room : Nat} {typing : Typing}
    (h : inferWithin symbols room cs = .ok typing) : typing.type = none := by
  induction room generalizing cs with
  | zero => cases h
  | succ room ih =>
    rw [inferWithin] at h
    dsimp only at h
    rw [hatom _ (.trim cs)] at h
    rw [peel] at hcall
    cases hparen : parenthesized? (trim cs) with
    | some inner =>
      have hinner : Cored cs inner := by
        refine (Cored.trim cs).trans ?_
        rw [append_of_parenthesized? hparen]
        exact .parenthesized inner
      rw [hparen] at h hcall
      exact ih (fun core hcore => hatom core (hinner.trans hcore)) hcall h
    | none =>
      rw [hparen] at h hcall
      dsimp only at h hcall
      rw [hcall] at h
      cases h
      rfl

/-! ## Operators are left -/

theorem exists_operator_char (op : BinaryOp) :
    ∃ x ∈ (Token.symbol op.symbol).text.toList, isWord x = false ∧ x ≠ '.' ∧
      ¬ (isBlank x = true ∨ x = '(') ∧ ¬ (isBlank x = true ∨ x = ')') ∧ x ≠ '"' := by
  simp only [Lexing.toList_text_symbol]
  cases op <;> exact ⟨_, .head _, by decide, by decide, by decide, by decide, by decide⟩

theorem exists_of_isStringLiteral {cs : List Char} (h : isStringLiteral cs = true) :
    ∃ inner, cs = '"' :: (inner ++ ['"']) ∧ '"' ∉ inner := by
  unfold isStringLiteral at h
  split at h
  · next rest =>
    simp only [Bool.and_eq_true, beq_iff_eq, Bool.not_eq_true', List.contains_eq_mem,
      decide_eq_false_iff_not] at h
    exact ⟨rest.dropLast, congrArg _ (List.dropLast_append_getLast? '"' h.1).symm, h.2⟩
  · cases h

theorem exists_of_negativeType? {cs : List Char} (h : negativeType? cs ≠ none) :
    ∃ d ds, cs = '-' :: d :: ds ∧ isDecimal d = true ∧
      ∀ c ∈ d :: ds, isDecimal c = true ∨ c = '.' := by
  unfold negativeType? at h
  split at h
  · next rest =>
    by_cases hnumber : isIntLiteral rest = true ∨ isFloatLiteral rest = true
    · obtain ⟨d, ds, rfl, hd⟩ := isDecimal_head hnumber
      refine ⟨d, ds, rfl, hd, ?_⟩
      rcases hnumber with hint | hfloat
      · exact fun c hc => .inl (isDecimal_of_isIntLiteral hint c hc)
      · exact isDecimal_of_isFloatLiteral hfloat
    · rw [not_or] at hnumber
      rw [if_neg hnumber.1, if_neg hnumber.2] at h
      exact absurd rfl h
  · exact absurd rfl h

end Check

/-- An expression has a token that opens no parenthesis. -/
theorem Expr.exists_closed (e : Expr) : ∃ t ∈ e.terminals, t ≠ .symbol .leftParen := by
  cases e with
  | binary op opSpan a b s => exact ⟨.symbol op.symbol, by simp [terminals], by cases op <;> decide⟩
  | truth b s => cases b <;> exact ⟨_, .head _, by simp⟩
  | paren e s => exact ⟨.symbol .rightParen, by simp [terminals], by decide⟩
  | _ => exact ⟨_, .head _, by simp⟩

/-- Where an element occurs once in a list, only one way leads to it. -/
theorem eq_of_append_cons {α : Type} {x : α} {as bs cs ds : List α}
    (h : as ++ x :: bs = cs ++ x :: ds) (ha : x ∉ as) (hb : x ∉ bs) : as = cs ∧ bs = ds := by
  rcases List.append_eq_append_iff.1 h with ⟨more, rfl, hmore⟩ | ⟨more, rfl, hmore⟩
  · cases more with
    | nil => exact ⟨(List.append_nil as).symm, (List.cons_eq_cons.1 hmore).2⟩
    | cons y more =>
      refine absurd ?_ hb
      rw [(List.cons_eq_cons.1 hmore).2]
      simp
  · cases more with
    | nil => exact ⟨List.append_nil cs, (List.cons_eq_cons.1 hmore).2.symm⟩
    | cons y more =>
      refine absurd ?_ ha
      rw [(List.cons_eq_cons.1 hmore).1]
      simp

namespace Lexing

section

variable {cs core : List Char} {ts : List Token} {op : BinaryOp} {a b : Expr}
  (hread : ReadAs cs ts) (herror : ∀ t ∈ ts, t.isError = false)
  (hterminals : ts.filter (·.isSignificant) = a.terminals ++ .symbol op.symbol :: b.terminals)
include hread herror hterminals

/-- The tokens of a text without one of its blanks and parentheses, and what comes before them. -/
theorem ReadAs.behind_opening (hcore : Cored cs core) {c : Char} {rest : List Char} (hc : core = c :: rest)
    (hgap : isGap c = false) :
    ∃ front back suf, ReadAs (core ++ suf) back ∧ (∀ t ∈ back, t.isError = false) ∧
      (∀ x ∈ suf, isBlank x = true ∨ x = ')') ∧ (∀ t ∈ front, t = .symbol .leftParen) ∧
      a.terminals ++ .symbol op.symbol :: b.terminals = front ++ back.filter (·.isSignificant) := by
  obtain ⟨pre, suf, rfl, hpre, hsuf⟩ := hcore
  obtain ⟨front, back, rfl, hback, hfront⟩ := hread.skip_opening herror hpre (by
    rw [hc]
    rintro _ ⟨⟩
    exact hgap)
  refine ⟨front.filter (·.isSignificant), back, suf, hback,
    fun t ht => herror t (List.mem_append_right _ ht), hsuf, ?_, ?_⟩
  · intro t ht
    obtain ⟨ht, hseen⟩ := List.mem_filter.1 ht
    rcases hfront t ht with h | h
    · exact h
    · rw [h] at hseen
      cases hseen
  · rw [← hterminals, List.filter_append]

/-- A string would be the only token behind the opening parentheses that is none of them. -/
theorem isStringLiteral_core (hcore : Cored cs core) : isStringLiteral core = false := by
  by_contra hstring
  obtain ⟨inner, rfl, hinner⟩ := exists_of_isStringLiteral (Bool.not_eq_false _ ▸ hstring)
  obtain ⟨front, back, suf, hback, hgood, hsuf, hfront, htokens⟩ :=
    hread.behind_opening herror hterminals hcore rfl (by decide)
  obtain ⟨w, after, t, ts', rfl, hsplit, hspells, hnext⟩ := ReadAs.first hback hgood
  obtain ⟨rfl, body, rfl, -⟩ := hspells.of_quote rfl
  rw [List.forall_mem_cons] at hgood
  have hquote : '"' ∉ suf := fun hmem => absurd (hsuf _ hmem) (by decide)
  obtain ⟨-, rfl⟩ := eq_of_append_cons (by simpa using hsplit) hinner hquote
  obtain ⟨x, hx, -, -, -, hclosing, -⟩ := exists_operator_char op
  have hop : Token.symbol op.symbol ∈ a.terminals ++ .symbol op.symbol :: b.terminals := by simp
  rw [htokens] at hop
  rcases List.mem_append.1 hop with hop | hop
  · exact absurd (hfront _ hop) (by cases op <;> decide)
  · rcases List.mem_cons.1 (List.mem_of_mem_filter hop) with hop | hop
    · cases hop
    · exact hclosing (hsuf x (hnext.mem_of_mem_text hgood.2 hop x hx))

/-- Before the minus sign of a number would stand opening parentheses only. -/
theorem negativeType?_core (hcore : Cored cs core) : negativeType? core = none := by
  by_contra hnegative
  obtain ⟨d, ds, rfl, hd, hds⟩ := exists_of_negativeType? hnegative
  obtain ⟨front, back, suf, hback, hgood, hsuf, hfront, htokens⟩ :=
    hread.behind_opening herror hterminals hcore rfl (by decide)
  obtain ⟨w, after, t, ts', rfl, hsplit, hspells, hnext⟩ := ReadAs.first hback hgood
  rw [List.forall_mem_cons] at hgood
  obtain ⟨rfl, rfl⟩ : t = .symbol .minus ∧ w = [] := by
    rcases hspells.of_other rfl (by decide) with ⟨s, rfl, hs⟩ | ⟨-, body, hbody, -⟩ | ⟨-, body, hbody, -⟩
    · cases s with
      | minus => exact ⟨rfl, (List.cons_eq_cons.1 hs).2.symm⟩
      | minusAssign =>
        obtain rfl : ['='] = w := (List.cons_eq_cons.1 hs).2
        rw [(List.cons_eq_cons.1 hsplit).1] at hd
        exact absurd hd (by decide)
      | _ => cases (List.cons_eq_cons.1 hs).1
    · cases (List.cons_eq_cons.1 hbody).1
    · cases (List.cons_eq_cons.1 hbody).1
  -- Behind the minus sign no operator has a character.
  obtain ⟨x, hx, hword, hpoint, -, hclosing, -⟩ := exists_operator_char op
  have hbehind : Token.symbol op.symbol ∉ ts' := by
    intro hop
    have hmem := hnext.mem_of_mem_text hgood.2 hop x hx
    rw [← List.nil_append after, ← hsplit] at hmem
    rcases List.mem_append.1 hmem with hmem | hmem
    · rcases hds x hmem with h | h
      · rw [isWord_of_isDecimal h] at hword
        cases hword
      · exact hpoint h
    · exact hclosing (hsuf x hmem)
  have hfront' : Token.symbol op.symbol ∉ front := fun hop =>
    absurd (hfront _ hop) (by cases op <;> decide)
  have hfilter : (Token.symbol .minus :: ts').filter (·.isSignificant) =
      .symbol .minus :: ts'.filter (·.isSignificant) := List.filter_cons_of_pos rfl
  have hop : Token.symbol op.symbol ∈ a.terminals ++ .symbol op.symbol :: b.terminals := by simp
  rw [hfilter] at htokens
  rw [htokens] at hop
  rcases List.mem_append.1 hop with hop | hop
  · exact hfront' hop
  rcases List.mem_cons.1 hop with hop | hop
  · rw [hop] at htokens hfront' hbehind
    obtain ⟨rfl, -⟩ := eq_of_append_cons htokens.symm hfront'
      fun hmem => hbehind (List.mem_of_mem_filter hmem)
    obtain ⟨u, hu, hne⟩ := a.exists_closed
    exact hne (hfront u hu)
  · exact hbehind (List.mem_of_mem_filter hop)

/-- A text with a binary operator in it is no atom, whatever parentheses are taken from its ends. -/
theorem atomType?_core {symbols : Symbols}
    (hs : ∀ entry ∈ symbols.entries, ∀ c ∈ entry.1.toList, isWord c = true) (hcore : Cored cs core) :
    atomType? symbols core = none := by
  obtain ⟨x, hx, hword, hpoint, hopening, hclosing, -⟩ := exists_operator_char op
  have hmem : x ∈ cs := by
    have hop : Token.symbol op.symbol ∈ ts := by
      refine List.mem_of_mem_filter (p := (·.isSignificant)) ?_
      rw [hterminals]
      simp
    exact hread.mem_of_mem_text herror hop x hx
  have hleft : x ∈ core := by
    obtain ⟨pre, suf, rfl, hpre, hsuf⟩ := hcore
    rcases List.mem_append.1 hmem with h | h
    · exact absurd (hpre x h) hopening
    · rcases List.mem_append.1 h with h | h
      · exact h
      · exact absurd (hsuf x h) hclosing
  rw [atomType?_eq_negativeType? hs hleft hword hpoint
    (isStringLiteral_core hread herror hterminals hcore)]
  exact negativeType?_core hread herror hterminals hcore

end

end Lexing

/-! ## Accepted expressions -/

/-- An expression that is read up to the end is made of all tokens. -/
theorem Parsing.terminals_of_atEnd [Build] {tokens : List Token} (heof : .eof ∉ tokens) {n : Nat}
    {p q : Parser} {e : Expr} (hp : p.Ready) (hpending : p.pending = tokens ++ [.eof])
    (h : Parsing.expression n p = (.ok e, q)) (hend : q.stream.atEnd = true) :
    e.terminals = tokens := by
  have htook := (Parsing.expression_read hp h).took
  have hsplit : p.pending = e.terminals ++ q.pending := by
    rw [← htook.tokens]
    unfold Parser.pending valuesFrom
    rw [htook.onward.tokens, ← List.map_append]
    have hstep : q.position = p.position + (q.position - p.position) := by
      have hle := htook.onward.position
      omega
    conv => rhs; arg 2; arg 2; rw [hstep, ← List.drop_drop]
    rw [List.take_append_drop]
  obtain ⟨rest, hrest⟩ := q.pending_eq_cons
  have hcurrent : q.stream.current.value = .eof := by
    unfold TokenStream.atEnd at hend
    cases hvalue : q.stream.current.value with
    | eof => rfl
    | _ => rw [hvalue] at hend; cases hend
  rw [hcurrent] at hrest
  rw [hpending, hrest] at hsplit
  -- The end of the source is the last token only.
  rcases List.append_eq_append_iff.1 hsplit with ⟨more, hmore, hlast⟩ | ⟨more, hmore, hlast⟩
  · cases more with
    | nil => rw [hmore, List.append_nil]
    | cons t more => cases more <;> cases (List.cons_eq_cons.1 hlast).2
  · cases more with
    | nil => rw [hmore, List.append_nil]
    | cons t more =>
      refine absurd ?_ heof
      rw [hmore, (List.cons_eq_cons.1 hlast).1]
      simp

/-- Inference does not type a binary expression, unless the text looks like one call. Take a text that is
lexed without an error token, and that the rule for expressions reads up to the end as an expression
with a binary operator at its root, and a symbol table with names of word characters. Take blanks and
pairs of parentheses from the ends of the text. Where what is left does not begin with the head of a
call to a built-in function and end with a parenthesis, the text has no type. -/
theorem infer_binary [Build] (lexical : LexicalPreferences) (preferences : ParserPreferences)
    (reporter : Reporter) {text : String}
    (herror : ∀ t ∈ (Lexing.tokenize lexical text).tokens, t.value.isError = false)
    {op : BinaryOp} {a b : Expr} {s s' : Span} {q : Parser}
    (hread : Parsing.expression Limit.parseDepth
      (.start (.ofTokens (Lexing.tokenize lexical text).tokens) preferences reporter) =
        (.ok (.binary op s a b s'), q))
    (hend : q.stream.atEnd = true) {symbols : Symbols}
    (hs : ∀ entry ∈ symbols.entries, ∀ c ∈ entry.1.toList, isWord c = true)
    (hcall : wholeCall? (peel text.toList) = none) : (infer symbols text.toList).1 = none := by
  obtain ⟨ts, hts, hvalues⟩ := Lexing.readAs_of_errorless herror
  have hgood : ∀ t ∈ ts, t.isError = false := by
    intro t ht
    have hmem : t ∈ (Lexing.tokenize lexical text).tokens.toList.map (·.value) := by
      rw [hvalues]
      exact List.mem_append_left _ ht
    obtain ⟨u, hu, rfl⟩ := List.mem_map.1 hmem
    exact herror u (Array.mem_toList_iff.1 hu)
  obtain ⟨-, front, place, htokens, hvisible⟩ := Lexing.tokenize_visible lexical text
  obtain ⟨hready, hpending⟩ := Parser.ready_start htokens preferences reporter
  have hfront : front.map (·.value) = ts := by
    rw [htokens, List.map_append] at hvalues
    exact List.append_cancel_right hvalues
  have hseen : (front.filter (·.value.isSignificant)).map (·.value) = ts.filter (·.isSignificant) := by
    rw [← hfront, List.filter_map]
    rfl
  rw [hseen] at hpending
  have heof : .eof ∉ ts.filter (·.isSignificant) :=
    fun hmem => hts.eof_not_mem hgood (List.mem_of_mem_filter hmem)
  -- The whole text was read, so it has the terminals of the tree.
  have hterminals := Parsing.terminals_of_atEnd heof hready hpending hread hend
  unfold infer
  -- With parentheses around it taken off the text is neither a call nor an atom.
  cases hrun : inferWithin symbols (Limit.inferenceDepth + 1) text.toList with
  | error fault => rfl
  | ok typing =>
    exact inferWithin_untyped (fun core hcore => Lexing.atomType?_core hts hgood hterminals.symm hs hcore)
      hcall hrun

/-- The outcome of the rule for expressions is a binary expression up to the end. -/
def endsBinary [Build] : Except SyntaxError Expr × Parser → Bool
  | (.ok (.binary ..), q) => q.stream.atEnd
  | _ => false

/-- A text is lexed without an error token and read up to the end as a binary expression. -/
structure IsBinaryText [Build] (text : String) : Prop where
  errorless : ∀ t ∈ (Lexing.tokenize {} text).tokens, t.value.isError = false
  read : endsBinary (Parsing.expression Limit.parseDepth
    (.start (.ofTokens (Lexing.tokenize {} text).tokens) {} {})) = true

/-- Parentheses at both ends that belong to different operands, and a call in front of the last one. -/
theorem infer_binary_product :
    let text := "(1 + 2) * (3 - sqrt(4))"
    IsBinaryText text ∧ wholeCall? (peel text.toList) = none ∧ (infer {} text.toList).1 = none := by
  intro text
  have hbinary : IsBinaryText text := ⟨by decide +kernel, by decide +kernel⟩
  have hcall : wholeCall? (peel text.toList) = none := by
    have hinner : parenthesized? (trim text.toList) = some "1 + 2) * (3 - sqrt(4)".toList := by decide
    have hnone : parenthesized? (trim "1 + 2) * (3 - sqrt(4)".toList) = none := by decide
    rw [peel, hinner]
    dsimp only
    rw [peel, hnone]
    decide
  refine ⟨hbinary, hcall, ?_⟩
  have hread := hbinary.read
  unfold endsBinary at hread
  split at hread
  · next heq => exact infer_binary {} {} {} hbinary.errorless heq hread (by simp) hcall
  · cases hread

/-- A sum of two calls is taken for one call, and gets the type of the first. -/
theorem infer_binary_calls :
    let text := "sqrt(1) + sqrt(2)"
    IsBinaryText text ∧ (infer {} text.toList).1 = some .float :=
  ⟨⟨by decide +kernel, by decide +kernel⟩, by decide +kernel⟩

end EvlCheck
