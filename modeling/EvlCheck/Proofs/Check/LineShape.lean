/-
The lines of a program that is laid out line by line, and what validation takes them for. A line is a
statement without a block, the header of a block, a brace that closes one, or blank (`LineShape`).
Validation reads the beginning of the line in normal form: it knows the declarations, assignments and
calls by it, takes `if` and `while` for names of functions, and does not know a line that begins with
`else` or closes a block before it goes on with another.
-/
import EvlCheck.Proofs.Check.LineStart

namespace EvlCheck

open Text Check Lexing

/-! ## Shapes -/

/-- The header of a block, up to its brace. Some may close the block before theirs on the same line. -/
inductive Header where
  | block
  | ifOpens (condition : Expr)
  | elseIfOpens (closes : Bool) (condition : Expr)
  | elseOpens (closes : Bool)
  | whileOpens (condition : Expr)
  | tryOpens
  | catchOpens (closes : Bool) (binding : Option String)

namespace Header

/-- The brace of the block before. -/
def closing (closes : Bool) : List Token := if closes then [.symbol .rightBrace] else []

/-- A condition in its parentheses, and the brace of the block behind it. -/
def conditionTerminals (condition : Expr) : List Token :=
  .symbol .leftParen :: (condition.terminals ++ [.symbol .rightParen, .symbol .leftBrace])

def terminals : Header → List Token
  | block => [.symbol .leftBrace]
  | ifOpens c => .keyword .if :: conditionTerminals c
  | elseIfOpens closes c => closing closes ++ .keyword .else :: .keyword .if :: conditionTerminals c
  | elseOpens closes => closing closes ++ [.keyword .else, .symbol .leftBrace]
  | whileOpens c => .keyword .while :: conditionTerminals c
  | tryOpens => [.keyword .try, .symbol .leftBrace]
  | catchOpens closes none => closing closes ++ [.keyword .catch, .symbol .leftBrace]
  | catchOpens closes (some n) =>
    closing closes ++ [.keyword .catch, .symbol .leftParen, .identifier n, .symbol .rightParen,
      .symbol .leftBrace]

/-- The word of a header with a condition that no `else` stands before. -/
def condition? : Header → Option Keyword
  | ifOpens _ => some .if
  | whileOpens _ => some .while
  | _ => none

/-- The block is another branch of the statement before: one behind an `else`, or a handler without a
binding. -/
def isBranch : Header → Bool
  | elseIfOpens .. | elseOpens _ | catchOpens _ none => true
  | _ => false

end Header

/-- What stands on a line. -/
inductive LineShape where
  | blank
  | simple (s : Stmt) (single : s.isSimple = true)
  | header (h : Header)
  | close

namespace LineShape

def terminals : LineShape → List Token
  | blank => []
  | simple s _ => s.terminals
  | header h => h.terminals
  | close => [.symbol .rightBrace]

def condition? : LineShape → Option Keyword
  | header h => h.condition?
  | _ => none

def isBranch : LineShape → Bool
  | header h => h.isBranch
  | _ => false

end LineShape

/-! ## The steps of the patterns -/

namespace Text

theorem not_mem_of_isNamePart {w : List Char} (hw : ∀ d ∈ w, isNamePart d = true) {c : Char}
    (hc : isNamePart c = false) : c ∉ w := by
  intro hmem
  rw [hw c hmem] at hc
  cases hc

end Text

namespace Check

section

variable {g w rest : List Char}

theorem type?_text (type : ValueType) (rest : List Char) :
    type? (type.text.toList ++ rest) = some (type, rest) := by
  cases type <;> rfl

theorem declarationHead?_type (type : ValueType) (rest : List Char) :
    declarationHead? (type.text.toList ++ rest) = some (false, type, rest) := by
  cases type <;> rfl

theorem declarationHead?_const (type : ValueType) (hg : ∀ c ∈ g, isBlank c = true) (hne : g ≠ [])
    (rest : List Char) :
    declarationHead? ("const".toList ++ (g ++ (type.text.toList ++ rest))) =
      some (true, type, rest) := by
  have hconst : ∀ cs, after? "const" ("const".toList ++ cs) = some cs := fun _ => rfl
  have hstart : trimStart (type.text.toList ++ rest) = type.text.toList ++ rest := by
    cases type <;> rfl
  unfold declarationHead?
  rw [hconst, Option.bind_some, skipBlanks?_blanks_append hg hne, hstart, Option.bind_some, type?_text]

/-- A head, a name, an equals sign and the first character of a value make a declaration. -/
theorem declaration?_of_head {cs : List Char} {constant : Bool} {type : ValueType} {c v : Char}
    {g' g'' tail : List Char}
    (hhead : declarationHead? cs = some (constant, type, g ++ (c :: w ++ (g' ++ '=' :: (g'' ++ v :: tail)))))
    (hg : ∀ d ∈ g, isBlank d = true) (hne : g ≠ []) (hg' : ∀ d ∈ g', isBlank d = true)
    (hg'' : ∀ d ∈ g'', isBlank d = true) (hw : ∀ d ∈ c :: w, isWord d = true)
    (hv : isBlank v = false) : declaration? cs = some ⟨constant, type, String.ofList (c :: w), v :: tail⟩ := by
  have hstart : trimStart (c :: w ++ (g' ++ '=' :: (g'' ++ v :: tail))) =
      c :: w ++ (g' ++ '=' :: (g'' ++ v :: tail)) :=
    trimStart_cons (isBlank_of_isWord (hw c List.mem_cons_self)) _
  have hends : ∀ d ∈ (g' ++ '=' :: (g'' ++ v :: tail)).head?, isWord d = false := by
    refine head?_blanks_append hg' ?_
    rintro d hd
    cases hd
    decide
  unfold declaration? namedHead?
  simp only [Option.bind_eq_bind, hhead, Option.bind_some, skipBlanks?_blanks_append hg hne, hstart,
    word?_append hw hends (List.cons_ne_nil _ _), Option.pure_def, afterBlanks?_blanks_append hg']
  rw [afterBlanks?_cons (by decide), if_pos rfl, Option.bind_some, trimStart_blanks_append hg'',
    trimStart_cons hv]
  rfl

/-- A text without the head of a declaration declares nothing. -/
theorem lineForm_of_declarationHead?_eq_none {cs : List Char} (h : declarationHead? cs = none) :
    lineForm cs = if isCallStart cs then .call
      else if isAssignmentStart cs then .assignment (assignedValue? cs) else .other := by
  have hnamed : namedHead? cs = none := by
    unfold namedHead?
    rw [h]
    rfl
  have hdeclaration : declaration? cs = none := by
    unfold declaration?
    rw [hnamed]
    rfl
  have hnameless : isNameless cs = false := by
    unfold isNameless
    rw [h]
    rfl
  have hvalueless : valueless? cs = none := by
    unfold valueless?
    rw [hnamed]
    rfl
  unfold lineForm
  rw [hdeclaration, hnameless, hvalueless]
  rfl

theorem lineForm_ne_other {cs : List Char}
    (h : (declaration? cs).isSome = true ∨ isCallStart cs = true ∨ isAssignmentStart cs = true) :
    lineForm cs ≠ .other := by
  unfold lineForm
  split
  · exact LineForm.noConfusion
  · next hnone =>
    split
    · exact LineForm.noConfusion
    · split
      · exact LineForm.noConfusion
      · split
        · exact LineForm.noConfusion
        · next hcall =>
          rw [hnone] at h
          rw [if_pos (by simpa [hcall] using h)]
          exact LineForm.noConfusion

end

end Check

/-! ## Statements without a block -/

/-- What an expression can begin with: a minus sign, a parenthesis, or no symbol. -/
def Token.beginsOperand : Token → Bool
  | .symbol s => s == .minus || s == .leftParen
  | _ => true

theorem Expr.exists_terminals (e : Expr) :
    ∃ t ts, e.terminals = t :: ts ∧ t.beginsOperand = true := by
  induction e with
  | binary op opSpan a b s iha ihb =>
    obtain ⟨t, ts, hts, ht⟩ := iha
    exact ⟨t, _, by rw [terminals, hts]; rfl, ht⟩
  | truth value s => cases value <;> exact ⟨_, _, rfl, rfl⟩
  | _ => exact ⟨_, _, rfl, rfl⟩

namespace Lexing

theorem isBlank_of_isNamePart {c : Char} (h : isNamePart c = true) : isBlank c = false :=
  isBlank_of_isWord (isWord_of_isNamePart h)

theorem Spells.exists_operand {w : List Char} {t : Token} (h : Spells w t)
    (hseen : t.isSignificant = true) (ht : t.beginsOperand = true) :
    ∃ c cs, w = c :: cs ∧ isBlank c = false ∧ c ≠ '/' ∧ c ≠ ';' := by
  have hpart : ∀ {c : Char}, isNamePart c = true → isBlank c = false ∧ c ≠ '/' ∧ c ≠ ';' := by
    refine fun {c} hc => ⟨isBlank_of_isNamePart hc, ?_, ?_⟩ <;>
    · rintro rfl
      exact absurd hc (by decide)
  have hdigit : ∀ {c : Char}, c.isDigit = true → isNamePart c = true := by
    intro c hc
    simp [isNamePart, Char.isAlphanum, hc]
  cases h with
  | whitespace => cases hseen
  | lineComment => cases hseen
  | blockComment => cases hseen
  | @integer w nonempty digits =>
    obtain ⟨c, cs, rfl⟩ := List.exists_cons_of_ne_nil nonempty
    exact ⟨c, cs, rfl, hpart (hdigit (digits c List.mem_cons_self))⟩
  | @real whole part whole_ne part_ne whole_digits part_digits =>
    obtain ⟨c, cs, rfl⟩ := List.exists_cons_of_ne_nil whole_ne
    exact ⟨c, _, rfl, hpart (hdigit (whole_digits c List.mem_cons_self))⟩
  | string => exact ⟨_, _, rfl, by decide, by decide, by decide⟩
  | symbol s =>
    cases s <;> first
      | exact ⟨_, _, rfl, by decide, by decide, by decide⟩
      | exact absurd ht (by decide)
  | keyword k =>
    obtain ⟨c, cs, hk, hstart, -⟩ := keyword_text_shape k
    exact ⟨c, cs, hk, hpart (isNamePart_of_isNameStart hstart)⟩
  | @identifier c cs start =>
    exact ⟨c, cs, rfl, hpart (isNamePart_of_isNameStart (by simpa [isNameStart] using start))⟩

namespace LineReads

variable {cs : List Char}

/-- The text of an expression has a first character, with which no comment begins. -/
theorem operand {t : Token} {ts : List Token} (h : LineReads cs (t :: ts))
    (ht : t.beginsOperand = true) :
    ∃ g v tail, (∀ c ∈ g, isGap c = true) ∧ cs = g ++ v :: tail ∧ isBlank v = false ∧ v ≠ '/' ∧
      v ≠ ';' := by
  obtain ⟨g, w, rest, hg, rfl, hreading, hseen, -⟩ := h.uncons
  have hgood : t.isError = false := by
    cases t <;> first | rfl | cases hseen
  obtain ⟨c, w, rfl, hc⟩ := (hreading.spells hgood).exists_operand hseen ht
  exact ⟨g, c, w ++ rest, hg, rfl, hc⟩

/-- The type, the name, the equals sign and the value of a declaration. -/
theorem declaration {d : VarDecl} (h : LineReads cs d.terminals) :
    ∃ g g' c w g'' value, (∀ c ∈ g, isGap c = true) ∧ (∀ c ∈ g', isGap c = true) ∧ g' ≠ [] ∧
      isNameStart c = true ∧ (∀ d ∈ w, isNamePart d = true) ∧ (∀ c ∈ g'', isGap c = true) ∧
      d.name = String.ofList (c :: w) ∧
      cs = g ++ (d.type.text.toList ++ (g' ++ (c :: w ++ (g'' ++ '=' :: value)))) ∧
      LineReads value d.value.terminals := by
  obtain ⟨g, rest, hg, rfl, hends, htype⟩ := LineReads.keyword h
  obtain ⟨g', c, w, rest', hg', rfl, hname, hc, hw, -, hrest⟩ := LineReads.identifier htype
  obtain ⟨g'', value, hg'', rfl, hvalue⟩ := LineReads.symbol hrest
  refine ⟨g, g', c, w, g'', value, hg, hg', ?_, hc, hw, hg'', hname, ?_, hvalue⟩
  · rintro rfl
    have := hends c rfl
    rw [isNamePart_of_isNameStart hc] at this
    cases this
  · cases d.type <;> rfl

end LineReads

end Lexing

namespace Check

variable {raw : List Char}

theorem isWord_of_name {c : Char} {w : List Char} (hc : isNameStart c = true)
    (hw : ∀ d ∈ w, isNamePart d = true) : ∀ d ∈ c :: w, isWord d = true :=
  List.forall_mem_cons.2 ⟨isWord_of_isNamePart (isNamePart_of_isNameStart hc),
    fun d hd => isWord_of_isNamePart (hw d hd)⟩

theorem slash_not_mem_name {c : Char} {w : List Char} (hc : isNameStart c = true)
    (hw : ∀ d ∈ w, isNamePart d = true) : '/' ∉ c :: w :=
  not_mem_of_isNamePart (List.forall_mem_cons.2 ⟨isNamePart_of_isNameStart hc, hw⟩) (by decide)

/-- A declaration is read as one, whatever stands before its type as part of its head. -/
theorem declaration?_normalizeLine (first tail : List Char) {g g' g'' k w : List Char}
    {constant : Bool} {type : ValueType} {c v : Char}
    (hhead : ∀ rest, declarationHead? (first ++ (type.text.toList ++ rest)) =
      some (constant, type, rest))
    (hfirst : ∀ d ∈ (first ++ type.text.toList).head?, isBlank d = false) (hslash : '/' ∉ first)
    (hg : ∀ d ∈ g, isGap d = true) (hg' : ∀ d ∈ g', isGap d = true) (hne : g' ≠ [])
    (hc : isNameStart c = true) (hw : ∀ d ∈ w, isNamePart d = true)
    (hg'' : ∀ d ∈ g'', isGap d = true) (hk : ∀ d ∈ k, isGap d = true) (hv : isBlank v = false)
    (hv' : v ≠ '/') (hv'' : v ≠ ';') :
    declaration? (normalizeLine
      (g ++ (first ++ (type.text.toList ++ (g' ++ (c :: w ++ (g'' ++ '=' :: (k ++ v :: tail)))))))) =
      some ⟨constant, type, String.ofList (c :: w), v :: lineTail tail⟩ := by
  have htype : '/' ∉ type.text.toList := by cases type <;> decide
  have hname := slash_not_mem_name hc hw
  have hline := normalizeLine_opening hg (v := v)
    (p := first ++ (type.text.toList ++ (g' ++ (c :: w ++ (g'' ++ '=' :: k))))) ?_ ?_ hv hv'' tail
  · simp only [List.append_assoc, List.cons_append] at hline ⊢
    rw [hline]
    exact declaration?_of_head (hhead _) (isBlank_of_gap hg') hne (isBlank_of_gap hg'')
      (isBlank_of_gap hk) (isWord_of_name hc hw) hv
  · have hne : first ++ type.text.toList ≠ [] := by cases type <;> simp [ValueType.text]
    rw [← List.append_assoc, List.append_assoc, List.head?_append_of_ne_nil _ hne]
    exact hfirst
  · refine .of_not_mem ?_
    simp only [List.mem_append, List.mem_cons, not_or, List.not_mem_nil, not_false_eq_true,
      and_true] at hname ⊢
    exact ⟨⟨hslash, htype, not_mem_gap hg' (by decide), hname, not_mem_gap hg'' (by decide), by decide,
      not_mem_gap hk (by decide)⟩, hv'.symm⟩

theorem declaration?_varDecl {d : VarDecl} (h : LineReads raw d.terminals) :
    ∃ value, declaration? (normalizeLine raw) = some ⟨false, d.type, d.name, value⟩ := by
  obtain ⟨g, g', c, w, g'', value, hg, hg', hne, hc, hw, hg'', hname, rfl, hvalue⟩ := h.declaration
  obtain ⟨t, ts, hts, ht⟩ := d.value.exists_terminals
  rw [hts] at hvalue
  obtain ⟨k, v, tail, hk, rfl, hv, hv', hv''⟩ := hvalue.operand ht
  rw [hname]
  exact ⟨_, declaration?_normalizeLine [] tail (declarationHead?_type d.type)
    (by cases d.type <;> simp [ValueType.text, isBlank]) List.not_mem_nil hg hg' hne hc hw hg'' hk hv
    hv' hv''⟩

theorem declaration?_constDecl {d : VarDecl} (h : LineReads raw (.keyword .const :: d.terminals)) :
    ∃ value, declaration? (normalizeLine raw) = some ⟨true, d.type, d.name, value⟩ := by
  obtain ⟨j, rest, hj, rfl, hends, hrest⟩ := h.keyword
  obtain ⟨g, g', c, w, g'', value, hg, hg', hne, hc, hw, hg'', hname, rfl, hvalue⟩ := hrest.declaration
  obtain ⟨t, ts, hts, ht⟩ := d.value.exists_terminals
  rw [hts] at hvalue
  obtain ⟨k, v, tail, hk, rfl, hv, hv', hv''⟩ := hvalue.operand ht
  have hgne : g ≠ [] := by
    rintro rfl
    have hpart : ∃ a ∈ d.type.text.toList.head?, isNamePart a = true := by
      cases d.type <;> exact ⟨_, rfl, by decide⟩
    obtain ⟨a, ha, hpart⟩ := hpart
    rw [hends a (by rw [List.nil_append, List.head?_append, Option.mem_def.1 ha]; rfl)] at hpart
    cases hpart
  have hhead : ∀ rest, declarationHead? ("const".toList ++ g ++ (d.type.text.toList ++ rest)) =
      some (true, d.type, rest) := by
    intro rest
    rw [List.append_assoc]
    exact declarationHead?_const d.type (isBlank_of_gap hg) hgne rest
  have hslash : '/' ∉ "const".toList ++ g := by simpa using not_mem_gap hg (by decide)
  have hread := declaration?_normalizeLine ("const".toList ++ g) tail hhead (by simp [isBlank]) hslash
    hj hg' hne hc hw hg'' hk hv hv' hv''
  rw [List.append_assoc] at hread
  rw [hname]
  exact ⟨_, hread⟩

theorem commentless_assignOp (op : AssignOp) : Commentless op.symbol.chars := by
  cases op with
  | divide =>
    intro cs
    show beforeComment ('/' :: '=' :: cs) = '/' :: '=' :: beforeComment cs
    rw [beforeComment_cons, if_neg (by simp), beforeComment_cons, if_neg (by simp)]
  | _ => exact .of_not_mem (by decide)

/-- The operation that an assignment does before it assigns. -/
def operation (op : AssignOp) : List Char := op.symbol.chars.dropLast

theorem operation_append (op : AssignOp) : operation op ++ ['='] = op.symbol.chars := by
  cases op <;> rfl

theorem normalizeLine_assignment {g g' w : List Char} {c : Char} (op : AssignOp)
    (hg : ∀ d ∈ g, isGap d = true) (hc : isNameStart c = true) (hw : ∀ d ∈ w, isNamePart d = true)
    (hg' : ∀ d ∈ g', isGap d = true) (rest : List Char) :
    normalizeLine (g ++ (c :: w ++ (g' ++ (op.symbol.chars ++ rest)))) =
      c :: w ++ (g' ++ (operation op ++ '=' :: lineTail rest)) := by
  have hcomment : Commentless (c :: w ++ (g' ++ operation op) ++ ['=']) := by
    rw [List.append_assoc, List.append_assoc, operation_append]
    exact (Commentless.of_not_mem (slash_not_mem_name hc hw)).append
      ((Commentless.of_not_mem (not_mem_gap hg' (by decide))).append (commentless_assignOp op))
  have hfirst : ∀ d ∈ (c :: w ++ (g' ++ operation op) ++ ['=']).head?, isBlank d = false := by
    rintro d hd
    cases hd
    exact isBlank_of_isNamePart (isNamePart_of_isNameStart hc)
  have hline := normalizeLine_opening hg hfirst hcomment (by decide) (by decide) rest
  rw [← operation_append]
  simpa only [List.append_assoc, List.cons_append, List.nil_append] using hline

theorem isWord_head?_operation {g : List Char} (op : AssignOp) (hg : ∀ d ∈ g, isGap d = true) (rest : List Char) :
    ∀ d ∈ (g ++ (operation op ++ '=' :: rest)).head?, isWord d = false := by
  refine head?_blanks_append (isBlank_of_gap hg) ?_
  cases op <;> simp [operation, AssignOp.symbol, OpSymbol.chars, isWord]

theorem isAssignmentStart_normalizeLine {g g' w rest : List Char} {c : Char} (op : AssignOp)
    (hg : ∀ d ∈ g, isGap d = true) (hc : isNameStart c = true) (hw : ∀ d ∈ w, isNamePart d = true)
    (hg' : ∀ d ∈ g', isGap d = true) :
    isAssignmentStart (normalizeLine (g ++ (c :: w ++ (g' ++ (op.symbol.chars ++ rest))))) = true := by
  have hname := name?_append hc (fun d hd => isWord_of_isNamePart (hw d hd))
    (isWord_head?_operation op hg' (lineTail rest))
  have hstart : trimStart (g' ++ (operation op ++ '=' :: lineTail rest)) =
      operation op ++ '=' :: lineTail rest := by
    rw [trimStart_blanks_append (isBlank_of_gap hg')]
    cases op <;> rfl
  rw [normalizeLine_assignment op hg hc hw hg']
  unfold isAssignmentStart
  rw [hname]
  dsimp only
  rw [hstart]
  cases op <;> rfl

/-- Normal form keeps a word of the language and the character that follows it. -/
theorem normalizeLine_keyword {g g' : List Char} (k : Keyword) {v : Char}
    (hg : ∀ d ∈ g, isGap d = true) (hg' : ∀ d ∈ g', isGap d = true) (hv : isBlank v = false)
    (hslash : v ≠ '/') (hsemicolon : v ≠ ';') (rest : List Char) :
    normalizeLine (g ++ (k.text.toList ++ (g' ++ v :: rest))) =
      k.text.toList ++ (g' ++ v :: lineTail rest) := by
  obtain ⟨c, w, hk, hc, hw⟩ := keyword_text_shape k
  rw [hk]
  have hline := normalizeLine_opening hg (v := v) (p := c :: w ++ g') ?_ ?_ hv hsemicolon rest
  · simpa only [List.append_assoc] using hline
  · rintro d hd
    cases hd
    exact isBlank_of_isNamePart (isNamePart_of_isNameStart hc)
  · exact ((Commentless.of_not_mem (slash_not_mem_name hc hw)).append
      (.of_not_mem (not_mem_gap hg' (by decide)))).append (.of_not_mem (by simpa using hslash.symm))

theorem isCallStart_paren {g : List Char} (k : Keyword) (hg : ∀ d ∈ g, isGap d = true)
    (rest : List Char) : isCallStart (k.text.toList ++ (g ++ '(' :: rest)) = true := by
  obtain ⟨c, w, hk, hc, hw⟩ := keyword_text_shape k
  have hends : ∀ d ∈ (g ++ '(' :: rest).head?, isWord d = false := by
    refine head?_blanks_append (isBlank_of_gap hg) ?_
    rintro d hd
    cases hd
    decide
  unfold isCallStart callHead?
  rw [hk, name?_append hc (fun d hd => isWord_of_isNamePart (hw d hd)) hends]
  simp [afterBlanks?_blanks_append (isBlank_of_gap hg), afterBlanks?_cons, isBlank]

/-- Validation knows the statements without a block. -/
theorem lineForm_simple {s : Stmt} (hs : s.isSimple = true) (h : LineReads raw s.terminals) :
    lineForm (normalizeLine raw) ≠ .other := by
  cases s with
  | varDecl d =>
    obtain ⟨value, hvalue⟩ := declaration?_varDecl h
    exact lineForm_ne_other (.inl (by rw [hvalue]; rfl))
  | constDecl d span =>
    obtain ⟨value, hvalue⟩ := declaration?_constDecl h
    exact lineForm_ne_other (.inl (by rw [hvalue]; rfl))
  | assignment target op e span =>
    obtain ⟨g, c, w, rest, hg, rfl, -, hc, hw, -, hrest⟩ := LineReads.identifier h
    obtain ⟨g', value, hg', rfl, -⟩ := hrest.symbol
    exact lineForm_ne_other (.inr (.inr (isAssignmentStart_normalizeLine op hg hc hw hg')))
  | print args span =>
    obtain ⟨g, rest, hg, rfl, -, hrest⟩ := LineReads.keyword h
    obtain ⟨g', inside, hg', rfl, -⟩ := hrest.symbol
    have hline := normalizeLine_keyword .print hg hg' (v := '(') (by decide) (by decide) (by decide)
      inside
    refine lineForm_ne_other (.inr (.inl ?_))
    rw [OpSymbol.chars, List.singleton_append, hline]
    exact isCallStart_paren .print hg' _
  | _ => cases hs

end Check

end EvlCheck
