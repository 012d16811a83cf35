/-
The parts of a statement in its text. A line with a declaration, an assignment or a print statement is,
in normal form, the words of the terminals with blanks between them (`words_normalizeLine`). So the
patterns of validation find in it what the parser does: the name and the value of a declaration
(`declaration?_words`), and the value of an assignment (`lineForm_assigned`).
-/
import EvlCheck.Proofs.Check.NormalForm
import EvlCheck.Proofs.Parsing.CleanSource

namespace EvlCheck

open Text Check

namespace Lexing

/-! ## The first word of some -/

/-- A word of letters ends where no part of a name follows. -/
theorem Reading.letters_end {w rest : List Char} {t : Token} (h : Reading False (w ++ rest) w t)
    (hgood : t.isError = false) (ht : terminalHead t = .letter) :
    ∀ d ∈ rest.head?, isNamePart d = false := by
  have hspells := h.spells hgood
  obtain ⟨c, w, rfl⟩ := hspells.exists_cons
  have hc := headKind_spec c
  rw [← hspells.terminalHead_eq, ht] at hc
  exact h.word_ends hgood hc (hspells.of_letter rfl hc).2

namespace Words

variable {tail body : List Char} {t u : Token} {ts : List Token}

theorem uncons (h : Words tail body (t :: u :: ts)) :
    ∃ w g rest, body = w ++ (g ++ rest) ∧ (∀ c ∈ g, isGap c = true) ∧ Spells w t ∧
      Reading False (w ++ (g ++ rest) ++ tail) w t ∧ Words tail rest (u :: ts) := by
  cases h with
  | more seen reading gap next =>
    have hreading := reading
    rw [List.append_assoc] at hreading
    exact ⟨_, _, _, rfl, gap, hreading.spells (isError_of_isSignificant seen), reading, next⟩

theorem keyword {k : Keyword} (h : Words tail body (.keyword k :: u :: ts)) :
    ∃ g rest, body = k.text.toList ++ (g ++ rest) ∧ (∀ c ∈ g, isGap c = true) ∧
      (∀ d ∈ (g ++ rest).head?, isNamePart d = false) ∧ Words tail rest (u :: ts) := by
  obtain ⟨w, g, rest, rfl, hg, hspells, hreading, hnext⟩ := h.uncons
  cases hspells with
  | keyword k =>
    refine ⟨g, rest, rfl, hg, fun d hd => ?_, hnext⟩
    rw [List.append_assoc] at hreading
    refine hreading.letters_end rfl rfl d ?_
    rw [List.head?_append_of_ne_nil _ (List.append_ne_nil_of_right_ne_nil g hnext.tight.nonempty)]
    exact hd

theorem identifier {n : String} (h : Words tail body (.identifier n :: u :: ts)) :
    ∃ c w g rest, n = String.ofList (c :: w) ∧ isNameStart c = true ∧ (∀ d ∈ w, isNamePart d = true) ∧
      (∀ k : Keyword, k.text.toList ≠ c :: w) ∧ body = c :: w ++ (g ++ rest) ∧
      (∀ c ∈ g, isGap c = true) ∧ (∀ d ∈ (g ++ rest).head?, isNamePart d = false) ∧
      Words tail rest (u :: ts) := by
  obtain ⟨w, g, rest, rfl, hg, hspells, hreading, hnext⟩ := h.uncons
  cases hspells with
  | @identifier c w start more free =>
    refine ⟨c, w, g, rest, rfl, by simpa [isNameStart] using start,
      fun d hd => by simpa [isNamePart] using more d hd, free, rfl, hg, fun d hd => ?_, hnext⟩
    rw [List.append_assoc] at hreading
    refine hreading.letters_end rfl rfl d ?_
    rw [List.head?_append_of_ne_nil _ (List.append_ne_nil_of_right_ne_nil g hnext.tight.nonempty)]
    exact hd

theorem symbol {s : OpSymbol} (h : Words tail body (.symbol s :: u :: ts)) :
    ∃ g rest, body = s.chars ++ (g ++ rest) ∧ (∀ c ∈ g, isGap c = true) ∧ Words tail rest (u :: ts) := by
  obtain ⟨w, g, rest, rfl, hg, hspells, -, hnext⟩ := h.uncons
  cases hspells with
  | symbol s => exact ⟨g, rest, rfl, hg, hnext⟩

end Words

end Lexing

/-! ## A statement on its line -/

theorem Stmt.terminals_ne_nil (s : Stmt) : s.terminals ≠ [] := by
  cases s with
  | block b =>
    obtain ⟨statements, span⟩ := b
    exact List.cons_ne_nil _ _
  | tryCatch body binding handler span => cases binding <;> exact List.cons_ne_nil _ _
  | _ => exact List.cons_ne_nil _ _

section

open Lexing (tokenize)

variable [Build] {lexical : LexicalPreferences} {preferences : ParserPreferences} {raw : List Char}
  {s : Stmt}
  (hinvalid : lexical.reportInvalid = true)
  (herrors : (parse lexical preferences (String.ofList raw)).hasErrors = false)
  (hshown : (parse lexical preferences (String.ofList raw)).diagnostics.length < Limit.syntaxDiagnostics)
  (htree : (parse lexical preferences (String.ofList raw)).tree.statements = [s])
include herrors hshown htree

/-- The terminals of the one statement of a line are those of its tokens that the parser sees. -/
theorem terminals_of_line : s.terminals = (tokenize lexical (String.ofList raw)).visible.map (·.value) := by
  rw [← terminals_of_parse herrors hshown, Program.terminals, htree]
  exact (List.append_nil _).symm

theorem mem_tokens_of_line {t : Token} (ht : t ∈ s.terminals) :
    ∃ u ∈ (tokenize lexical (String.ofList raw)).tokens, u.value = t := by
  rw [terminals_of_line herrors hshown htree] at ht
  obtain ⟨u, hu, hvalue⟩ := List.mem_map.1 ht
  exact ⟨u, Array.mem_toList_iff.1 (List.mem_of_mem_filter hu), hvalue⟩

include hinvalid

/-- In normal form, a line of one statement without block comments is the words of the statement, if
nothing stands behind a line comment, nor two slashes together in a string. -/
theorem words_of_line
    (hblock : ∀ t ∈ (tokenize lexical (String.ofList raw)).tokens, ∀ text, t.value ≠ .blockComment text)
    (hlast : (tokenize lexical (String.ofList raw)).tokens.toList.Pairwise fun t u =>
      Lexing.isLineComment t.value = true → Lexing.seen u = false)
    (hslashless : ∀ t ∈ (tokenize lexical (String.ofList raw)).tokens, t.value.Slashless) :
    Lexing.Words [] (normalizeLine raw) s.terminals := by
  have hreads := lineReads_of_parse herrors hshown hinvalid hblock hlast
  have hterminals : (parse lexical preferences (String.ofList raw)).tree.terminals = s.terminals := by
    rw [Program.terminals, htree]
    exact List.append_nil _
  rw [String.toList_ofList, hterminals] at hreads
  refine words_normalizeLine hreads s.terminals_ne_nil fun t ht => ?_
  obtain ⟨u, hu, rfl⟩ := mem_tokens_of_line herrors hshown htree ht
  exact hslashless u hu

end

/-! ## Declarations -/

/-- Whether a statement declares a constant, and the declaration. -/
def Stmt.declared? : Stmt → Option (Bool × VarDecl)
  | .varDecl d => some (false, d)
  | .constDecl d _ => some (true, d)
  | _ => none

theorem Stmt.mem_terminals_of_declared? {s : Stmt} {constant : Bool} {d : VarDecl}
    (hs : s.declared? = some (constant, d)) {t : Token} (ht : t ∈ d.value.terminals) : t ∈ s.terminals := by
  cases s with
  | varDecl =>
    cases hs
    exact .tail _ (.tail _ (.tail _ ht))
  | constDecl =>
    cases hs
    exact .tail _ (.tail _ (.tail _ (.tail _ ht)))
  | _ => cases hs

namespace Check

open Lexing

variable {body : List Char}

/-- The name, the equals sign and the value of a declaration. -/
theorem named_words {d : VarDecl}
    (h : Words [] body (.identifier d.name :: .symbol .assign :: d.value.terminals)) :
    ∃ c w g g' v tail, d.name = String.ofList (c :: w) ∧ isNameStart c = true ∧
      (∀ x ∈ c :: w, isWord x = true) ∧ (∀ x ∈ g, isBlank x = true) ∧ (∀ x ∈ g', isBlank x = true) ∧
      isBlank v = false ∧ body = c :: w ++ (g ++ '=' :: (g' ++ v :: tail)) ∧
      Words [] (v :: tail) d.value.terminals := by
  obtain ⟨t, ts, hts, -⟩ := d.value.exists_terminals
  rw [hts] at h ⊢
  obtain ⟨c, w, g, rest, hname, hc, hw, -, rfl, hg, -, hrest⟩ := h.identifier
  obtain ⟨g', value, rfl, hg', hvalue⟩ := hrest.symbol
  obtain ⟨v, tail, rfl⟩ := List.exists_cons_of_ne_nil hvalue.tight.nonempty
  exact ⟨c, w, g, g', v, tail, hname, hc, isWord_of_name hc hw, isBlank_of_gap hg, isBlank_of_gap hg',
    hvalue.tight.first v rfl, rfl, hvalue⟩

/-- A declaration in normal form is read as one, with the value from its first word on, and is no line
of structure. -/
theorem declaration?_varDecl_words {d : VarDecl} (h : Words [] body d.terminals) :
    (∃ value, declaration? body = some ⟨false, d.type, d.name, value⟩ ∧
      Words [] value d.value.terminals) ∧ TryTracker.isStructure body = false := by
  obtain ⟨g, rest, rfl, hg, hends, hrest⟩ := Words.keyword h
  obtain ⟨c, w, g', g'', v, tail, hname, hc, hw, hg', hg'', hv, rfl, hvalue⟩ := named_words hrest
  have hne : g ≠ [] := by
    rintro rfl
    exact absurd (isNamePart_of_isNameStart hc) (by simp [hends c rfl])
  have htype : d.type.keyword.text.toList = d.type.text.toList := by cases d.type <;> rfl
  rw [htype, hname]
  refine ⟨⟨v :: tail, ?_, hvalue⟩, by cases d.type <;> rfl⟩
  exact declaration?_of_head (declarationHead?_type d.type _) (isBlank_of_gap hg) hne hg' hg'' hw hv

theorem declaration?_constDecl_words {d : VarDecl} (h : Words [] body (.keyword .const :: d.terminals)) :
    (∃ value, declaration? body = some ⟨true, d.type, d.name, value⟩ ∧
      Words [] value d.value.terminals) ∧ TryTracker.isStructure body = false := by
  obtain ⟨j, inner, rfl, hj, hends, hinner⟩ := Words.keyword h
  obtain ⟨g, rest, rfl, hg, hends', hrest⟩ := Words.keyword hinner
  obtain ⟨c, w, g', g'', v, tail, hname, hc, hw, hg', hg'', hv, rfl, hvalue⟩ := named_words hrest
  have hne : g ≠ [] := by
    rintro rfl
    exact absurd (isNamePart_of_isNameStart hc) (by simp [hends' c rfl])
  have hne' : j ≠ [] := by
    rintro rfl
    obtain ⟨b, cs, hb, hstart, -⟩ := keyword_text_shape d.type.keyword
    rw [hb] at hends
    exact absurd (isNamePart_of_isNameStart hstart) (by simp [hends b rfl])
  have htype : d.type.keyword.text.toList = d.type.text.toList := by cases d.type <;> rfl
  rw [htype, hname]
  refine ⟨⟨v :: tail, ?_, hvalue⟩, rfl⟩
  have hhead := declarationHead?_const d.type (isBlank_of_gap hj) hne'
  exact declaration?_of_head (hhead _) (isBlank_of_gap hg) hne hg' hg'' hw hv

/-- What validation reads of a statement that declares. -/
theorem declaration?_words {s : Stmt} {constant : Bool} {d : VarDecl}
    (hs : s.declared? = some (constant, d)) (h : Words [] body s.terminals) :
    (∃ value, declaration? body = some ⟨constant, d.type, d.name, value⟩ ∧
      Words [] value d.value.terminals) ∧ TryTracker.isStructure body = false := by
  cases s with
  | varDecl =>
    cases hs
    exact declaration?_varDecl_words h
  | constDecl =>
    cases hs
    exact declaration?_constDecl_words h
  | _ => cases hs

/-! ## Assignments -/

/-- A word that is no beginning of a name ends inside of it. -/
theorem isWord_behind {taken : String} {w rest behind : List Char} (hw : ∀ x ∈ w, isWord x = true)
    (hrest : ∀ x ∈ rest.head?, isWord x = false) (htaken : ∀ x ∈ taken.toList, isWord x = true)
    (hne : taken.toList ≠ w) (h : after? taken (w ++ rest) = some behind) :
    ∃ x ∈ behind.head?, isWord x = true := by
  have hsplit : taken.toList ++ behind = w ++ rest := List.append_eq_of_isPrefixOf?_eq_some h
  rcases List.append_eq_append_iff.1 hsplit with ⟨more, rfl, rfl⟩ | ⟨more, htext, rfl⟩
  · cases more with
    | nil => exact absurd (List.append_nil _).symm hne
    | cons x more => exact ⟨x, rfl, hw x (by simp)⟩
  · cases more with
    | nil => exact absurd (by rw [htext, List.append_nil]) hne
    | cons x more =>
      have hx := hrest x rfl
      rw [htaken x (by simp [htext])] at hx
      cases hx

/-- A name is no type, and no word behind which a type or a name could stand. -/
theorem declarationHead?_name {w rest : List Char} (hw : ∀ x ∈ w, isWord x = true)
    (hfree : ∀ k : Keyword, k.text.toList ≠ w) (hrest : ∀ x ∈ rest.head?, isWord x = false)
    {constant : Bool} {type : ValueType} {behind : List Char}
    (h : declarationHead? (w ++ rest) = some (constant, type, behind)) :
    ∃ x ∈ behind.head?, isWord x = true := by
  have hconst : (after? "const" (w ++ rest)).bind skipBlanks? = none := by
    cases hafter : after? "const" (w ++ rest) with
    | none => rfl
    | some inner =>
      obtain ⟨x, hx, hword⟩ := isWord_behind hw hrest (isWord_keyword .const) (hfree .const) hafter
      obtain ⟨inner, rfl⟩ := List.head?_eq_some_iff.1 hx
      rw [Option.bind_some, skipBlanks?, if_neg (by simp [isBlank_of_isWord hword])]
  unfold declarationHead? at h
  rw [hconst] at h
  obtain ⟨⟨found, inner⟩, htype, heq⟩ := Option.map_eq_some_iff.1 h
  cases heq
  obtain ⟨t, -, ht⟩ := List.exists_of_findSome?_eq_some htype
  obtain ⟨inner, hafter, heq⟩ := Option.map_eq_some_iff.1 ht
  cases heq
  refine isWord_behind hw hrest (isWord_text _).1 ?_ hafter
  have htext : type.keyword.text.toList = type.text.toList := by cases type <;> rfl
  rw [← htext]
  exact hfree _

/-- A line that begins with a name is no declaration. -/
theorem lineForm_name {w rest : List Char} (hw : ∀ x ∈ w, isWord x = true)
    (hfree : ∀ k : Keyword, k.text.toList ≠ w) (hrest : ∀ x ∈ rest.head?, isWord x = false) :
    lineForm (w ++ rest) = if isCallStart (w ++ rest) then .call
      else if isAssignmentStart (w ++ rest) then .assignment (assignedValue? (w ++ rest)) else .other := by
  have hnamed : namedHead? (w ++ rest) = none := by
    unfold namedHead?
    cases hhead : declarationHead? (w ++ rest) with
    | none => rfl
    | some head =>
      obtain ⟨constant, type, behind⟩ := head
      obtain ⟨x, hx, hword⟩ := declarationHead?_name hw hfree hrest hhead
      obtain ⟨behind, rfl⟩ := List.head?_eq_some_iff.1 hx
      simp [skipBlanks?, isBlank_of_isWord hword]
  have hnameless : isNameless (w ++ rest) = false := by
    unfold isNameless
    cases hhead : declarationHead? (w ++ rest) with
    | none => rfl
    | some head =>
      obtain ⟨constant, type, behind⟩ := head
      obtain ⟨x, hx, hword⟩ := declarationHead?_name hw hfree hrest hhead
      obtain ⟨behind, rfl⟩ := List.head?_eq_some_iff.1 hx
      have hequals : x ≠ '=' := by
        rintro rfl
        exact absurd hword (by decide)
      simp [afterBlanks?_cons (isBlank_of_isWord hword), hequals]
  have hdeclaration : declaration? (w ++ rest) = none := by
    unfold declaration?
    rw [hnamed]
    rfl
  have hvalueless : valueless? (w ++ rest) = none := by
    unfold valueless?
    rw [hnamed]
    rfl
  unfold lineForm
  rw [hdeclaration, hnameless, hvalueless]
  rfl

/-- A line that begins with a name is no line of structure. -/
theorem isStructure_name {w rest : List Char} (hne : w ≠ []) (hw : ∀ x ∈ w, isWord x = true)
    (hfree : ∀ k : Keyword, k.text.toList ≠ w) (hrest : ∀ x ∈ rest.head?, isWord x = false) :
    TryTracker.isStructure (w ++ rest) = false := by
  have hword : ∀ {taken : String} {d : Char}, (∀ x ∈ taken.toList, isWord x = true) →
      taken.toList ≠ w → isWord d = false →
      ((after? taken (w ++ rest)).bind (afterBlanks? d)).isSome = false := by
    intro taken d htaken hfree hd
    cases hafter : after? taken (w ++ rest) with
    | none => rfl
    | some behind =>
      obtain ⟨x, hx, hword⟩ := isWord_behind hw hrest htaken hfree hafter
      obtain ⟨behind, rfl⟩ := List.head?_eq_some_iff.1 hx
      have hother : x ≠ d := by
        rintro rfl
        rw [hword] at hd
        cases hd
      simp [afterBlanks?_cons (isBlank_of_isWord hword), hother]
  have htry : TryTracker.opensTry (w ++ rest) = false := hword (isWord_keyword .try) (hfree .try) (by decide)
  have hcatch : TryTracker.catches (w ++ rest) = false := hword (isWord_keyword .catch) (hfree .catch) (by decide)
  obtain ⟨c, w, rfl⟩ := List.exists_cons_of_ne_nil hne
  have hfirst := hw c List.mem_cons_self
  have hopen : c ≠ '\x7b' := by
    rintro rfl
    exact absurd hfirst (by decide)
  have hclose : c ≠ '\x7d' := by
    rintro rfl
    exact absurd hfirst (by decide)
  have hcloses : TryTracker.closesThenCatches (c :: w ++ rest) = false := by
    have hnone : after? "\x7d" (c :: w ++ rest) = none := by
      unfold after?
      rw [List.cons_append]
      simp [List.isPrefixOf?, hclose.symm]
    unfold TryTracker.closesThenCatches
    rw [hnone]
    rfl
  unfold TryTracker.isStructure
  rw [htry, hcatch, hcloses]
  simp [hopen, hclose]

/-- An assignment in normal form is read as one, with the value from its first word on, and is no line
of structure. -/
theorem lineForm_assignment_words {target : String} {op : AssignOp} {e : Expr} {span : Span}
    (h : Words [] body (Stmt.assignment target op e span).terminals) (hline : '\n' ∉ body) :
    (∃ value, lineForm body = .assignment (some value) ∧ Words [] value e.terminals) ∧
      TryTracker.isStructure body = false := by
  obtain ⟨t, ts, hts, -⟩ := e.exists_terminals
  rw [Stmt.terminals, hts] at h
  rw [hts]
  obtain ⟨c, w, g, rest, hname, hc, hw, hfree, rfl, hg, -, hrest⟩ := h.identifier
  obtain ⟨g', value, rfl, hg', hvalue⟩ := hrest.symbol
  have hword := isWord_of_name hc hw
  have hends : ∀ x ∈ (g ++ (op.symbol.chars ++ (g' ++ value))).head?, isWord x = false := by
    refine head?_blanks_append (isBlank_of_gap hg) ?_
    cases op <;> simp [AssignOp.symbol, OpSymbol.chars, isWord]
  have hstart : trimStart (g ++ (op.symbol.chars ++ (g' ++ value))) = op.symbol.chars ++ (g' ++ value) := by
    rw [trimStart_blanks_append (isBlank_of_gap hg)]
    cases op <;> rfl
  have hcall : isCallStart (c :: w ++ (g ++ (op.symbol.chars ++ (g' ++ value)))) = false := by
    unfold isCallStart callHead?
    rw [name?_append hc (fun d hd => isWord_of_isNamePart (hw d hd)) hends]
    simp only [Option.bind_eq_bind, Option.bind_some]
    unfold afterBlanks?
    rw [hstart]
    cases op <;> rfl
  have hassigns : isAssignmentStart (c :: w ++ (g ++ (op.symbol.chars ++ (g' ++ value)))) = true := by
    unfold isAssignmentStart
    rw [name?_append hc (fun d hd => isWord_of_isNamePart (hw d hd)) hends]
    dsimp only
    rw [hstart]
    cases op <;> rfl
  have hassigned : assignedValue? (c :: w ++ (g ++ (op.symbol.chars ++ (g' ++ value)))) = some value := by
    have hequals : '=' ∉ c :: w ++ (g ++ operation op) := by
      rw [List.mem_append, List.mem_append]
      rintro (hmem | hmem | hmem)
      · exact absurd (hword _ hmem) (by decide)
      · exact not_mem_gap hg (by decide) hmem
      · cases op <;> simp [operation, AssignOp.symbol, OpSymbol.chars] at hmem
    have hvalued : value? (g' ++ value) = some value := by
      obtain ⟨v, more, rfl⟩ := List.exists_cons_of_ne_nil hvalue.tight.nonempty
      have hlineFeed : '\n' ∉ v :: more := fun hmem =>
        hline (List.mem_append_right _ (List.mem_append_right _ (List.mem_append_right _
          (List.mem_append_right _ hmem))))
      unfold value?
      rw [trimStart_blanks_append (isBlank_of_gap hg'), trimStart_cons (hvalue.tight.first v rfl)]
      exact if_neg (by simpa using hlineFeed)
    have hsplit := splitAssigned?_append hequals hvalued
    have htext : c :: w ++ (g ++ operation op) ++ '=' :: (g' ++ value) =
        c :: w ++ (g ++ (op.symbol.chars ++ (g' ++ value))) := by
      simp [← operation_append op]
    rw [htext] at hsplit
    exact congrArg (Option.map (·.2)) hsplit
  refine ⟨⟨value, ?_, hvalue⟩, isStructure_name (List.cons_ne_nil c w) hword hfree hends⟩
  rw [lineForm_name hword hfree hends, hcall, hassigns, hassigned]
  rfl

/-! ## Print statements -/

/-- A print statement in normal form is read as a call, and is no line of structure. -/
theorem lineForm_print_words {args : List PrintArg} {span : Span}
    (h : Words [] body (Stmt.print args span).terminals) :
    lineForm body = .call ∧ TryTracker.isStructure body = false := by
  obtain ⟨g, rest, rfl, hg, -, hrest⟩ := Words.keyword h
  obtain ⟨t, ts, hts⟩ := List.exists_cons_of_ne_nil
    (List.concat_ne_nil (Token.symbol .rightParen) (PrintArg.listTerminals args))
  rw [hts] at hrest
  obtain ⟨g', inside, rfl, hg', -⟩ := hrest.symbol
  refine ⟨?_, rfl⟩
  have hhead : declarationHead? (Keyword.print.text.toList ++ (g ++ (OpSymbol.leftParen.chars ++
      (g' ++ inside)))) = none := rfl
  rw [lineForm_of_declarationHead?_eq_none hhead, OpSymbol.chars, List.singleton_append,
    isCallStart_paren .print hg]
  rfl

end Check

/-- A line that is something and no line of structure is told of what is wrong with its statement. -/
theorem Walk.complaints_eq [Build] {line : List Char} (hne : line ≠ [])
    (h : TryTracker.isStructure line = false) (symbols : Symbols) (w : Walk) (number : Nat) :
    w.complaints symbols number line =
      statementComplaints symbols { w with tracker := (w.tracker.observe line).1 } number line := by
  unfold complaints
  rw [TryTracker.observe_snd, h, List.isEmpty_eq_false_iff.2 hne]
  rfl

/-- A declaration is told of what is wrong with it. -/
theorem Walk.complaints_declaration [Build] {line : List Char} {d : Declaration}
    (hd : declaration? line = some d) (h : TryTracker.isStructure line = false) (symbols : Symbols)
    (w : Walk) (number : Nat) :
    w.complaints symbols number line = declarationComplaints symbols number (w.declared.contains d.name)
      (w.tracker.observe line).1.protects d := by
  have hne : line ≠ [] := by
    rintro rfl
    cases hd
  rw [complaints_eq hne h]
  unfold statementComplaints lineForm
  rw [hd]

/-! ## Trees over the words -/

/-- Words make a row of tokens, with their places. -/
theorem Lexing.Words.exists_row {tail body : List Char} {ts : List Token} (h : Lexing.Words tail body ts)
    (before : List Char) : ∃ row, row.map (·.value) = ts ∧ Lexing.Row before row body := by
  induction h generalizing before with
  | last seen reading =>
    exact ⟨_, rfl, .last (reading.spells (Lexing.isError_of_isSignificant seen))⟩
  | @more w g rest t ts seen reading gap next ih =>
    obtain ⟨row, hrow, hnext⟩ := ih (before ++ w ++ g)
    rw [List.append_assoc] at reading
    exact ⟨_ :: row, by rw [List.map_cons, hrow],
      .cons (reading.spells (Lexing.isError_of_isSignificant seen)) gap hnext⟩

namespace Expr

theorem exists_spanOver {ts : List SpannedToken} (h : ts ≠ []) : ∃ s : Span, s.Over ts := by
  obtain ⟨t, rest, rfl⟩ := List.exists_cons_of_ne_nil h
  exact ⟨_, t, (t :: rest).getLast h, rfl, List.getLast?_eq_some_getLast h, rfl⟩

theorem exists_leaf_over {make : Span → Expr} {t : Token} (hmake : IsLeaf make t) {ts : List SpannedToken}
    (h : ts.map (·.value) = [t]) (s : Span) : ∃ e' : Expr, e'.Over ts ∧ e'.bare = (make s).bare := by
  obtain ⟨token, rfl, rfl⟩ := List.map_eq_singleton_iff.1 h
  exact ⟨make token.span, .leaf hmake, by rw [hmake.bare, hmake.bare]⟩

/-- The tree with the places of the tokens that it is written with. -/
theorem exists_over (e : Expr) {ts : List SpannedToken} (h : ts.map (·.value) = e.terminals) :
    ∃ e' : Expr, e'.Over ts ∧ e'.bare = e.bare := by
  induction e generalizing ts with
  | unaryMinus e s ih =>
    obtain ⟨sign, rest, rfl, hsign, hrest⟩ := List.map_eq_cons_iff.1 h
    obtain ⟨e', hover, hbare⟩ := ih hrest
    obtain ⟨span, hspan⟩ := exists_spanOver (List.cons_ne_nil sign rest)
    exact ⟨_, .unaryMinus hsign hover hspan, congrArg (Expr.unaryMinus · .dummy) hbare⟩
  | paren e s ih =>
    obtain ⟨left, rest, rfl, hleft, hrest⟩ := List.map_eq_cons_iff.1 h
    obtain ⟨inner, closing, rfl, hinner, hclosing⟩ := List.map_eq_append_iff.1 hrest
    obtain ⟨right, rfl, hright⟩ := List.map_eq_singleton_iff.1 hclosing
    obtain ⟨e', hover, hbare⟩ := ih hinner
    obtain ⟨span, hspan⟩ := exists_spanOver (List.cons_ne_nil left (inner ++ [right]))
    exact ⟨_, .paren hleft hright hover hspan, congrArg (Expr.paren · .dummy) hbare⟩
  | cast e target s ih =>
    obtain ⟨word, rest, rfl, hword, hrest⟩ := List.map_eq_cons_iff.1 h
    obtain ⟨left, rest, rfl, hleft, hrest⟩ := List.map_eq_cons_iff.1 hrest
    obtain ⟨inner, rest, rfl, hinner, hrest⟩ := List.map_eq_append_iff.1 hrest
    obtain ⟨comma, rest, rfl, hcomma, hrest⟩ := List.map_eq_cons_iff.1 hrest
    obtain ⟨type, closing, rfl, htype, hclosing⟩ := List.map_eq_cons_iff.1 hrest
    obtain ⟨right, rfl, hright⟩ := List.map_eq_singleton_iff.1 hclosing
    obtain ⟨e', hover, hbare⟩ := ih hinner
    obtain ⟨span, hspan⟩ := exists_spanOver
      (List.cons_ne_nil word (left :: (inner ++ [comma, type, right])))
    exact ⟨_, .cast hword hleft hcomma htype hright hover hspan,
      congrArg (Expr.cast · target .dummy) hbare⟩
  | unaryCall f e s ih =>
    obtain ⟨word, rest, rfl, hword, hrest⟩ := List.map_eq_cons_iff.1 h
    obtain ⟨left, rest, rfl, hleft, hrest⟩ := List.map_eq_cons_iff.1 hrest
    obtain ⟨inner, closing, rfl, hinner, hclosing⟩ := List.map_eq_append_iff.1 hrest
    obtain ⟨right, rfl, hright⟩ := List.map_eq_singleton_iff.1 hclosing
    obtain ⟨e', hover, hbare⟩ := ih hinner
    obtain ⟨span, hspan⟩ := exists_spanOver (List.cons_ne_nil word (left :: (inner ++ [right])))
    exact ⟨_, .unaryCall hword hleft hright hover hspan, congrArg (Expr.unaryCall f · .dummy) hbare⟩
  | binaryCall f a b s iha ihb =>
    obtain ⟨word, rest, rfl, hword, hrest⟩ := List.map_eq_cons_iff.1 h
    obtain ⟨left, rest, rfl, hleft, hrest⟩ := List.map_eq_cons_iff.1 hrest
    obtain ⟨first, rest, rfl, hfirst, hrest⟩ := List.map_eq_append_iff.1 hrest
    obtain ⟨comma, rest, rfl, hcomma, hrest⟩ := List.map_eq_cons_iff.1 hrest
    obtain ⟨second, closing, rfl, hsecond, hclosing⟩ := List.map_eq_append_iff.1 hrest
    obtain ⟨right, rfl, hright⟩ := List.map_eq_singleton_iff.1 hclosing
    obtain ⟨a', hovera, ha⟩ := iha hfirst
    obtain ⟨b', hoverb, hb⟩ := ihb hsecond
    obtain ⟨span, hspan⟩ := exists_spanOver
      (List.cons_ne_nil word (left :: (first ++ comma :: (second ++ [right]))))
    exact ⟨_, .binaryCall hword hleft hcomma hright hovera hoverb hspan,
      congrArg₂ (Expr.binaryCall f · · .dummy) ha hb⟩
  | binary op opSpan a b s iha ihb =>
    obtain ⟨first, rest, rfl, hfirst, hrest⟩ := List.map_eq_append_iff.1 h
    obtain ⟨sign, second, rfl, hsign, hsecond⟩ := List.map_eq_cons_iff.1 hrest
    obtain ⟨a', hovera, ha⟩ := iha hfirst
    obtain ⟨b', hoverb, hb⟩ := ihb hsecond
    obtain ⟨span, hspan⟩ := exists_spanOver (List.append_ne_nil_of_right_ne_nil first
      (List.cons_ne_nil sign second))
    exact ⟨_, .binary hsign hovera hoverb hspan, congrArg₂ (Expr.binary op .dummy · · .dummy) ha hb⟩
  | constant c s => exact exists_leaf_over (isLeaf_constant c) h s
  | name n s => exact exists_leaf_over (isLeaf_name n) h s
  | integer t s => exact exists_leaf_over (isLeaf_integer t) h s
  | real t s => exact exists_leaf_over (isLeaf_real t) h s
  | string t s => exact exists_leaf_over (isLeaf_string t) h s
  | truth b s =>
    cases b with
    | true => exact exists_leaf_over isLeaf_true h s
    | false => exact exists_leaf_over isLeaf_false h s

end Expr

end EvlCheck
