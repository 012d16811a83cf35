/-
What a finding on the line of a statement tells of the statement, topic by topic, and the lines that the
fixes leave of it.
-/
import EvlCheck.Proofs.Check.MentionedNames
import EvlCheck.Proofs.Fix.Mended
import EvlCheck.Proofs.Fix.RewrittenLine

namespace EvlCheck

open Text Check Lexing

/-! ## What messages mention -/

namespace Mention

theorem functionName?_mixedTypes {name : String} (args : List (String × Option ValueType))
    (hne : name.toList ≠ []) (hname : ∀ c ∈ name.toList, isWord c = true) :
    functionName? (CallComplaint.mixedTypes name args).message.toList = some name.toList := by
  unfold CallComplaint.message
  simp only [String.toList_append, List.append_assoc]
  refine findFirst?_of_step ?_
  have hafter : ∀ rest, after? "Function " ((toString "Function '").toList ++ rest) = some ('\'' :: rest) := by
    intro rest
    unfold after? toString instToStringString
    dsimp only [id]
    repeat rw [String.toList_ofList]
    rfl
  have hbehind : ∀ rest, (toString "' requires all arguments to be the same type, but received mixed types: ").toList ++
      rest = '\'' :: (" requires all arguments to be the same type, but received mixed types: ".toList ++ rest) := by
    intro rest
    unfold toString instToStringString
    dsimp only [id]
    repeat rw [String.toList_ofList]
    rfl
  have hself : (toString name).toList = name.toList := rfl
  rw [List.findSome?_cons, hafter, Option.bind_some, hbehind, hself, quoted?_append hne hname]
  rfl

/-- Where a text begins nowhere before, what it is read for is found behind. -/
theorem findFirst?_behind {α : Type} {step : List Char → Option α} {word pre cs : List Char} {last : Char}
    (hstep : ∀ cs a, step cs = some a → word ++ [last] <+: cs) (hfree : ¬ word ++ [last] <:+: pre ++ word) :
    findFirst? step (pre ++ (word ++ cs)) = findFirst? step (word ++ cs) := by
  induction pre with
  | nil => rfl
  | cons c pre ih =>
    rw [List.cons_append, findFirst?]
    have hnone : step (c :: (pre ++ (word ++ cs))) = none := by
      refine Option.eq_none_iff_forall_ne_some.2 fun a ha => hfree ?_
      have hwhole : c :: (pre ++ word) <+: c :: (pre ++ (word ++ cs)) := ⟨cs, by simp⟩
      refine (List.prefix_of_prefix_length_le (hstep _ a ha) hwhole ?_).isInfix
      simp
    rw [hnone, ih fun h => hfree (h.trans (List.suffix_cons c _).isInfix)]

theorem digits?_append {ds rest : List Char} (hne : ds ≠ []) (hds : ∀ c ∈ ds, isDecimal c = true)
    (hrest : ∀ c ∈ rest.head?, isDecimal c = false) : digits? (ds ++ rest) = some (ds, rest) := by
  unfold digits?
  rw [takeWhile_append_of_stop hds hrest, dropWhile_append_of_stop hds hrest]
  cases ds with
  | nil => exact absurd rfl hne
  | cons c ds => rfl

theorem numbers?_intLiteral {name value : String} (hname : ∀ c ∈ name.toList, isWord c = true)
    (hne : value.toList ≠ []) (hvalue : ∀ c ∈ value.toList, isDecimal c = true) :
    numbers? (Complaint.intLiteral name value).message.toList =
      some (value.toList ++ '.' :: ['0'], value.toList) := by
  unfold Complaint.message
  simp only [String.toList_append, List.append_assoc]
  have hpre : ∀ rest, (toString "Float variable '").toList ++ ((toString name).toList ++
      ((toString "' must be initialised with a float literal — use ").toList ++ rest)) =
      ("Float variable ".toList ++ '\'' :: (name.toList ++
        '\'' :: " must be initialised with a float literal — ".toList)) ++ ("use".toList ++ ' ' :: rest) := by
    intro rest
    unfold toString instToStringString
    dsimp only [id]
    repeat rw [String.toList_ofList]
    simp
  have hfree : ¬ "use".toList ++ [' '] <:+: ("Float variable ".toList ++ '\'' :: (name.toList ++
      '\'' :: " must be initialised with a float literal — ".toList)) ++ "use".toList := by
    rw [List.append_assoc, List.cons_append, List.append_assoc, List.cons_append,
      infix_append_cons_iff (by decide), infix_append_cons_iff (by decide), not_or, not_or]
    refine ⟨?_, fun h => ?_, ?_⟩
    · repeat rw [String.toList_ofList]
      decide
    · exact absurd (hname ' ' (h.subset (by simp))) (by decide)
    · repeat rw [String.toList_ofList]
      decide
  rw [hpre]
  refine (findFirst?_behind (fun cs a ha => ?_) hfree).trans (findFirst?_of_step ?_)
  · obtain ⟨rest, hrest, -⟩ := Option.bind_eq_some_iff.1 ha
    exact ⟨rest, List.append_eq_of_isPrefixOf?_eq_some hrest⟩
  · have huse : ∀ rest, after? "use " ("use".toList ++ ' ' :: rest) = some rest := by
      intro rest
      unfold after?
      repeat rw [String.toList_ofList]
      rfl
    have hzero : ∀ rest, (toString ".0 instead of ").toList ++ rest =
        '.' :: (['0'] ++ (" instead of ".toList ++ rest)) := by
      intro rest
      unfold toString instToStringString
      dsimp only [id]
      repeat rw [String.toList_ofList]
      rfl
    have hpoint : ∀ rest, after? "." ('.' :: rest) = some rest := fun _ => rfl
    have hinstead : ∀ rest, after? " instead of " (" instead of ".toList ++ rest) = some rest := by
      intro rest
      unfold after?
      repeat rw [String.toList_ofList]
      rfl
    have hself : (toString value).toList = value.toList := rfl
    have hend : digits? value.toList = some (value.toList, []) := by
      have h : digits? (value.toList ++ []) = _ := digits?_append hne hvalue (by simp)
      rwa [List.append_nil] at h
    rw [huse, hzero, hself]
    dsimp only [Option.bind_eq_bind, Option.bind_some]
    rw [digits?_append hne hvalue (by simp; decide)]
    dsimp only [Option.bind_some]
    rw [hpoint]
    dsimp only [Option.bind_some]
    rw [@digits?_append ['0'] _ (by simp) (List.forall_mem_singleton.2 (by decide))
      (by rw [String.toList_ofList]; simp; decide)]
    dsimp only [Option.bind_some]
    rw [hinstead]
    dsimp only [Option.bind_some]
    rw [hend]
    rfl

end Mention

/-! ## What complaints tell -/

namespace Check

/-- Only functions of two arguments have arguments of mixed types. -/
theorem exists_binary_of_mixedTypes [Build] {site : CallSite} {call : CallText} {name : String}
    {args : List (String × Option ValueType)} (h : .mixedTypes name args ∈ callComplaints site call) :
    ∃ f : BinaryFunction, name = f.text := by
  have harity : ∀ s given, arityComplaint? s given ≠ some (.mixedTypes name args) := by
    intro s given h
    rcases arityComplaint?_cases h with ⟨⟨⟩, -⟩ | ⟨_, ⟨⟩, -⟩
  have hcast : ∀ target, castComplaint? site.declared target ≠ some (.mixedTypes name args) := by
    intro target h
    rcases castComplaint?_cases h with ⟨⟨⟩, -⟩ | ⟨_, _, ⟨⟩, -⟩
  unfold callComplaints at h
  split at h
  · cases h
  · split at h
    · simp at h
    · next s hfind =>
      split at h
      · next c hc => exact absurd (List.mem_singleton.1 h ▸ hc) (harity _ _)
      · next hfits =>
        split at h
        · split at h
          · cases h
          · exact absurd (Option.mem_toList.1 h) (hcast _)
        · rcases List.mem_append.1 h with h | h
          · split at h
            · next hsame =>
              obtain ⟨htwo, rfl⟩ := two_le_of_mixedTypes h
              have hall : ∀ s ∈ Signature.all, s.homogeneous = true →
                  s.most = some 1 ∨ s.name = "pow" ∨ s.name = "min" ∨ s.name = "max" := by decide
              rcases hall s (List.mem_of_find?_eq_some hfind) hsame with hmost | hname | hname | hname
              · unfold arityComplaint? at hfits
                rw [hmost] at hfits
                dsimp only at hfits
                rw [if_pos htwo] at hfits
                split at hfits <;> cases hfits
              · exact ⟨.pow, hname⟩
              · exact ⟨.min, hname⟩
              · exact ⟨.max, hname⟩
            · cases h
          · split at h <;> simp at h

/-! ## The form of the line -/

theorem lineForm_of_declaration? {cs : List Char} {d : Declaration} (h : declaration? cs = some d) :
    lineForm cs = .declaration d := by
  unfold lineForm
  rw [h]

/-- The line of a statement without a block has a form with a value or with a call. -/
theorem lineForm_of_run {raw : List Char} {s : Stmt} (hsimple : s.isSimple = true)
    (h : Run none raw s.terminals) :
    (∃ constant d e, s.declared? = some (constant, d) ∧ lineForm (normalizeLine raw) = .declaration e) ∨
      lineForm (normalizeLine raw) = .call ∨ ∃ value, lineForm (normalizeLine raw) = .assignment value := by
  have hother := lineForm_simple hsimple h.lineReads
  have hform : (lineForm (normalizeLine raw) = if isCallStart (normalizeLine raw) then .call
      else if isAssignmentStart (normalizeLine raw) then .assignment (assignedValue? (normalizeLine raw))
      else .other) → lineForm (normalizeLine raw) = .call ∨
        ∃ value, lineForm (normalizeLine raw) = .assignment value := by
    intro hform
    rw [hform] at hother ⊢
    split
    · exact .inl rfl
    · split
      · exact .inr ⟨_, rfl⟩
      · next hcall hassign =>
        rw [if_neg hcall, if_neg hassign] at hother
        exact absurd rfl hother
  cases s with
  | varDecl d =>
    obtain ⟨value, hvalue⟩ := declaration?_varDecl h.lineReads
    exact .inl ⟨false, d, _, rfl, lineForm_of_declaration? hvalue⟩
  | constDecl d span =>
    obtain ⟨value, hvalue⟩ := declaration?_constDecl h.lineReads
    exact .inl ⟨true, d, _, rfl, lineForm_of_declaration? hvalue⟩
  | assignment target op e span =>
    obtain ⟨g, w, rest, rfl, hg, hw, -, -, hrest⟩ := h.uncons
    obtain ⟨g', w', rest, rfl, hg', hw', -, -, -⟩ := hrest.uncons
    cases hw'
    cases hw with
    | @identifier c w start more free =>
      have hc : isNameStart c = true := by simpa [isNameStart] using start
      have hmore : ∀ d ∈ w, isNamePart d = true := fun d hd => by simpa [isNamePart] using more d hd
      refine .inr (hform ?_)
      rw [normalizeLine_assignment op hg hc hmore hg']
      exact lineForm_name (isWord_of_name hc hmore) free (isWord_head?_operation op hg' _)
  | print args span =>
    obtain ⟨g, w, rest, rfl, hg, hw, -, -, hrest⟩ := h.uncons
    cases hw
    obtain ⟨g', w', rest, rfl, hg', hw', -, -, -⟩ := hrest.uncons
    cases hw'
    refine .inr (hform ?_)
    rw [OpSymbol.chars, List.singleton_append,
      normalizeLine_keyword .print hg hg' (by decide) (by decide) (by decide) rest]
    exact lineForm_of_declarationHead?_eq_none rfl
  | _ => cases hsimple

/-! ## The value of a declaration -/

theorem trim_around {g g' : List Char} (hg : ∀ c ∈ g, isBlank c = true) (hg' : ∀ c ∈ g', isBlank c = true)
    (cs : List Char) : trim (g ++ (cs ++ g')) = trim cs := by
  by_cases hne : trim cs = []
  · rw [hne, trim_eq_nil_iff]
    rw [trim_eq_nil_iff] at hne
    exact List.forall_mem_append.2 ⟨hg, List.forall_mem_append.2 ⟨hne, hg'⟩⟩
  · obtain ⟨k, k', hk, hk', hcs⟩ := exists_trim cs
    have htext : g ++ (cs ++ g') = (g ++ k) ++ (trim cs ++ (k' ++ g')) := by
      conv_lhs => rw [hcs]
      simp
    rw [htext, trim_between (List.forall_mem_append.2 ⟨hg, hk⟩) (List.forall_mem_append.2 ⟨hk', hg'⟩)
      ⟨hne, head?_trim cs, getLast?_trim cs⟩]

theorem trim_trimStart (cs : List Char) : trim (trimStart cs) = trim cs := by
  obtain ⟨g, hg, hcs⟩ := exists_trimStart cs
  have h := trim_around hg (List.forall_mem_nil _) (trimStart cs)
  rw [List.append_nil, ← hcs] at h
  exact h.symm

/-- Where there is no comment, the statement of a line is all of it. -/
theorem statementOf_of_run {line : List Char} {ts : List Token} (h : Run none line ts)
    (hcomment : beforeComment line = line) : statementOf line = trim line := by
  unfold statementOf dropSuffix
  rw [hcomment, if_neg h.getLast?_ne]

/-- The value that validation finds is what stands behind the equals sign. -/
theorem trim_value {line front rest : List Char} {s : Stmt} {value : Expr} {d : Declaration}
    (h : LineChange.Declares line s value front rest) (hstatement : statementOf line = trim line)
    (hd : declaration? (statementOf line) = some d) : trim d.value = trim rest := by
  obtain ⟨named, g, rest', hnamed, hg, htext, hvalue, -⟩ := exists_declarationText hd
  obtain ⟨k, k', hk, hk', hline⟩ := exists_trim line
  have hsplit : front ++ '=' :: rest = (k ++ (named ++ g)) ++ '=' :: (rest' ++ k') := by
    rw [← h.text_eq, hline, ← hstatement, htext]
    simp
  have hequals : '=' ∉ k ++ (named ++ g) := by
    simp only [List.mem_append, not_or]
    exact ⟨fun h => absurd (hk _ h) (by decide), hnamed.not_mem (by decide) (by decide),
      fun h => absurd (hg _ h) (by decide)⟩
  obtain ⟨-, rfl⟩ := append_cons_inj_of_not_mem hsplit h.equals hequals
  have htrim := trim_around (List.forall_mem_nil _) hk' rest'
  rw [List.nil_append] at htrim
  rw [hvalue, trim_trimStart, htrim]

theorem castParts?_eq_none {cs : List Char} (h : '(' ∉ cs ∨ isCallStart cs = false) : castParts? cs = none := by
  refine Option.eq_none_iff_forall_ne_some.2 fun parts hparts => ?_
  obtain ⟨g, inside, -, -, -, -, -, hg, rfl, -⟩ := exists_of_castParts? hparts
  rcases h with h | h
  · exact h (by simp)
  · have hends : ∀ d ∈ (g ++ '(' :: (inside ++ [')'])).head?, isWord d = false :=
      head?_blanks_append hg (by simp; decide)
    have hname := name?_append (c := 'c') (w := ['a', 's', 't']) rfl (List.all_iff_forall_prop.1 (by decide)) hends
    have hcast : "cast".toList = 'c' :: ['a', 's', 't'] := rfl
    unfold isCallStart callHead? at h
    rw [hcast, hname] at h
    simp [afterBlanks?_blanks_append hg, afterBlanks?_cons, isBlank] at h

end Check

namespace Spot

variable [Build] {source : List Char} {d : Diagnostic} {line : List Char} (s : Spot source d line)

include s in
/-- A number that does not fit is not written as a cast. -/
theorem castParts?_of_number
    (ht : s.complaint.topic = .floatLiteral ∨ s.complaint.topic = .floatVariable ∨
      s.complaint.topic = .conversion) :
    ∃ e, declaration? (statementOf line) = some e ∧ castParts? (trim e.value) = none := by
  obtain ⟨e, form, mem⟩ := Walk.exists_number s.mem (by rcases ht with ht | ht | ht <;> rw [ht] <;> rfl)
    (by rcases ht with ht | ht | ht <;> rw [ht] <;> rfl)
  refine ⟨e, declaration?_of_lineForm form, castParts?_eq_none ?_⟩
  rcases mem_numberComplaints_cases mem with ⟨hc, -⟩ | ⟨-, ⟨-, h⟩ | ⟨-, h⟩ | ⟨-, h⟩⟩ | ⟨_, _, -, h⟩
  · rw [hc] at ht
    rcases ht with ht | ht | ht <;> cases ht
  · refine .inl fun hmem => ?_
    rcases isDecimal_of_isFloatLiteral h _ hmem with hdigit | hpoint
    · exact absurd hdigit (by decide)
    · exact absurd hpoint (by decide)
  · refine .inl fun hmem => absurd (Script.isWord_of_get?_symbols h '(' ?_) (by decide)
    rwa [String.toList_ofList]
  · exact .inr h
  · rcases targetComplaint?_cases h with ⟨hc, -⟩ | ⟨_, hc, -⟩ <;> rw [hc] at ht <;>
      rcases ht with ht | ht | ht <;> cases ht

include s in
/-- An integer in a `float` variable is all of the value. -/
theorem exists_of_intLiteral (ht : s.complaint.topic = .intLiteral) :
    ∃ e, declaration? (statementOf line) = some e ∧ (∀ c ∈ trim e.value, isDecimal c = true) ∧
      trim e.value ≠ [] ∧
      Mention.numbers? d.message.toList = some (trim e.value ++ '.' :: ['0'], trim e.value) := by
  have hworded := Walk.worded_of_mem_complaints s.mem (by rw [ht]; rfl)
  obtain ⟨e, form, mem⟩ := Walk.exists_number s.mem (by rw [ht]; rfl) (by rw [ht]; rfl)
  rw [← s.message]
  rcases mem_numberComplaints_cases mem with ⟨hc, -⟩ | ⟨-, ⟨hc, -⟩ | ⟨hc, -⟩ | ⟨hc, -⟩⟩ | ⟨_, _, -, h⟩
  · rw [hc] at hworded ⊢
    obtain ⟨hname, hne, hdigits⟩ := hworded
    have hnumbers := Mention.numbers?_intLiteral hname hne hdigits
    rw [String.toList_ofList] at hne hdigits hnumbers
    exact ⟨e, declaration?_of_lineForm form, hdigits, hne, hnumbers⟩
  · rw [hc] at ht
    cases ht
  · rw [hc] at ht
    cases ht
  · rw [hc] at ht
    cases ht
  · rcases targetComplaint?_cases h with ⟨hc, -⟩ | ⟨_, hc, -⟩ <;> rw [hc] at ht <;> cases ht

include s in
/-- Arguments of mixed types are those of a function of two arguments, which the message names. -/
theorem exists_of_mixedTypes (ht : s.complaint.topic = .mixedTypes) :
    ∃ f : BinaryFunction, Mention.functionName? d.message.toList = some f.text.toList := by
  obtain ⟨declared, cs, -, mem⟩ := Walk.exists_expression s.mem (by rw [ht]; rfl) (by rw [ht]; rfl)
  rw [← s.message]
  unfold expressionComplaints at mem
  split at mem
  · cases mem
  · obtain ⟨call, -, mem⟩ := List.mem_flatMap.1 mem
    obtain ⟨complaint, hcomplaint, heq⟩ := List.mem_map.1 mem
    rw [← heq] at ht ⊢
    cases complaint with
    | mixedTypes name args =>
      obtain ⟨f, rfl⟩ := exists_binary_of_mixedTypes hcomplaint
      have hword : f.text.toList ≠ [] ∧ ∀ c ∈ f.text.toList, isWord c = true := by
        cases f <;> exact ⟨by decide, List.all_eq_true.1 (by decide +kernel)⟩
      exact ⟨f, Mention.functionName?_mixedTypes args hword.1 hword.2⟩
    | _ => cases ht

end Spot

/-! ## The lines -/

/-- A text of decimals that is read as tokens is digits. -/
theorem Lexing.Run.isDigit {next : Option Char} {cs : List Char} {ts : List Token} (h : Run next cs ts)
    (hcs : ∀ c ∈ cs, isDecimal c = true) : ∀ c ∈ cs, c.isDigit = true := by
  have hquote : '"' ∉ cs := fun hmem => absurd (hcs _ hmem) (by decide)
  intro c hc
  have hdecimal := hcs c hc
  rcases h.exists_of_mem hc with hgap | ⟨t, ht, w, hw, hcw⟩
  · have hblank := isBlank_of_isWord (isWord_of_isDecimal hdecimal)
    rw [isBlank_of_isGap hgap] at hblank
    cases hblank
  · have hfirst : w.head? ≠ some '"' := by
      intro hhead
      obtain ⟨cs, rfl⟩ := List.head?_eq_some_iff.1 hhead
      exact h.ne_string hquote t ht _ (hw.of_quote rfl).1
    rcases hw.symbol_or_part (h.isSignificant t ht) hfirst with ⟨symbol, rfl⟩ | hpart
    · have hnone : ∀ s : OpSymbol, ∀ c ∈ s.chars, isDecimal c = false := by
        intro s
        cases s <;> exact List.all_iff_forall_prop.1 (by decide)
      rw [hnone symbol c hcw] at hdecimal
      cases hdecimal
    · rcases hpart c hcw with hpart | rfl
      · rwa [isDecimal_of_isNamePart hpart] at hdecimal
      · exact absurd hdecimal (by decide)

theorem Writes.mono {line : List Char} {depth depth' : Nat} (h : Writes line depth) (hle : depth ≤ depth') :
    Writes line depth' := by
  obtain ⟨s, hs, hgood, hnesting⟩ := h
  exact ⟨s, hs, hgood, Nat.le_trans hnesting hle⟩

/-- The action puts a statement in the place of the line. -/
def FixSite.Rewrites (site : FixSite) (a : CodeAction) (depth : Nat) : Prop :=
  ∃ title text preferred, a = site.replaceLine title text preferred ∧ Writes text depth

namespace Spot

variable [Build] {source : List Char} {d : Diagnostic} {line : List Char} (s : Spot source d line)
  {version : Nat}
  {a : CodeAction} {st : Stmt} (hsimple : st.isSimple = true) (hgood : st.Grammatical)
  (h : Run none line st.terminals)

include s in
theorem gap_ending : ∀ c ∈ s.ending, isGap c = true := by
  rcases s.around.ending_eq with hending | hending <;> rw [hending]
  · exact List.forall_mem_nil _
  · exact List.forall_mem_singleton.2 (by decide)

include s hsimple h in
theorem lineForm_cases :
    (∃ constant d e, st.declared? = some (constant, d) ∧ lineForm (statementOf line) = .declaration e) ∨
      lineForm (statementOf line) = .call ∨ ∃ value, lineForm (statementOf line) = .assignment value := by
  rw [← normalizeLine_ended s.around.ending_eq s.bare]
  exact lineForm_of_run hsimple (h.blanks_behind s.gap_ending)

include s hsimple h in
/-- The declaration of a statement has a name and a value. -/
theorem topic_ne : s.complaint.topic ≠ .valueless ∧ s.complaint.topic ≠ .nameless := by
  obtain ⟨c, hc⟩ : ∃ c, c = s.complaint := ⟨_, rfl⟩
  have hmem := hc ▸ s.mem
  have hform := s.lineForm_cases hsimple h
  rw [← hc]
  cases Walk.arises_of_mem_complaints hmem with
  | number _ _ mem => exact ⟨topic_ne_of_number mem rfl, topic_ne_of_number mem rfl⟩
  | expression _ mem => exact ⟨topic_ne_of_call mem rfl, topic_ne_of_call mem rfl⟩
  | nameless form | valueless form =>
    rw [form] at hform
    rcases hform with ⟨-, -, e, -, hform⟩ | hform | ⟨value, hform⟩ <;> cases hform
  | _ => exact ⟨Topic.noConfusion, Topic.noConfusion⟩

include s hsimple hgood h in
/-- What validation takes for a declaration is one. -/
theorem exists_declares {e : Declaration} (he : declaration? (statementOf line) = some e) :
    ∃ value front rest, LineChange.Declares line st value front rest := by
  rcases s.lineForm_cases hsimple h with ⟨constant, d', -, hd, -⟩ | hform | ⟨value, hform⟩
  · obtain ⟨front, rest, hdeclares⟩ := LineChange.exists_declares hd hgood h s.lineAt.unbroken
    exact ⟨_, front, rest, hdeclares⟩
  · rw [lineForm_of_declaration? he] at hform
    cases hform
  · rw [lineForm_of_declaration? he] at hform
    cases hform

include hsimple hgood h

/-- A decimal for an integer. -/
theorem rewrites_useFloatLiteral (ht : s.complaint.topic = .intLiteral) (hcomment : beforeComment line = line)
    (ha : a ∈ FixSite.useFloatLiteral ⟨d, line, version⟩) :
    FixSite.Rewrites ⟨d, line, version⟩ a (st.nesting + 1) := by
  obtain ⟨e, he, hdigits, hne, hnumbers⟩ := s.exists_of_intLiteral ht
  obtain ⟨value, front, rest, hdeclares⟩ := s.exists_declares hsimple hgood h he
  rw [trim_value hdeclares (statementOf_of_run h hcomment) he] at hdigits hne hnumbers
  unfold FixSite.useFloatLiteral at ha
  rw [FixSite.message, hnumbers] at ha
  rw [List.mem_singleton.1 ha]
  refine ⟨_, _, _, rfl, hdeclares.writes_lastNumber ⟨st, h, hgood, Nat.le_refl _⟩
    (fun c hc => isWord_of_isDecimal (hdigits c hc)) hne hne (by simp) (hdeclares.run.of_trim.isDigit hdigits) ?_⟩
  exact List.forall_mem_singleton.2 (by decide)

/-- A cast around the value. -/
theorem rewrites_castToInt
    (ht : s.complaint.topic = .floatLiteral ∨ s.complaint.topic = .floatVariable ∨
      s.complaint.topic = .conversion)
    (hcomment : beforeComment line = line) (ha : a ∈ FixSite.castToInt ⟨d, line, version⟩) :
    FixSite.Rewrites ⟨d, line, version⟩ a (st.nesting + 1) := by
  obtain ⟨e, he, hparts⟩ := s.castParts?_of_number ht
  obtain ⟨value, front, rest, hdeclares⟩ := s.exists_declares hsimple hgood h he
  rw [trim_value hdeclares (statementOf_of_run h hcomment) he] at hparts
  unfold FixSite.castToInt at ha
  rw [hdeclares.assignedValue?_eq] at ha
  dsimp only at ha
  rw [trim_trimStart, hparts] at ha
  rw [List.mem_singleton.1 ha]
  exact ⟨_, _, _, rfl, hdeclares.writes_assign .int⟩

/-- The type of a cast and that of the declaration brought together. -/
theorem rewrites_fixCastMismatch (ht : s.complaint.topic = .castMismatch) (hquote : '"' ∉ line)
    (ha : a ∈ FixSite.fixCastMismatch ⟨d, line, version⟩) :
    FixSite.Rewrites ⟨d, line, version⟩ a (st.nesting + 1) := by
  obtain ⟨e, target, -, htypes⟩ := s.exists_of_castMismatch ht
  unfold FixSite.fixCastMismatch at ha
  rw [FixSite.message, htypes] at ha
  rcases List.mem_append.1 ha with ha | ha
  · obtain ⟨-, rfl⟩ := FixSite.of_mem_changeLine ha
    exact ⟨_, _, _, rfl, (LineChange.writes_retarget hsimple hgood h hquote target e.type).mono (Nat.le_succ _)⟩
  · obtain ⟨-, rfl⟩ := FixSite.of_mem_changeLine ha
    exact ⟨_, _, _, rfl, (LineChange.writes_retype hsimple hgood h target).mono (Nat.le_succ _)⟩

/-- Another type for the variable, or a cast around the call. -/
theorem rewrites_fixReturnMismatch
    (ht : s.complaint.topic = .alwaysFloat ∨ s.complaint.topic = .floatFromArguments)
    (ha : a ∈ FixSite.fixReturnMismatch ⟨d, line, version⟩) :
    FixSite.Rewrites ⟨d, line, version⟩ a (st.nesting + 1) := by
  obtain ⟨e, he⟩ := Walk.exists_declaration_of_result s.mem ht
  obtain ⟨value, front, rest, hdeclares⟩ := s.exists_declares hsimple hgood h he
  unfold FixSite.fixReturnMismatch at ha
  rw [FixSite.message, s.returnTypes?_eq ht] at ha
  dsimp only at ha
  rcases List.mem_append.1 ha with ha | ha
  · obtain ⟨-, rfl⟩ := FixSite.of_mem_changeLine ha
    exact ⟨_, _, _, rfl, (LineChange.writes_retype hsimple hgood h .float).mono (Nat.le_succ _)⟩
  · rw [hdeclares.assignedValue?_eq] at ha
    rw [List.mem_singleton.1 ha, trim_trimStart, String.ofList_toList]
    exact ⟨_, _, _, rfl, hdeclares.writes_assign .int⟩

/-- Casts around the arguments of a call. -/
theorem rewrites_castAllArguments (ht : s.complaint.topic = .mixedTypes) (hquote : '"' ∉ line)
    (hopening : line.count '(' ≤ 1) (hclosing : line.count ')' ≤ 1)
    (ha : a ∈ FixSite.castAllArguments ⟨d, line, version⟩) :
    FixSite.Rewrites ⟨d, line, version⟩ a (st.nesting + 1) := by
  obtain ⟨f, hname⟩ := s.exists_of_mixedTypes ht
  unfold FixSite.castAllArguments at ha
  rw [FixSite.message, hname] at ha
  obtain ⟨target, htarget, hcasts⟩ := List.mem_filterMap.1 ha
  obtain ⟨text, htext, rfl⟩ := Option.map_eq_some_iff.1 hcasts
  obtain ⟨type, rfl⟩ : ∃ type : ValueType, target = type.text := by
    rcases List.mem_pair.1 htarget with rfl | rfl
    · exact ⟨.int, rfl⟩
    · exact ⟨.float, rfl⟩
  exact ⟨_, _, _, rfl, LineChange.writes_castArgs hsimple hgood h hquote hopening hclosing htext⟩

omit [Build] in
/-- A type as the target of a cast. -/
theorem rewrites_replaceCastTarget (hquote : '"' ∉ line) (hopening : line.count '(' ≤ 1)
    (ha : a ∈ FixSite.replaceCastTarget ⟨d, line, version⟩) :
    FixSite.Rewrites ⟨d, line, version⟩ a (st.nesting + 1) := by
  unfold FixSite.replaceCastTarget at ha
  split at ha
  · cases ha
  · next bad hbad =>
    obtain ⟨target, htarget, rfl⟩ := List.mem_map.1 ha
    obtain ⟨type, rfl⟩ : ∃ type : ValueType, target = type.text := by
      rcases List.mem_pair.1 htarget with rfl | rfl
      · exact ⟨.int, rfl⟩
      · exact ⟨.float, rfl⟩
    obtain ⟨hne, hword⟩ := Mention.isWord_of_wordAfter? hbad
    exact ⟨_, _, _, rfl,
      (LineChange.writes_retarget_word hsimple hgood h hquote hopening hword hne type).mono (Nat.le_succ _)⟩

end Spot

end EvlCheck
