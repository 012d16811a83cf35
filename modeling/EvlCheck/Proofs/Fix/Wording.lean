/-
The rule of each message of validation. Without the words and the numbers that it names a message is a
fixed text, of which the rules are found by a search (`Complaint.Worded.calls`). Only on three topics does a
message quote a text, which may have the words of other rules in it.
-/
import EvlCheck.Proofs.Check.TypedText
import EvlCheck.Proofs.Fix.Offers

namespace EvlCheck

open Text Check

namespace Check

/-! ## Messages that quote words -/

section

variable {t : Topic} {a b word : List Char}

/-- A text in quotes is read as its letters; a proof by computation would decode its bytes. -/
theorem getLast?_ofList {cs : List Char} {c : Char} (h : cs.getLast? = some c) :
    (String.ofList cs).toList.getLast? = some c := by
  rw [String.toList_ofList, h]

theorem head?_ofList {cs : List Char} {c : Char} (h : cs.head? = some c) :
    (String.ofList cs).toList.head? = some c := by
  rw [String.toList_ofList, h]

theorem head?_ofList_append {cs rest : List Char} {c : Char} (h : (cs ++ rest).head? = some c) :
    ((String.ofList cs).toList ++ rest).head? = some c := by
  rw [String.toList_ofList, h]

/-- Messages with the same phrases that are not about arguments have the same rule. -/
theorem Topic.Calls.of_samePhrases {m m' : List Char} (h : FixSite.SamePhrases m m')
    (h' : t.Calls m' ∧ hasPart "argument(s)" m' = false) : t.Calls m :=
  (FixSite.rules_congr h (.inl h'.2)).trans h'.1

/-- A quoted word leaves the rule. -/
theorem Topic.Calls.quoted (ha : a.getLast? = some '\'') (hb : b.head? = some '\'')
    (hword : ∀ c ∈ word, isWord c = true)
    (h : t.Calls (a ++ b) ∧ hasPart "argument(s)" (a ++ b) = false) : t.Calls (a ++ (word ++ b)) :=
  .of_samePhrases (FixSite.samePhrases_quoted ha hb hword) h

/-- A quoted word leaves the rule on arguments. -/
theorem Topic.Calls.quoted_expects (ha : a.getLast? = some '\'') (hb : b.head? = some '\'')
    (hword : ∀ c ∈ word, isWord c = true) (hexpects : hasPart "expects" b = true)
    (h : t.Calls (a ++ b)) : t.Calls (a ++ (word ++ b)) := by
  have hfar : ∀ cs, hasPart "expects" (cs ++ b) = true := by
    intro cs
    rw [hasPart_iff] at hexpects ⊢
    exact hexpects.trans (List.suffix_append cs b).isInfix
  refine (FixSite.rules_congr (FixSite.samePhrases_quoted ha hb hword) (.inr ?_)).trans h
  rw [hfar, ← List.append_assoc, hfar]

/-- One number or another leaves the rule. -/
theorem Topic.Calls.digits (hword : ∀ c ∈ word, isDecimal c = true) (hsome : word ≠ [])
    (h : t.Calls (a ++ '0' :: b)) : t.Calls (a ++ (word ++ b)) := by
  have hletters : ∀ c ∈ "expects".toList, isDecimal c = false := by
    have hall : "expects".toList.all (!isDecimal ·) = true := by decide
    simpa using List.all_eq_true.1 hall
  exact (FixSite.rules_congr (FixSite.samePhrases_digits hword hsome)
    (.inr (FixSite.hasPart_digits (by decide) hletters hword hsome))).trans h

end

/-- What the message names are words, numbers and functions; it quotes no other text. -/
def Complaint.Worded : Complaint → Prop
  | .call (.unknownFunction name) | .call (.tooFew name ..) | .call (.tooMany name ..)
  | .floatLiteral name | .floatVariable name | .conversion name | .repeated name | .undeclared name
  | .valueless name => ∀ c ∈ name.toList, isWord c = true
  | .call (.floatFromArguments name _) => (Signature.find? name).isSome = true
  | .call (.targetMismatch target _) => ∃ type : ValueType, target = type.text
  | .call (.alwaysFloat name) => name = "pow" ∨ name = "sqrt"
  | .intLiteral name value =>
    (∀ c ∈ name.toList, isWord c = true) ∧ value.toList ≠ [] ∧ ∀ c ∈ value.toList, isDecimal c = true
  | .castTarget target _ name =>
    (∃ type : ValueType, target = type.text) ∧ ∀ c ∈ name.toList, isWord c = true
  | .division | .nameless => True
  | .call (.mixedTypes ..) | .call (.invalidTarget _) | .unrecognized _ => False

/-- A message on the topic quotes a text. -/
def Topic.quotes : Topic → Bool
  | .mixedTypes | .invalidTarget | .unrecognized => true
  | _ => false

/-! ## The rule of a message -/

theorem Signature.isWord_of_find? {name : String} (h : (Signature.find? name).isSome = true) :
    ∀ c ∈ name.toList, isWord c = true := by
  have hall : ∀ s ∈ Signature.all, s.name.toList.all isWord = true := by decide
  obtain ⟨s, hs⟩ := Option.isSome_iff_exists.1 h
  rw [← Signature.find?_name hs]
  exact List.all_eq_true.1 (hall s (List.mem_of_find?_eq_some hs))

/-- A message on the arguments of a function has the rule on arguments. -/
theorem Topic.Calls.arguments {t : Topic} {name : String} {a b : List Char} (least given : Nat)
    (hname : ∀ c ∈ name.toList, isWord c = true) (ha : a.head? = some '\'')
    (hexpects : hasPart "expects" a = true)
    (h : t.Calls ("Function '".toList ++ a ++ '0' :: (b ++ ['0']))) :
    t.Calls ("Function '".toList ++ (name.toList ++ (a ++ ((toString least).toList ++
      (b ++ (toString given).toList))))) := by
  have hb : hasPart "expects" (a ++ ((toString least).toList ++ (b ++ (toString given).toList))) = true := by
    rw [hasPart_iff] at hexpects ⊢
    exact hexpects.trans (List.prefix_append _ _).isInfix
  refine .quoted_expects (getLast?_ofList rfl) ?_ hname hb ?_
  · rw [List.head?_append, ha]
    rfl
  · rw [← List.append_assoc]
    refine .digits (isDecimal_toString least) (toString_ne_nil least) ?_
    have hgiven := Topic.Calls.digits (t := t) (a := "Function '".toList ++ a ++ '0' :: b) (b := [])
      (isDecimal_toString given) (toString_ne_nil given)
    simp only [List.append_assoc, List.cons_append, List.append_nil] at hgiven h ⊢
    exact hgiven h

/-- The messages that quote no text, without the words and numbers that they name. -/
def skeletons : List (Topic × List Char) :=
  [(.unknownFunction, "Unknown function '".toList ++ "' — is this a built-in or typo?".toList),
    (.floatFromArguments, "Function '".toList ++ ("' with '".toList ++
      "' arguments returns 'float', but variable is declared as 'int' — change the variable type to 'float' or cast the result".toList)),
    (.intLiteral, "Float variable '".toList ++ ("' must be initialised with a float literal — use ".toList ++
      '0' :: (".0 instead of ".toList ++ ['0']))),
    (.division, "Division by zero detected".toList),
    (.nameless, "Variable declaration is missing a name (e.g. `int x = ...`)".toList),
    (.repeated, "Variable '".toList ++ "' is already declared".toList),
    (.undeclared, "Reference to undeclared identifier '".toList ++ "'".toList),
    (.valueless, "Variable '".toList ++ "' declared but never assigned".toList),
    (.floatLiteral, "Assigning float literal to 'int' variable '".toList ++ "' — implicit conversion".toList),
    (.floatVariable, "Assigning float variable to 'int' variable '".toList ++ "' — implicit conversion".toList),
    (.conversion, "Expression evaluates to 'float' but variable '".toList ++
      "' is declared as 'int' — implicit conversion".toList)] ++
  (["int", "float", "string", "bool"].map fun type =>
    (.castMismatch, "Cast type '".toList ++ ("' does not match declared variable type '".toList ++ (type.toList ++
      ("' — use cast(expr, ".toList ++ (type.toList ++ ")".toList)))))) ++
  (["int", "float", "string", "bool"].map fun type =>
    (.castMismatch, "Cast type '".toList ++ ("' does not match declared variable type '".toList ++ (type.toList ++
      ("' for '".toList ++ ("' — use cast(expr, ".toList ++ (type.toList ++ ")".toList))))))) ++
  ["pow", "sqrt"].map fun name =>
    (.alwaysFloat, "Function '".toList ++ (name.toList ++
      ("' always returns 'float', but variable is declared as 'int' — change the variable type to 'float' or wrap with cast(".toList ++
        (name.toList ++ "(...), int)".toList))))

/-- Each has the words of its rule and of no other. -/
theorem calls_of_mem_skeletons :
    ∀ p ∈ skeletons, p.1.Calls p.2 ∧ hasPart "argument(s)" p.2 = false := by
  unfold skeletons Topic.Calls FixSite.rules hasPart after?
  -- A text in quotes is opened by this equation; the kernel would decode its bytes.
  repeat rw [String.toList_ofList]
  decide +kernel

theorem calls_skeleton {k : Nat} {t : Topic} {m : List Char} (h : skeletons[k]? = some (t, m)) :
    t.Calls m ∧ hasPart "argument(s)" m = false :=
  calls_of_mem_skeletons _ (List.mem_of_getElem? h)

/-- The messages on the number of arguments, with one number for all. -/
theorem calls_arguments :
    Topic.Calls .tooFew ("Function '".toList ++ "' expects at least ".toList ++
        '0' :: (" argument(s), got ".toList ++ ['0'])) ∧
      Topic.Calls .tooMany ("Function '".toList ++ "' expects at most ".toList ++
        '0' :: (" argument(s), got ".toList ++ ['0'])) ∧
      hasPart "expects" "' expects at least ".toList = true ∧
      hasPart "expects" "' expects at most ".toList = true := by
  unfold Topic.Calls FixSite.rules hasPart after?
  repeat rw [String.toList_ofList]
  decide +kernel

theorem CallComplaint.calls_of_worded {c : CallComplaint} (h : (Complaint.call c).Worded) :
    c.topic.Calls c.message.toList := by
  obtain ⟨hfew, hmany, hleast, hmost⟩ := calls_arguments
  unfold message
  cases c with
  | unknownFunction name =>
    simp only [String.toList_append, List.append_assoc]
    exact .quoted (t := .unknownFunction) (getLast?_ofList rfl) (head?_ofList rfl) h (calls_skeleton (k := 0) rfl)
  | tooFew name least given =>
    simp only [String.toList_append, List.append_assoc]
    exact .arguments (t := .tooFew) least given h (by rfl) hleast hfew
  | tooMany name most given =>
    simp only [String.toList_append, List.append_assoc]
    exact .arguments (t := .tooMany) most given h (by rfl) hmost hmany
  | targetMismatch target declared =>
    simp only [String.toList_append, List.append_assoc]
    obtain ⟨type, rfl⟩ := h
    refine .quoted (t := .castMismatch) (getLast?_ofList rfl) (head?_ofList_append rfl) (isWord_text type).1 ?_
    cases declared with
    | int => exact calls_skeleton (k := 11) rfl
    | float => exact calls_skeleton (k := 12) rfl
    | string => exact calls_skeleton (k := 13) rfl
    | bool => exact calls_skeleton (k := 14) rfl
  | floatFromArguments name type =>
    simp only [String.toList_append, List.append_assoc]
    exact .of_samePhrases (t := .floatFromArguments) (FixSite.samePhrases_quoted_two (getLast?_ofList rfl)
      (head?_ofList rfl) (getLast?_ofList rfl) (head?_ofList rfl) (Signature.isWord_of_find? h)
      (isWord_text type).1) (calls_skeleton (k := 1) rfl)
  | alwaysFloat name =>
    simp only [String.toList_append, List.append_assoc]
    rcases h with rfl | rfl
    · exact (calls_skeleton (k := 19) rfl).1
    · exact (calls_skeleton (k := 20) rfl).1
  | mixedTypes => cases h
  | invalidTarget => cases h

theorem Complaint.Worded.calls {c : Complaint} (h : c.Worded) : c.topic.Calls c.message.toList := by
  cases c with
  | call c => exact CallComplaint.calls_of_worded h
  | intLiteral name value =>
    unfold message
    simp only [String.toList_append, List.append_assoc]
    obtain ⟨hname, hne, hdigits⟩ := h
    refine .of_samePhrases ((FixSite.samePhrases_quoted (getLast?_ofList rfl) (head?_ofList_append rfl) hname).trans ?_)
      (calls_skeleton (k := 2) rfl)
    have hfirst := FixSite.samePhrases_digits (a := "Float variable '".toList ++
      "' must be initialised with a float literal — use ".toList)
      (b := ".0 instead of ".toList ++ value.toList) hdigits hne
    have hsecond := FixSite.samePhrases_digits (a := "Float variable '".toList ++
      "' must be initialised with a float literal — use ".toList ++ '0' :: ".0 instead of ".toList) (b := [])
      hdigits hne
    simp only [List.append_assoc, List.cons_append, List.append_nil] at hfirst hsecond ⊢
    exact hfirst.trans hsecond
  | castTarget target type name =>
    obtain ⟨⟨other, rfl⟩, h⟩ := h
    unfold message
    simp only [String.toList_append, List.append_assoc]
    have hquoted := FixSite.samePhrases_quoted_two (a := "Cast type '".toList)
      (b := "' does not match declared variable type '".toList ++ (type.text.toList ++ "' for '".toList))
      (c := "' — use cast(expr, ".toList ++ (type.text.toList ++ ")".toList)) (by rfl) (by rfl)
      (by rw [← List.append_assoc, List.getLast?_append]; rfl) (by rfl) (isWord_text other).1 h
    simp only [List.append_assoc] at hquoted
    refine .of_samePhrases (t := .castMismatch) hquoted ?_
    cases type with
    | int => exact calls_skeleton (k := 15) rfl
    | float => exact calls_skeleton (k := 16) rfl
    | string => exact calls_skeleton (k := 17) rfl
    | bool => exact calls_skeleton (k := 18) rfl
  | unrecognized => cases h
  | division => exact (calls_skeleton (k := 3) rfl).1
  | nameless => exact (calls_skeleton (k := 4) rfl).1
  | repeated name =>
    unfold message
    simp only [String.toList_append, List.append_assoc]
    exact .quoted (t := .repeated) (getLast?_ofList rfl) (head?_ofList rfl) h (calls_skeleton (k := 5) rfl)
  | undeclared name =>
    unfold message
    simp only [String.toList_append, List.append_assoc]
    exact .quoted (t := .undeclared) (getLast?_ofList rfl) (head?_ofList rfl) h (calls_skeleton (k := 6) rfl)
  | valueless name =>
    unfold message
    simp only [String.toList_append, List.append_assoc]
    exact .quoted (t := .valueless) (getLast?_ofList rfl) (head?_ofList rfl) h (calls_skeleton (k := 7) rfl)
  | floatLiteral name =>
    unfold message
    simp only [String.toList_append, List.append_assoc]
    exact .quoted (t := .floatLiteral) (getLast?_ofList rfl) (head?_ofList rfl) h (calls_skeleton (k := 8) rfl)
  | floatVariable name =>
    unfold message
    simp only [String.toList_append, List.append_assoc]
    exact .quoted (t := .floatVariable) (getLast?_ofList rfl) (head?_ofList rfl) h (calls_skeleton (k := 9) rfl)
  | conversion name =>
    unfold message
    simp only [String.toList_append, List.append_assoc]
    exact .quoted (t := .conversion) (getLast?_ofList rfl) (head?_ofList rfl) h (calls_skeleton (k := 10) rfl)

theorem CallGround.worded [Build] {site : CallSite} {call : CallText} {c : CallComplaint}
    (h : CallGround site call c) (hname : ∀ c ∈ call.name.toList, isWord c = true)
    (hquotes : c.topic.quotes = false) : (Complaint.call c).Worded := by
  cases h with
  | unknown => exact hname
  | arity hfind wrong =>
    rw [← Signature.find?_name hfind] at hname
    rcases arityComplaint?_cases wrong with ⟨rfl, -⟩ | ⟨_, rfl, -⟩ <;> exact hname
  | target _ _ wrong =>
    obtain ⟨rfl, -⟩ | ⟨type, _, rfl, htarget, -⟩ := castComplaint?_cases wrong
    · cases hquotes
    · exact ⟨type, (text_of_ofText? htarget).symm⟩
  | args hfind _ mem =>
    obtain ⟨_, _, -, ⟨rfl, -⟩ | ⟨rfl, -⟩⟩ := argsComplaint?_cases (Option.mem_toList.1 mem)
    · cases hquotes
    · exact Option.isSome_of_eq_some (Signature.find?_name hfind ▸ hfind)
  | result hfind returns =>
    have hall : ∀ s ∈ Signature.all, s.returns = .float → s.name = "pow" ∨ s.name = "sqrt" := by decide
    rw [← Signature.find?_name hfind]
    exact hall _ (List.mem_of_find?_eq_some hfind) returns

end Check

/-- A message names words, numbers and functions, if its topic is none on which a text is quoted. -/
theorem Walk.worded_of_mem_complaints [Build] {symbols : Symbols} {w : Walk} {number : Nat}
    {line : List Char} {c : Complaint} (h : c ∈ w.complaints symbols number line)
    (hquotes : c.topic.quotes = false) :
    c.Worded := by
  cases arises_of_mem_complaints h with
  | repeated form => exact (isWord_of_declaration? (declaration?_of_lineForm form)).2
  | number form _ mem =>
    have hname := (isWord_of_declaration? (declaration?_of_lineForm form)).2
    rcases mem_numberComplaints_cases mem with ⟨rfl, hint⟩ | ⟨-, ⟨rfl, -⟩ | ⟨rfl, -⟩ | ⟨rfl, -⟩⟩ |
      ⟨inner, target, -, htarget⟩
    · refine ⟨hname, ?_⟩
      rw [String.toList_ofList]
      refine ⟨fun hnil => ?_, isDecimal_of_isIntLiteral hint⟩
      rw [hnil] at hint
      cases hint
    · exact hname
    · exact hname
    · exact hname
    · obtain ⟨rfl, -⟩ | ⟨type, rfl, htype, -⟩ := targetComplaint?_cases htarget
      · cases hquotes
      · exact ⟨⟨type, (text_of_ofText? htype).symm⟩, hname⟩
  | undeclared form mem => exact (isWord_of_mem_mentionedNames (List.mem_of_mem_filter mem)).2
  | expression _ mem =>
    obtain ⟨call, hcall, _, _, rfl, -, hground⟩ := exists_ground_of_mem mem
    obtain ⟨_, w, _, _, -, hword, -, hsuffix, -⟩ := exists_of_mem_calls hcall
    exact hground.worded (fun c hc => hword c (hsuffix.subset hc)) hquotes
  | division => trivial
  | nameless => trivial
  | valueless form => exact (isWord_of_valueless? (valueless?_of_lineForm form)).2
  | unrecognized => cases hquotes

end EvlCheck
