/-
Where the complaints on a topic come from. Each comes of one form of a line (`arises_of_mem_complaints`), and
most of a declaration with a certain value. So a line of another form, or a declaration with another
value, has no complaint on the topic.
-/
import EvlCheck.Proofs.Check.Tally

namespace EvlCheck

open Text Check

variable [Build]

namespace Check

variable {symbols : Symbols} {line : Nat} {repeated guarded : Bool} {d : Declaration} {c : Complaint}

/-- The complaints about a declaration, each with its check. -/
theorem mem_declarationComplaints_cases
    (h : c ∈ declarationComplaints symbols line repeated guarded d) :
    (c = .repeated d.name ∧ repeated = true) ∨
      (d.type.isNumeric = true ∧ c ∈ numberComplaints symbols d (trim d.value)) ∨
      (c = .division ∧ dividesByZero (trim d.value) = true ∧ guarded = false) ∨
      (∃ name ∈ undeclaredNames symbols d.name (trim d.value), c = .undeclared name) ∨
      c ∈ expressionComplaints ⟨line, some d.type, symbols⟩ (trim d.value) := by
  unfold declarationComplaints at h
  simp only [List.mem_append] at h
  rcases h with (((h | h) | h) | h) | h
  · split at h
    · next hrepeated =>
      rw [Bool.and_eq_true] at hrepeated
      exact .inl ⟨List.mem_singleton.1 h, hrepeated.2⟩
    · cases h
  · split at h
    · next hnumeric => exact .inr (.inl ⟨hnumeric, h⟩)
    · cases h
  · split at h
    · next hdivides =>
      rw [Bool.and_eq_true, Bool.not_eq_true'] at hdivides
      exact .inr (.inr (.inl ⟨List.mem_singleton.1 h, hdivides⟩))
    · cases h
  · obtain ⟨name, hname, rfl⟩ := List.mem_map.1 h
    exact .inr (.inr (.inr (.inl ⟨name, hname, rfl⟩)))
  · exact .inr (.inr (.inr (.inr h)))

/-- The complaints about a number, each with its check. -/
theorem mem_numberComplaints_cases {value : List Char} (h : c ∈ numberComplaints symbols d value) :
    (c = .intLiteral d.name (String.ofList value) ∧ isIntLiteral value = true) ∨
      (d.type = .int ∧ ((c = .floatLiteral d.name ∧ isFloatLiteral value = true) ∨
        (c = .floatVariable d.name ∧ symbols.get? (String.ofList value) = some .float) ∨
        (c = .conversion d.name ∧ isCallStart value = false))) ∨
      ∃ inner target, castParts? value = some (inner, target) ∧ targetComplaint? d target = some c := by
  unfold numberComplaints at h
  simp only [List.mem_append, Option.mem_toList] at h
  rcases h with (h | h) | h
  · unfold literalComplaint? at h
    split at h
    · next hfloat =>
      cases h
      exact .inl ⟨rfl, hfloat.2⟩
    · split at h
      · next hint =>
        cases h
        exact .inr (.inl ⟨hint.1, .inl ⟨rfl, hint.2⟩⟩)
      · cases h
  · unfold variableComplaint? at h
    split at h
    · next hint =>
      cases h
      exact .inr (.inl ⟨hint.1, .inr (.inl ⟨rfl, hint.2⟩)⟩)
    · cases h
  · split at h
    · next inner target hparts => exact .inr (.inr ⟨inner, target, hparts, Option.mem_toList.1 h⟩)
    · rw [Option.mem_toList] at h
      unfold conversionComplaint? at h
      split at h
      · next hint =>
        cases h
        exact .inr (.inl ⟨hint.1, .inr (.inr ⟨rfl, Bool.eq_false_iff.2 hint.2.2⟩)⟩)
      · cases h

end Check

namespace Check

/-- The check of a call that a complaint about it comes of. -/
inductive CallGround (site : CallSite) (call : CallText) : CallComplaint → Prop
  | unknown : CallGround site call (.unknownFunction call.name)
  | arity {s : Signature} {c : CallComplaint} (find : Signature.find? call.name = some s)
      (wrong : arityComplaint? s call.args.length = some c) : CallGround site call c
  | target {target : List Char} {c : CallComplaint} (name : call.name = "cast")
      (second : call.args[1]? = some target)
      (wrong : castComplaint? site.declared (String.ofList target) = some c) : CallGround site call c
  | args {s : Signature} {c : CallComplaint} (find : Signature.find? call.name = some s)
      (no_cast : call.name ≠ "cast") (mem : c ∈ argsComplaints site s call.args) :
      CallGround site call c
  | result {s : Signature} (find : Signature.find? call.name = some s) (returns : s.returns = .float)
      (declared : site.declared = some .int) : CallGround site call (.alwaysFloat call.name)

theorem ground_of_mem_callComplaints {site : CallSite} {call : CallText} {c : CallComplaint}
    (h : c ∈ callComplaints site call) : CallGround site call c := by
  have hcast : ∀ {s : Signature}, Signature.find? call.name = some s →
      (s.returns = .castTarget ↔ call.name = "cast") := by
    intro s hfind
    have hall : ∀ s ∈ Signature.all, s.returns = .castTarget ↔ s.name = "cast" := by decide
    rw [hall s (List.mem_of_find?_eq_some hfind), Signature.find?_name hfind]
  unfold callComplaints at h
  split at h
  · cases h
  · split at h
    · rw [List.mem_singleton.1 h]
      exact .unknown
    · next s hfind =>
      split at h
      · next c' hc =>
        rw [List.mem_singleton.1 h]
        exact .arity hfind hc
      · split at h
        · next hreturns =>
          split at h
          · cases h
          · next target htarget =>
            exact .target ((hcast hfind).1 hreturns) htarget (Option.mem_toList.1 h)
        · next hreturns =>
          rcases List.mem_append.1 h with h | h
          · split at h
            · exact .args hfind (fun hname => hreturns ((hcast hfind).2 hname)) h
            · cases h
          · split at h
            · next hdeclared =>
              rw [List.mem_singleton.1 h, Signature.find?_name hfind]
              exact .result hfind hdeclared.1 hdeclared.2
            · cases h

/-- A complaint about an expression is about one of its calls. -/
theorem exists_ground_of_mem {symbols : Symbols} {number : Nat} {declared : Option ValueType}
    {cs : List Char} {c : Complaint}
    (h : c ∈ expressionComplaints ⟨number, declared, symbols⟩ cs) :
    ∃ call ∈ (calls cs).1, ∃ declared' complaint, c = .call complaint ∧
      (∀ type, declared' = some type → declared = some type) ∧
      CallGround ⟨number, declared', symbols⟩ call complaint := by
  unfold expressionComplaints at h
  split at h
  · cases h
  · next first rest hcalls =>
    obtain ⟨call, hcall, hmem⟩ := List.mem_flatMap.1 h
    obtain ⟨complaint, hc, rfl⟩ := List.mem_map.1 hmem
    refine ⟨call, hcalls ▸ hcall, ?_⟩
    split at hc
    · exact ⟨declared, complaint, rfl, fun _ => id, ground_of_mem_callComplaints hc⟩
    · exact ⟨none, complaint, rfl, (by rintro _ ⟨⟩), ground_of_mem_callComplaints hc⟩

end Check

namespace Walk

variable {symbols : Symbols} {w : Walk} {number : Nat} {line : List Char} {c : Complaint}

/-- The text whose calls are checked, and the type of the variable that receives its value. -/
inductive Expression (line : List Char) : Option ValueType → List Char → Prop
  | value {d : Declaration} (form : lineForm line = .declaration d) :
      Expression line (some d.type) (trim d.value)
  | call (form : lineForm line = .call) : Expression line none line
  | assigned {value : List Char} (form : lineForm line = .assignment (some value)) :
      Expression line none value

/-- The form of a line that a complaint about it comes of. -/
inductive Arises (symbols : Symbols) (w : Walk) (number : Nat) (line : List Char) : Complaint → Prop
  | repeated {d : Declaration} (form : lineForm line = .declaration d) (above : d.name ∈ w.declared) :
      Arises symbols w number line (.repeated d.name)
  | number {d : Declaration} {c : Complaint} (form : lineForm line = .declaration d)
      (numeric : d.type.isNumeric = true) (mem : c ∈ numberComplaints symbols d (trim d.value)) :
      Arises symbols w number line c
  | undeclared {d : Declaration} {name : String} (form : lineForm line = .declaration d)
      (mem : name ∈ undeclaredNames symbols d.name (trim d.value)) :
      Arises symbols w number line (.undeclared name)
  | expression {declared : Option ValueType} {cs : List Char} {c : Complaint}
      (checked : Expression line declared cs)
      (mem : c ∈ expressionComplaints ⟨number, declared, symbols⟩ cs) :
      Arises symbols w number line c
  | division (unprotected : (w.tracker.observe line).1.protects = false) :
      Arises symbols w number line .division
  | nameless (form : lineForm line = .nameless) : Arises symbols w number line .nameless
  | valueless {name : String} (form : lineForm line = .valueless name) :
      Arises symbols w number line (.valueless name)
  | unrecognized : Arises symbols w number line (.unrecognized line)

theorem arises_of_mem_complaints (h : c ∈ w.complaints symbols number line) :
    Arises symbols w number line c := by
  unfold complaints at h
  split at h
  · cases h
  · unfold statementComplaints at h
    dsimp only at h
    split at h
    · next d hd =>
      rcases mem_declarationComplaints_cases h with ⟨rfl, hmem⟩ | ⟨hnumeric, hmem⟩ | ⟨rfl, -, hguard⟩ |
        ⟨name, hname, rfl⟩ | hmem
      · exact .repeated hd (List.contains_iff_mem.1 hmem)
      · exact .number hd hnumeric hmem
      · exact .division hguard
      · exact .undeclared hd hname
      · exact .expression (.value hd) hmem
    · next hform =>
      rw [List.mem_singleton.1 h]
      exact .nameless hform
    · next name hform =>
      rw [List.mem_singleton.1 h]
      exact .valueless hform
    · next hform => exact .expression (.call hform) h
    · cases h
    · next value hform =>
      rcases List.mem_append.1 h with h | h
      · split at h
        · next hdivides =>
          rw [Bool.and_eq_true, Bool.not_eq_true'] at hdivides
          rw [List.mem_singleton.1 h]
          exact .division hdivides.2
        · cases h
      · exact .expression (.assigned hform) h
    · split at h
      · next hdivides =>
        rw [Bool.and_eq_true, Bool.not_eq_true'] at hdivides
        rw [List.mem_singleton.1 h]
        exact .division hdivides.2
      · rw [List.mem_singleton.1 h]
        exact .unrecognized

end Walk

/-! ## Topics of the checks -/

namespace Check

/-- The topics of complaints about a number. -/
def Topic.ofNumber : Topic → Bool
  | .intLiteral | .floatLiteral | .floatVariable | .conversion | .invalidTarget | .castMismatch => true
  | _ => false

/-- The topics of complaints about a call. -/
def Topic.ofCall : Topic → Bool
  | .unknownFunction | .tooFew | .tooMany | .invalidTarget | .castMismatch | .mixedTypes
  | .floatFromArguments | .alwaysFloat => true
  | _ => false

theorem ofNumber_of_mem {symbols : Symbols} {d : Declaration} {value : List Char} {c : Complaint}
    (h : c ∈ numberComplaints symbols d value) : c.topic.ofNumber = true := by
  rcases mem_numberComplaints_cases h with ⟨rfl, -⟩ | ⟨-, ⟨rfl, -⟩ | ⟨rfl, -⟩ | ⟨rfl, -⟩⟩ |
    ⟨inner, target, -, h⟩
  · rfl
  · rfl
  · rfl
  · rfl
  · rcases targetComplaint?_cases h with ⟨rfl, -⟩ | ⟨type, rfl, -⟩ <;> rfl

theorem ofCall_of_mem {site : CallSite} {cs : List Char} {c : Complaint}
    (h : c ∈ expressionComplaints site cs) : c.topic.ofCall = true := by
  obtain ⟨c, rfl⟩ := exists_call_of_mem_expressionComplaints h
  cases c <;> rfl

theorem topic_ne_of_number {symbols : Symbols} {d : Declaration} {value : List Char} {c : Complaint} {t : Topic}
    (h : c ∈ numberComplaints symbols d value) (ht : t.ofNumber = false) : c.topic ≠ t := by
  rintro rfl
  rw [ofNumber_of_mem h] at ht
  cases ht

theorem topic_ne_of_call {site : CallSite} {cs : List Char} {c : Complaint} {t : Topic}
    (h : c ∈ expressionComplaints site cs) (ht : t.ofCall = false) : c.topic ≠ t := by
  rintro rfl
  rw [ofCall_of_mem h] at ht
  cases ht

end Check

/-! ## Complaints by their topics -/

namespace Walk

variable {symbols : Symbols} {w : Walk} {number : Nat} {line : List Char} {c : Complaint}

/-- A topic of numbers and of no call. -/
theorem exists_number (h : c ∈ w.complaints symbols number line) (ht : c.topic.ofNumber = true)
    (hcall : c.topic.ofCall = false) :
    ∃ d, lineForm line = .declaration d ∧ c ∈ numberComplaints symbols d (trim d.value) := by
  cases arises_of_mem_complaints h with
  | number form _ mem => exact ⟨_, form, mem⟩
  | expression _ mem => exact absurd rfl (topic_ne_of_call mem hcall)
  | _ => cases ht

/-- A topic of calls and of no number. -/
theorem exists_expression (h : c ∈ w.complaints symbols number line) (ht : c.topic.ofCall = true)
    (hnumber : c.topic.ofNumber = false) :
    ∃ declared cs, Expression line declared cs ∧ c ∈ expressionComplaints ⟨number, declared, symbols⟩ cs := by
  cases arises_of_mem_complaints h with
  | number _ _ mem => exact absurd rfl (topic_ne_of_number mem hnumber)
  | expression checked mem => exact ⟨_, _, checked, mem⟩
  | _ => cases ht

theorem exists_undeclared (h : c ∈ w.complaints symbols number line) (ht : c.topic = .undeclared) :
    ∃ d, ∃ name ∈ undeclaredNames symbols d.name (trim d.value),
      lineForm line = .declaration d ∧ c = .undeclared name := by
  cases arises_of_mem_complaints h with
  | undeclared form mem => exact ⟨_, _, mem, form, rfl⟩
  | number _ _ mem => exact absurd ht (topic_ne_of_number mem rfl)
  | expression _ mem => exact absurd ht (topic_ne_of_call mem rfl)
  | _ => cases ht

end Walk

end EvlCheck
