/-
What validation can complain about, as data. The checks write their findings at once as messages; here
each finding is a complaint with its parts, and a statement has a list of complaints in the order of its
findings (`findings_statementNotes`). So what can be said of a finding by its message is a case
distinction on the complaint.
-/
import EvlCheck.Proofs.Check.Findings

namespace EvlCheck

namespace Check

open Text

/-! ## Complaints -/

/-- The reason of a finding. -/
inductive Complaint where
  | call (c : CallComplaint)
  /-- An integer literal in a `float` variable. -/
  | intLiteral (name value : String)
  /-- A decimal in an `int` variable. -/
  | floatLiteral (name : String)
  /-- A `float` variable as the value of an `int` one. -/
  | floatVariable (name : String)
  /-- A cast to another type than the declared one as the value. -/
  | castTarget (target : String) (type : ValueType) (name : String)
  /-- A `float` expression in an `int` variable. -/
  | conversion (name : String)
  | repeated (name : String)
  | undeclared (name : String)
  | division
  | nameless
  | valueless (name : String)
  | unrecognized (line : List Char)

namespace Complaint

def message : Complaint → String
  | .call c => c.message
  | .intLiteral name value =>
    s!"Float variable '{name}' must be initialised with a float literal — use {value}.0 instead of {value}"
  | .floatLiteral name => s!"Assigning float literal to 'int' variable '{name}' — implicit conversion"
  | .floatVariable name => s!"Assigning float variable to 'int' variable '{name}' — implicit conversion"
  | .castTarget target type name =>
    s!"Cast type '{target}' does not match declared variable type '{type.text}' for '{name}' — use cast(expr, {type.text})"
  | .conversion name =>
    s!"Expression evaluates to 'float' but variable '{name}' is declared as 'int' — implicit conversion"
  | .repeated name => s!"Variable '{name}' is already declared"
  | .undeclared name => s!"Reference to undeclared identifier '{name}'"
  | .division => "Division by zero detected"
  | .nameless => "Variable declaration is missing a name (e.g. `int x = ...`)"
  | .valueless name => s!"Variable '{name}' declared but never assigned"
  | .unrecognized line => s!"Unrecognized statement: '{String.ofList line}'"

theorem message_call (c : CallComplaint) : (Complaint.call c).message = c.message := rfl

/-- The complaint is a warning, not an error. -/
def isWarning : Complaint → Bool
  | .call (.unknownFunction _) => true
  | .call _ | .intLiteral .. | .castTarget .. | .division | .nameless => false
  | .floatLiteral _ | .floatVariable _ | .conversion _ | .repeated _ | .undeclared _ | .valueless _
  | .unrecognized _ => true

/-- The finding of a complaint on a line. -/
def diagnostic (line : Nat) (c : Complaint) : Diagnostic :=
  ⟨if c.isWarning then .warning else .error, line, none, none, c.message⟩

@[simp] theorem line_diagnostic (line : Nat) (c : Complaint) : (c.diagnostic line).line = line := rfl

@[simp] theorem message_diagnostic (line : Nat) (c : Complaint) :
    (c.diagnostic line).message = c.message := rfl

end Complaint

/-- The findings on a line from complaints. -/
def complained (line : Nat) (cs : List Complaint) : List Diagnostic := cs.map (·.diagnostic line)

theorem complained_append (line : Nat) (cs cs' : List Complaint) :
    complained line (cs ++ cs') = complained line cs ++ complained line cs' := List.map_append

/-! ## Findings among notes -/

theorem findings_events (es : List Event) : Note.findings (es.map .event) = [] := by
  induction es with
  | nil => rfl
  | cons e es ih => exact ih

theorem findings_event_cons (e : Event) (notes : List Note) :
    Note.findings (.event e :: notes) = Note.findings notes := rfl

theorem findings_note (line : Nat) (c : CallComplaint) :
    Note.findings [c.note line] = complained line [.call c] := by
  cases c <;> rfl

theorem findings_note? (line : Nat) (c? : Option CallComplaint) :
    Note.findings (c?.map (·.note line)).toList = complained line (c?.toList.map .call) := by
  cases c? with
  | none => rfl
  | some c => exact findings_note line c

theorem findings_ite {p : Prop} [Decidable p] {line : Nat} {notes : List Note} {cs : List Complaint}
    (h : Note.findings notes = complained line cs) :
    Note.findings (if p then notes else []) = complained line (if p then cs else []) := by
  split
  · exact h
  · rfl

theorem findings_flatMap {α : Type} {line : Nat} {f : α → List Note} {g : α → List Complaint}
    {xs : List α} (h : ∀ x ∈ xs, Note.findings (f x) = complained line (g x)) :
    Note.findings (xs.flatMap f) = complained line (xs.flatMap g) := by
  induction xs with
  | nil => rfl
  | cons x xs ih =>
    rw [List.forall_mem_cons] at h
    rw [List.flatMap_cons, List.flatMap_cons, Note.findings_append, complained_append, h.1, ih h.2]

/-! ## Calls -/

/-- What is wrong with the arguments of a function that wants one type. -/
def argsComplaints [Build] (site : CallSite) (s : Signature) (args : List (List Char)) :
    List CallComplaint :=
  (argsComplaint? s site.declared
    ((args.map String.ofList).zip ((args.map (infer site.symbols)).map (·.1)))).toList

def callComplaints [Build] (site : CallSite) (call : CallText) : List CallComplaint :=
  if (ValueType.ofText? call.name).isSome then []
  else match Signature.find? call.name with
    | none => [.unknownFunction call.name]
    | some s =>
      match arityComplaint? s call.args.length with
      | some c => [c]
      | none =>
        if s.returns = .castTarget then
          match call.args[1]? with
          | none => []
          | some target => (castComplaint? site.declared (String.ofList target)).toList
        else
          (if s.homogeneous then argsComplaints site s call.args else []) ++
            (if s.returns = .float ∧ site.declared = some .int then [.alwaysFloat s.name] else [])

theorem findings_checkCall [Build] (site : CallSite) (call : CallText) :
    Note.findings (checkCall site call) =
      complained site.line ((callComplaints site call).map .call) := by
  unfold checkCall callComplaints
  split
  · rfl
  · cases Signature.find? call.name with
    | none => rfl
    | some s =>
      dsimp only
      cases arityComplaint? s call.args.length with
      | some c => exact findings_note _ c
      | none =>
        dsimp only
        by_cases hcast : s.returns = .castTarget
        · rw [if_pos hcast, if_pos hcast]
          cases call.args[1]? with
          | none => rfl
          | some target => exact findings_note? _ _
        · rw [if_neg hcast, if_neg hcast, Note.findings_append, List.map_append, complained_append]
          congr 1
          · by_cases hsame : s.homogeneous = true
            · rw [if_pos hsame, if_pos hsame]
              unfold checkArgs
              rw [Note.findings_append, findings_events]
              exact findings_note? _ _
            · rw [if_neg hsame, if_neg hsame]
              rfl
          · split <;> rfl

section

variable {s : Signature} {declared : Option ValueType} {c : CallComplaint}

/-- The complaints about a number of arguments, each with its check. -/
theorem arityComplaint?_cases {given : Nat} (h : arityComplaint? s given = some c) :
    (c = .tooFew s.name s.least given ∧ given < s.least) ∨
      ∃ most, c = .tooMany s.name most given ∧ s.most = some most ∧ most < given := by
  unfold arityComplaint? at h
  split at h
  · next hless =>
    cases h
    exact .inl ⟨rfl, hless⟩
  · split at h
    · cases h
    · next most hmost =>
      split at h
      · next hmore =>
        cases h
        exact .inr ⟨most, rfl, hmost, hmore⟩
      · cases h

/-- The complaints about the target of a cast, each with its check. -/
theorem castComplaint?_cases {target : String} (h : castComplaint? declared target = some c) :
    (c = .invalidTarget target ∧ ValueType.ofText? target = none) ∨
      ∃ type d, c = .targetMismatch target d ∧ ValueType.ofText? target = some type ∧
        declared = some d ∧ type.isNumeric = true ∧ type ≠ d := by
  unfold castComplaint? at h
  split at h
  · next hnone =>
    cases h
    exact .inl ⟨rfl, hnone⟩
  · next type htype =>
    split at h
    · cases h
    · next d =>
      split at h
      · next hother =>
        cases h
        exact .inr ⟨type, d, rfl, htype, rfl, hother⟩
      · cases h

/-- The complaints about arguments, each with its check. -/
theorem argsComplaint?_cases {args : List (String × Option ValueType)}
    (h : argsComplaint? s declared args = some c) :
    ∃ first others, args.filterMap (·.2) = first :: others ∧
      ((c = .mixedTypes s.name args ∧ ∃ other ∈ others, other ≠ first) ∨
        (c = .floatFromArguments s.name first ∧ declared = some .int ∧
          ReturnKind.typeFor? first s.returns = some .float)) := by
  unfold argsComplaint? at h
  split at h
  · cases h
  · next first others htyped =>
    refine ⟨first, others, htyped, ?_⟩
    split at h
    · next hmixed =>
      cases h
      exact .inl ⟨rfl, by simpa using hmixed⟩
    · split at h
      · next hint =>
        cases h
        exact .inr ⟨rfl, hint⟩
      · cases h

end

/-- Arguments of mixed types are two or more. -/
theorem two_le_of_mixedTypes [Build] {site : CallSite} {s : Signature} {texts : List (List Char)}
    {name : String} {args : List (String × Option ValueType)}
    (h : .mixedTypes name args ∈ argsComplaints site s texts) :
    1 < texts.length ∧ name = s.name := by
  obtain ⟨first, others, htyped, ⟨⟨⟩, other, hother, -⟩ | ⟨⟨⟩, -⟩⟩ :=
    argsComplaint?_cases (Option.mem_toList.1 h)
  refine ⟨?_, rfl⟩
  have hle := List.length_filterMap_le (·.2)
    ((texts.map String.ofList).zip ((texts.map (infer site.symbols)).map (·.1)))
  rw [htyped] at hle
  have hpos := List.length_pos_of_mem hother
  simp only [List.length_cons, List.length_zip, List.length_map, Nat.min_self] at hle
  omega

/-- What is wrong with the calls of an expression. -/
def expressionComplaints [Build] (site : CallSite) (cs : List Char) : List Complaint :=
  match (calls cs).1 with
  | [] => []
  | first :: rest =>
    (first :: rest).flatMap fun call =>
      (callComplaints (if call.name = first.name then site else { site with declared := none })
        call).map .call

theorem findings_checkCalls [Build] (site : CallSite) (cs : List Char) :
    Note.findings (checkCalls site cs) = complained site.line (expressionComplaints site cs) := by
  unfold checkCalls expressionComplaints
  dsimp only
  rw [Note.findings_append, findings_events, List.nil_append]
  cases (calls cs).1 with
  | nil => rfl
  | cons first rest =>
    dsimp only
    rw [findings_event_cons]
    refine findings_flatMap fun call _ => ?_
    split <;> exact findings_checkCall _ _

/-! ## Declarations -/

def literalComplaint? (d : Declaration) (value : List Char) : Option Complaint :=
  if d.type = .float ∧ isIntLiteral value then some (.intLiteral d.name (String.ofList value))
  else if d.type = .int ∧ isFloatLiteral value then some (.floatLiteral d.name)
  else none

def variableComplaint? (symbols : Symbols) (d : Declaration) (value : List Char) : Option Complaint :=
  if d.type = .int ∧ symbols.get? (String.ofList value) = some .float then
    some (.floatVariable d.name)
  else none

def targetComplaint? (d : Declaration) (target : String) : Option Complaint :=
  match ValueType.ofText? target with
  | none => some (.call (.invalidTarget target))
  | some type => if type = d.type then none else some (.castTarget target d.type d.name)

/-- The complaint about a value of type `float` in an `int` variable. -/
def conversionComplaint? [Build] (symbols : Symbols) (d : Declaration) (value : List Char) :
    Option Complaint :=
  if d.type = .int ∧ (infer symbols value).1 = some .float ∧ ¬ isCallStart value then
    some (.conversion d.name)
  else none

def numberComplaints [Build] (symbols : Symbols) (d : Declaration) (value : List Char) :
    List Complaint :=
  (literalComplaint? d value).toList ++ (variableComplaint? symbols d value).toList ++
    match castParts? value with
    | some (_, target) => (targetComplaint? d target).toList
    | none => (conversionComplaint? symbols d value).toList

/-- The complaints about the target of a cast to a number, each with its check. -/
theorem targetComplaint?_cases {d : Declaration} {target : String} {c : Complaint}
    (h : targetComplaint? d target = some c) :
    (c = .call (.invalidTarget target) ∧ ValueType.ofText? target = none) ∨
      ∃ type, c = .castTarget target d.type d.name ∧ ValueType.ofText? target = some type ∧
        type ≠ d.type := by
  unfold targetComplaint? at h
  split at h
  · next hnone =>
    cases h
    exact .inl ⟨rfl, hnone⟩
  · next type htype =>
    split at h
    · cases h
    · next hother =>
      cases h
      exact .inr ⟨type, rfl, htype, hother⟩

/-- The names in the value of a declaration that nothing declares. -/
def undeclaredNames (symbols : Symbols) (current : String) (value : List Char) : List String :=
  (mentionedNames value).filter fun name => !isKnownName symbols current name

def declarationComplaints [Build] (symbols : Symbols) (line : Nat) (repeated guarded : Bool)
    (d : Declaration) : List Complaint :=
  let value := trim d.value
  (if !d.constant && repeated then [.repeated d.name] else []) ++
    (if d.type.isNumeric then numberComplaints symbols d value else []) ++
    (if dividesByZero value && !guarded then [.division] else []) ++
    (undeclaredNames symbols d.name value).map .undeclared ++
    expressionComplaints ⟨line, some d.type, symbols⟩ value

section

variable (symbols : Symbols) (line : Nat) (d : Declaration) (value : List Char)

theorem findings_literalNote? :
    Note.findings (literalNote? line d value).toList =
      complained line (literalComplaint? d value).toList := by
  unfold literalNote? literalComplaint?
  split
  · rfl
  · split <;> rfl

theorem findings_variableNote? :
    Note.findings (variableNote? symbols line d value).toList =
      complained line (variableComplaint? symbols d value).toList := by
  unfold variableNote? variableComplaint?
  split <;> rfl

theorem findings_targetNote? (target : String) :
    Note.findings (targetNote? line d target).toList =
      complained line (targetComplaint? d target).toList := by
  unfold targetNote? targetComplaint?
  cases ValueType.ofText? target with
  | none => rfl
  | some type =>
    dsimp only
    split <;> rfl

theorem findings_conversionNotes [Build] :
    Note.findings (conversionNotes symbols line d value) =
      complained line (conversionComplaint? symbols d value).toList := by
  unfold conversionNotes conversionComplaint?
  by_cases hint : d.type = .int
  · rw [if_pos hint]
    simp only [hint, true_and]
    rw [Note.findings_append, findings_events, List.nil_append]
    split <;> rfl
  · rw [if_neg hint, if_neg fun h => hint h.1]
    rfl

theorem findings_numberNotes [Build] :
    Note.findings (numberNotes symbols line d value) =
      complained line (numberComplaints symbols d value) := by
  unfold numberNotes numberComplaints
  rw [Note.findings_append, Note.findings_append, complained_append, complained_append,
    findings_literalNote?, findings_variableNote?]
  congr 1
  cases castParts? value with
  | none => exact findings_conversionNotes symbols line d value
  | some parts => exact findings_targetNote? line d parts.2

theorem findings_undeclaredNotes (current : String) :
    Note.findings (undeclaredNotes symbols line current value) =
      complained line ((undeclaredNames symbols current value).map .undeclared) := by
  unfold undeclaredNotes undeclaredNames
  induction (mentionedNames value).filter fun name => !isKnownName symbols current name with
  | nil => rfl
  | cons name names ih => exact congrArg (_ :: ·) ih

theorem findings_declarationNotes [Build] (repeated guarded : Bool) :
    Note.findings (declarationNotes symbols line repeated guarded d) =
      complained line (declarationComplaints symbols line repeated guarded d) := by
  unfold declarationNotes declarationComplaints
  dsimp only
  simp only [Note.findings_append, complained_append, findings_undeclaredNotes, findings_checkCalls]
  rw [findings_ite (findings_numberNotes symbols line d (trim d.value))]
  congr 3
  · congr 1
    split <;> rfl
  · split <;> rfl

end

end Check

/-! ## Statements -/

namespace Walk

open Check

def statementComplaints [Build] (symbols : Symbols) (w : Walk) (number : Nat) (line : List Char) :
    List Complaint :=
  let guarded := w.tracker.protects
  match lineForm line with
  | .declaration d =>
    declarationComplaints symbols number (w.declared.contains d.name) guarded d
  | .nameless => [.nameless]
  | .valueless name => [.valueless name]
  | .call => expressionComplaints ⟨number, none, symbols⟩ line
  | .assignment none => []
  | .assignment (some value) =>
    (if dividesByZero value && !guarded then [.division] else []) ++
      expressionComplaints ⟨number, none, symbols⟩ value
  | .other => if dividesByZero line && !guarded then [.division] else [.unrecognized line]

theorem findings_statementNotes [Build] (symbols : Symbols) (w : Walk) (number : Nat)
    (line : List Char) :
    Note.findings (statementNotes symbols w number line) =
      complained number (statementComplaints symbols w number line) := by
  unfold statementNotes statementComplaints
  dsimp only
  cases lineForm line with
  | declaration d => exact findings_declarationNotes symbols number d _ _
  | nameless => rfl
  | valueless name => rfl
  | call => exact findings_checkCalls _ _
  | assignment value? =>
    cases value? with
    | none => rfl
    | some value =>
      rw [Note.findings_append, complained_append, findings_checkCalls]
      congr 1
      split <;> rfl
  | other =>
    dsimp only
    split <;> rfl

/-- The complaints about a line, given the place before it. -/
def complaints [Build] (symbols : Symbols) (w : Walk) (number : Nat) (line : List Char) :
    List Complaint :=
  if line.isEmpty || (w.tracker.observe line).2 then []
  else statementComplaints symbols { w with tracker := (w.tracker.observe line).1 } number line

theorem findings_step [Build] (symbols : Symbols) (w : Walk) (number : Nat) (line : List Char) :
    Note.findings (w.step symbols number line).2 =
      complained number (w.complaints symbols number line) := by
  unfold step complaints
  dsimp only
  by_cases hempty : line.isEmpty = true
  · rw [if_pos hempty, hempty]
    rfl
  · rw [if_neg hempty]
    have hempty := (Bool.not_eq_true _).mp hempty
    by_cases hstructural : (w.tracker.observe line).2 = true
    · rw [hstructural, Bool.or_true]
      rfl
    · have hstructural := (Bool.not_eq_true _).mp hstructural
      rw [hempty, hstructural]
      exact findings_statementNotes _ _ _ _

end Walk

end EvlCheck
