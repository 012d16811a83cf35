/-
Which calls of an expression are held against the declared type. The calls are found as a flat list, and
those that have the name of the first one count as outermost. So the declared type is held against each
call of the function at the root (`declared_expressionComplaints`), and against the call at the root alone
if none in its arguments is of the same function (`declared_type_of_root`).
-/
import EvlCheck.Proofs.Check.Complaints
import EvlCheck.Proofs.Check.ExtractedCalls

namespace EvlCheck

open Text

namespace Check

/-! ## Complaints about the declared type -/

/-- The complaint holds the result of a call against the type of the variable. -/
def CallComplaint.isOfDeclared : CallComplaint → Bool
  | .targetMismatch .. | .floatFromArguments .. | .alwaysFloat _ => true
  | .unknownFunction _ | .tooFew .. | .tooMany .. | .invalidTarget _ | .mixedTypes .. => false

def Complaint.isOfDeclared : Complaint → Bool
  | .call c => c.isOfDeclared
  | _ => false

/-- The complaints about a call that are of the declared type. -/
def declaredComplaints [Build] (site : CallSite) (call : CallText) : List Complaint :=
  ((callComplaints site call).filter (·.isOfDeclared)).map .call

theorem filter_isOfDeclared (cs : List CallComplaint) :
    (cs.map Complaint.call).filter (·.isOfDeclared) = (cs.filter (·.isOfDeclared)).map .call :=
  List.filter_map

/-- Number and types of the arguments are no matter of the declared type. -/
theorem isOfDeclared_arityComplaint? {s : Signature} {given : Nat} {c : CallComplaint}
    (h : arityComplaint? s given = some c) : c.isOfDeclared = false := by
  rcases arityComplaint?_cases h with ⟨rfl, -⟩ | ⟨_, rfl, -⟩ <;> rfl

/-- Without a declared type there is nothing to hold a result against. -/
theorem declaredComplaints_eq_nil [Build] {site : CallSite} (h : site.declared = none)
    (call : CallText) :
    declaredComplaints site call = [] := by
  have hnone : ∀ c ∈ callComplaints site call, c.isOfDeclared = false := by
    intro c hc
    unfold callComplaints at hc
    split at hc
    · cases hc
    · split at hc
      · cases List.mem_singleton.1 hc
        rfl
      · split at hc
        · next harity =>
          cases List.mem_singleton.1 hc
          exact isOfDeclared_arityComplaint? harity
        · split at hc
          · split at hc
            · cases hc
            · rw [Option.mem_toList, h] at hc
              obtain ⟨rfl, -⟩ | ⟨_, _, -, -, ⟨⟩, -⟩ := castComplaint?_cases hc
              rfl
          · rw [h, if_neg (c := _ ∧ none = some ValueType.int) (fun hand => by cases hand.2), List.append_nil] at hc
            split at hc
            · unfold argsComplaints at hc
              rw [Option.mem_toList, h] at hc
              obtain ⟨_, _, -, ⟨rfl, -⟩ | ⟨-, ⟨⟩, -⟩⟩ := argsComplaint?_cases hc
              rfl
            · cases hc
  unfold declaredComplaints
  rw [List.filter_eq_nil_iff.2 fun c hc => by rw [hnone c hc]; exact Bool.false_ne_true]
  rfl

/-- The declared type is held against the calls that have the name of the first one. -/
theorem declared_expressionComplaints [Build] (site : CallSite) {cs : List Char} {first : CallText}
    {rest : List CallText} (h : (calls cs).1 = first :: rest) :
    (expressionComplaints site cs).filter (·.isOfDeclared) =
      ((first :: rest).filter (·.name = first.name)).flatMap (declaredComplaints site) := by
  unfold expressionComplaints
  rw [h]
  dsimp only
  generalize first :: rest = found
  induction found with
  | nil => rfl
  | cons call found ih =>
    rw [List.flatMap_cons, List.filter_append, ih, filter_isOfDeclared, List.filter_cons]
    by_cases hname : call.name = first.name
    · rw [if_pos hname, if_pos (decide_eq_true hname), List.flatMap_cons]
      rfl
    · have hnone : declaredComplaints { site with declared := none } call = [] :=
        declaredComplaints_eq_nil rfl call
      unfold declaredComplaints at hnone
      rw [if_neg hname, hnone, if_neg (by simpa using hname)]
      rfl

end Check

open Check

/-! ## The call at the root -/

/-- The call at the root of an expression. -/
def Expr.rootCall? (cs : List Char) : Expr → Option CallText
  | .cast e target _ => some ⟨Keyword.cast.text, [e.span.slice cs, target.keyword.text.toList]⟩
  | .unaryCall f e _ => some ⟨f.text, [e.span.slice cs]⟩
  | .binaryCall f a b _ => some ⟨f.text, [a.span.slice cs, b.span.slice cs]⟩
  | _ => none

/-- The call at the root is the first call. -/
theorem Expr.calls_of_rootCall? {cs : List Char} {e : Expr} {root : CallText}
    (h : e.rootCall? cs = some root) : e.calls cs = root :: (e.calls cs).tail := by
  cases e <;> cases h <;> rfl

/-- Of a cast to a type at most that is told: the type is a number's, and not the declared one. -/
theorem declaredComplaints_cast [Build] (site : CallSite) (value : List Char) (target : ValueType) :
    declaredComplaints site ⟨Keyword.cast.text, [value, target.keyword.text.toList]⟩ =
      (site.declared.filter fun d => target.isNumeric && target != d).toList.map
        fun d => .call (.targetMismatch target.text d) := by
  obtain ⟨line, declared, symbols⟩ := site
  unfold declaredComplaints
  have htext : String.ofList target.keyword.text.toList = target.text := by
    rw [String.ofList_toList]
    cases target <;> rfl
  have hcomplaints : callComplaints ⟨line, declared, symbols⟩
      ⟨Keyword.cast.text, [value, target.keyword.text.toList]⟩ = (castComplaint? declared target.text).toList := by
    rw [← htext]
    rfl
  rw [hcomplaints]
  unfold castComplaint?
  rw [ValueType.ofText?_text]
  cases declared with
  | none => rfl
  | some d => cases target <;> cases d <;> rfl

/-- Errors about the declared type concern the call at the root, if no call in its arguments is of the same
function. Take a text that is lexed without an error token, has no comment in it and no bracket or comma in
its strings, and that the rule for expressions reads up to the end as a call. Then, whatever type is declared
and whatever the symbols are, the complaints about the declared type among those that the check of the calls
makes are those about the root. For a cast at the root this is at most one, and there is one just where its
target is a number's type and not the declared one. -/
theorem declared_type_of_root [Build] (lexical : LexicalPreferences)
    (preferences : ParserPreferences) (reporter : Reporter) {text : String}
    (htext : ∀ t ∈ (Lexing.tokenize lexical text).tokens,
      t.value.isError = false ∧ t.value.isComment = false ∧ t.value.Plain)
    {e : Expr} {q : Parser}
    (hread : Parsing.expression Limit.parseDepth
      (.start (.ofTokens (Lexing.tokenize lexical text).tokens) preferences reporter) = (.ok e, q))
    (hend : q.stream.atEnd = true) {root : CallText} (hroot : e.rootCall? text.toList = some root)
    (hnested : ∀ call ∈ (e.calls text.toList).tail, call.name ≠ root.name) (site : CallSite) :
    Note.findings (checkCalls site text.toList) =
        complained site.line (expressionComplaints site text.toList) ∧
      (expressionComplaints site text.toList).filter (·.isOfDeclared) = declaredComplaints site root ∧
      ∀ value target s, e = .cast value target s → declaredComplaints site root =
        (site.declared.filter fun d => target.isNumeric && target != d).toList.map
          fun d => .call (.targetMismatch target.text d) := by
  have hall := Parsing.allCalls_expression htext hread hend
  rw [Expr.calls_of_rootCall? hroot] at hall
  have hfirst : (calls text.toList).1 =
      root :: (e.calls text.toList).tail.take (Limit.callExtraction - 1) := by
    rw [calls_eq, hall, List.take_cons Limit.callExtraction_pos]
  refine ⟨findings_checkCalls site _, ?_, ?_⟩
  · -- No other call has the name of the root, so the declared type reaches the root only.
    have hnone : ((e.calls text.toList).tail.take (Limit.callExtraction - 1)).filter
        (fun call => decide (call.name = root.name)) = [] :=
      List.filter_eq_nil_iff.2 fun call hcall => by
        simpa using hnested call (List.mem_of_mem_take hcall)
    rw [declared_expressionComplaints site hfirst,
      List.filter_cons_of_pos (p := fun call : CallText => decide (call.name = root.name)) (decide_eq_true rfl),
      hnone]
    exact List.append_nil _
  · rintro value target s rfl
    cases hroot
    exact declaredComplaints_cast site _ target

/-- The argument of a cast is not held against the declared type. -/
theorem declared_type_of_root_cast :
    let text := "cast(abs(1.5), float)"
    let site : CallSite := ⟨1, some .int, {}⟩
    (exprRead? text).bind (·.rootCall? text.toList) = some ⟨"cast", ["abs(1.5)".toList, "float".toList]⟩ ∧
      (expressionComplaints site text.toList).filter (·.isOfDeclared) =
        [.call (.targetMismatch "float" .int)] := by
  intro text site
  have hroot : (exprRead? text).bind (·.rootCall? text.toList) =
      some ⟨"cast", ["abs(1.5)".toList, "float".toList]⟩ := by decide +kernel
  have hnested : (exprRead? text).map (fun e => ((e.calls text.toList).tail.map (·.name))) = some ["abs"] := by
    decide +kernel
  obtain ⟨e, he, hroot'⟩ := Option.bind_eq_some_iff.1 hroot
  obtain ⟨q, hread, hend⟩ := exists_of_exprRead? he
  rw [he] at hnested
  have hnames : (e.calls text.toList).tail.map (·.name) = ["abs"] := Option.some.inj hnested
  have hname : ∀ call ∈ (e.calls text.toList).tail, call.name ≠ "cast" := by
    intro call hcall heq
    have hmem : call.name ∈ (e.calls text.toList).tail.map (·.name) := List.mem_map_of_mem hcall
    rw [hnames, heq] at hmem
    exact absurd hmem (by decide)
  refine ⟨hroot, ?_⟩
  rw [(declared_type_of_root {} {} {} (plain_of_isCalm (by decide +kernel)) hread hend hroot' hname site).2.1]
  exact declaredComplaints_cast site _ .float

/-- A cast in the argument of a cast is held against the declared type, although the one at the root has
that type. -/
theorem declared_type_of_nested_cast :
    let text := "cast(cast(1, float), int)"
    let root : CallText := ⟨"cast", ["cast(1, float)".toList, "int".toList]⟩
    let site : CallSite := ⟨1, some .int, {}⟩
    (exprRead? text).bind (·.rootCall? text.toList) = some root ∧ declaredComplaints site root = [] ∧
      (expressionComplaints site text.toList).filter (·.isOfDeclared) =
        [.call (.targetMismatch "float" .int)] := by
  intro text root site
  have hcalls : (calls text.toList).1 = [root, ⟨"cast", ["1".toList, "float".toList]⟩] := by decide +kernel
  have houter : declaredComplaints site root = [] := declaredComplaints_cast site _ .int
  have hinner : declaredComplaints site ⟨"cast", ["1".toList, "float".toList]⟩ =
      [.call (.targetMismatch "float" .int)] := declaredComplaints_cast site _ .float
  refine ⟨by decide +kernel, houter, ?_⟩
  rw [declared_expressionComplaints site hcalls]
  have hboth : ([root, ⟨"cast", ["1".toList, "float".toList]⟩] : List CallText).filter
      (·.name = root.name) = [root, ⟨"cast", ["1".toList, "float".toList]⟩] := by decide
  rw [hboth, List.flatMap_cons, List.flatMap_cons, List.flatMap_nil, houter, hinner]
  rfl

end EvlCheck
