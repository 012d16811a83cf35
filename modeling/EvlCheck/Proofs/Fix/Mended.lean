/-
Preferred fixes work. The message of a finding tells its topic, and the topic the rule that offers the fix,
so for each topic the text that the fix leaves is known, and with it how many findings have the message.
The fixes search the raw line for what validation told of the line without its comment, one line at a time
and without a look at nesting. Where this finds another place than the one that is meant, the finding stays.
-/
import EvlCheck.Proofs.Fix.AddedLines
import EvlCheck.Proofs.Fix.ReplacedLine
import EvlCheck.Proofs.Fix.Wording

namespace EvlCheck

open Text Check

namespace Check

/-! ## The topic of a message -/

/-- The topic of a message by its words. -/
def Topic.of? (m : List Char) : Option Topic :=
  Topic.all.find? fun t => t.opening = beforeQuote m ∧ t.closing <+: fromSecondQuote m

theorem Complaint.of?_message {c : Complaint} (h : c.Named) :
    Topic.of? c.message.toList = some c.topic := by
  have hself : c.topic.opening = beforeQuote c.message.toList ∧
      c.topic.closing <+: fromSecondQuote c.message.toList :=
    ⟨c.beforeQuote_message.symm, c.closing_isPrefix h⟩
  obtain ⟨t, ht⟩ : ∃ t, Topic.of? c.message.toList = some t :=
    Option.isSome_iff_exists.1 (List.find?_isSome.2 ⟨c.topic, Topic.mem_all _, decide_eq_true hself⟩)
  have hfind := ht
  rw [Topic.of?] at hfind
  have hfound := List.find?_some hfind
  rw [decide_eq_true_eq] at hfound
  rw [ht, Topic.eq_of_opening (hfound.1.trans hself.1.symm)
    (List.prefix_or_prefix_of_prefix hfound.2 hself.2)]

end Check

/-! ## What messages mention -/

namespace Mention

theorem quoted?_append {w rest : List Char} (hne : w ≠ []) (hw : ∀ c ∈ w, isWord c = true) :
    quoted? ('\'' :: (w ++ '\'' :: rest)) = some (w, rest) := by
  have hword : word? (w ++ '\'' :: rest) = some (w, '\'' :: rest) :=
    word?_append hw (by simpa using (by decide : isWord '\'' = false)) hne
  have hafter : after? "'" ('\'' :: (w ++ '\'' :: rest)) = some (w ++ '\'' :: rest) := rfl
  rw [quoted?, hafter, Option.bind_eq_bind, Option.bind_some, hword]
  rfl

/-- Where a step finds nothing in front of a text, what it finds first is found in the text. -/
theorem findFirst?_append {α : Type} {step : List Char → Option α} {pre cs : List Char}
    (h : ∀ c ∈ pre, ∀ rest, step (c :: rest) = none) :
    findFirst? step (pre ++ cs) = findFirst? step cs := by
  induction pre with
  | nil => rfl
  | cons c pre ih =>
    rw [List.forall_mem_cons] at h
    rw [List.cons_append, findFirst?, h.1, ih h.2]

/-- What a step finds at once is found first. -/
theorem findFirst?_of_step {α : Type} {step : List Char → Option α} {cs : List Char} {a : α}
    (h : step cs = some a) : findFirst? step cs = some a := by
  cases cs with
  | nil => exact h
  | cons c cs => rw [findFirst?, h]

theorem identifierName?_undeclared {name : String} (hne : name.toList ≠ [])
    (hname : ∀ c ∈ name.toList, isWord c = true) :
    identifierName? (Complaint.undeclared name).message.toList = some name.toList := by
  unfold Complaint.message
  simp only [String.toList_append, List.append_assoc]
  have hpre : (toString "Reference to undeclared identifier '").toList =
    "Reference to undeclared ".toList ++ "identifier '".toList := by
    simp only [toString]
    repeat rw [String.toList_ofList]
    rfl
  have hother : ∀ c ∈ "Reference to undeclared ".toList, c ≠ 'i' := by
    rintro c hc rfl
    rw [String.toList_ofList] at hc
    exact absurd hc (by decide)
  rw [hpre, List.append_assoc, identifierName?, wordAfter?, findFirst?_append]
  · refine findFirst?_of_step ?_
    have hafter : after? "identifier " ("identifier '".toList ++ (name.toList ++ "'".toList)) =
      some ('\'' :: (name.toList ++ ['\''])) := by
      unfold after?
      repeat rw [String.toList_ofList]
      rfl
    rw [List.findSome?_cons, toString, instToStringString]
    dsimp only [id]
    rw [hafter, Option.bind_some, quoted?_append hne hname]
    rfl
  · intro c hc rest
    have hnone : after? "identifier " (c :: rest) = none := by
      refine Option.eq_none_iff_forall_ne_some.2 fun behind hbehind => hother c hc ?_
      exact (List.cons.inj (List.append_eq_of_isPrefixOf?_eq_some hbehind)).1.symm
    rw [List.findSome?_cons, hnone]
    rfl

theorem castTypes?_append {target declared rest : List Char} (hne : target ≠ [])
    (htarget : ∀ c ∈ target, isWord c = true) (hne' : declared ≠ [])
    (hdeclared : ∀ c ∈ declared, isWord c = true) :
    castTypes? ("Cast type '".toList ++ (target ++ ("' does not match declared variable type '".toList ++
      (declared ++ '\'' :: rest)))) = some (target, declared) := by
  refine findFirst?_of_step ?_
  have hfirst : after? "Cast type " ("Cast type '".toList ++ (target ++
      ("' does not match declared variable type '".toList ++ (declared ++ '\'' :: rest)))) =
    some ('\'' :: (target ++ '\'' :: (" does not match declared variable type '".toList ++
      (declared ++ '\'' :: rest)))) := by
    unfold after?
    repeat rw [String.toList_ofList]
    rfl
  have hsecond : after? " does not match declared variable type "
      (" does not match declared variable type '".toList ++ (declared ++ '\'' :: rest)) =
    some ('\'' :: (declared ++ '\'' :: rest)) := by
    unfold after?
    repeat rw [String.toList_ofList]
    rfl
  rw [hfirst, Option.bind_eq_bind, Option.bind_some, quoted?_append hne htarget]
  dsimp only [Option.bind_eq_bind, Option.bind_some]
  rw [hsecond, Option.bind_some, quoted?_append hne' hdeclared]
  rfl

theorem castTypes?_targetMismatch (type declared : ValueType) :
    castTypes? (CallComplaint.targetMismatch type.text declared).message.toList =
      some (type.text.toList, declared.text.toList) := by
  unfold CallComplaint.message
  simp only [String.toList_append, List.append_assoc]
  exact castTypes?_append (isWord_text type).2 (isWord_text type).1 (isWord_text _).2 (isWord_text _).1

/-- The types in a message on the result of a function. -/
theorem returnTypes?_alwaysFloat {name : String} (h : name = "pow" ∨ name = "sqrt") :
    returnTypes? (CallComplaint.alwaysFloat name).message.toList = some ("float".toList, "int".toList) := by
  unfold CallComplaint.message
  simp only [String.toList_append, List.append_assoc]
  rcases h with rfl | rfl
  all_goals
    dsimp only [toString]
    repeat rw [String.toList_ofList]
    decide

theorem returnTypes?_floatFromArguments {name : String} {type : ValueType}
    (h : (Signature.find? name).isSome = true) :
    returnTypes? (CallComplaint.floatFromArguments name type).message.toList =
      some ("float".toList, "int".toList) := by
  unfold CallComplaint.message
  simp only [String.toList_append, List.append_assoc]
  have hmem : name ∈ Signature.all.map (·.name) := by
    obtain ⟨s, hs⟩ := Option.isSome_iff_exists.1 h
    exact List.mem_map.2 ⟨s, List.mem_of_find?_eq_some hs, Signature.find?_name hs⟩
  clear h
  revert name
  cases type
  all_goals
    dsimp only [toString]
    repeat rw [String.toList_ofList]
    decide

end Mention

namespace Check

/-! ## When a fix works -/

/-- The new text is another one and keeps within the limit on the length of a line. -/
def Changes [Build] (line new : List Char) : Prop := new ≠ line ∧ new.length < Limit.lineChars

/-- When the preferred fix on a topic does away with a finding. The fix puts `new` in the place of the line,
or in front of the line if it declares a name; `others` are the other lines of the text. -/
def Topic.Mends [Build] (line new : List Char) (others : List (List Char)) : Topic → Prop
  | .valueless | .intLiteral => Changes line new ∧ beforeComment line = line
  | .floatLiteral | .floatVariable | .conversion | .alwaysFloat | .nameless => Changes line new
  | .invalidTarget | .castMismatch | .mixedTypes =>
    Changes line new ∧ line.count '(' ≤ 1 ∧ line.count ')' ≤ 1
  | .floatFromArguments =>
    Changes line new ∧ ∀ d, declaration? (statementOf line) = some d → ∀ l ∈ others, ¬ d.name.toList <:+: l
  | .undeclared => new.length ≤ Limit.lineChars
  | .division => '\x7b' ∉ line ∧ '\x7d' ∉ line
  | .repeated | .tooFew | .tooMany | .unknownFunction | .unrecognized => True

end Check

namespace Mention

theorem isWord_of_wordAfter? {leads : List String} {message name : List Char}
    (h : wordAfter? leads message = some name) : name ≠ [] ∧ ∀ c ∈ name, isWord c = true := by
  obtain ⟨_, part, -, hpart⟩ := exists_of_findFirst? h
  obtain ⟨lead, -, hlead⟩ := List.exists_of_findSome?_eq_some hpart
  obtain ⟨⟨w, rest⟩, hquoted, rfl⟩ := Option.map_eq_some_iff.1 hlead
  obtain ⟨cs, -, hquoted⟩ := Option.bind_eq_some_iff.1 hquoted
  simp only [quoted?, Option.bind_eq_bind, Option.bind_eq_some_iff, Option.pure_def, Option.some.injEq,
    Prod.mk.injEq, Prod.exists] at hquoted
  obtain ⟨_, -, _, _, hword, _, -, rfl, -⟩ := hquoted
  exact isWord_of_word? hword

end Mention

namespace FixSite

variable {s : FixSite} {title : String} {text : List Char} {preferred : Bool} {a : CodeAction} {e : Edit}

theorem text_of_mem_edits (h : e ∈ (s.replaceLine title text preferred).edits) : e.text.toList = text := by
  rw [List.mem_singleton.1 h]
  exact String.toList_ofList

/-- A hint at the documentation has no edit. -/
theorem edits_showSignature (h : a ∈ s.showSignature) : a.edits = [] := by
  unfold showSignature at h
  split at h
  · cases h
  · rw [List.mem_singleton.1 h]
    rfl

theorem of_mem_changeLine (h : a ∈ s.changeLine title text preferred) :
    text ≠ s.line ∧ a = s.replaceLine title text preferred := by
  unfold changeLine at h
  split at h
  · cases h
  · next hchanged => exact ⟨hchanged, List.mem_singleton.1 h⟩

end FixSite

/-- The edits can be made, and leave fewer findings with the message. -/
def Lessens [Build] (source : List Char) (m : String) (edits : List Edit) : Prop :=
  ∃ out, applyEdits source edits = .ok out ∧
    (Script.ofSource out).tally m < (Script.ofSource source).tally m

namespace Spot

variable [Build] {source : List Char} {d : Diagnostic} {line : List Char} (s : Spot source d line)
  {version : Nat}

/-- A new text for the line. -/
theorem lessens_replaced {title : String} {new : List Char} {preferred : Bool}
    (h : (Script.ofSource (s.before ++ new ++ s.terminator ++ s.after)).tally d.message <
      (Script.ofSource source).tally d.message) :
    Lessens source d.message (FixSite.replaceLine ⟨d, line, version⟩ title new preferred).edits := by
  refine ⟨_, applyEdits_wholeLine s.lineAt _ _, ?_⟩
  rw [String.toList_ofList]
  exact h

/-- The target of a cast is held against the declared type. -/
theorem exists_of_castMismatch (ht : s.complaint.topic = .castMismatch) :
    ∃ (e : Declaration) (target : ValueType), declaration? (statementOf line) = some e ∧
      Mention.castTypes? d.message.toList = some (target.text.toList, e.type.text.toList) := by
  have hworded := Walk.worded_of_mem_complaints s.mem (by rw [ht]; rfl)
  obtain ⟨c, hc⟩ : ∃ c, c = s.complaint := ⟨_, rfl⟩
  have hmem := s.mem
  rw [← s.message]
  rw [← hc] at ht hworded hmem ⊢
  cases Walk.arises_of_mem_complaints hmem with
  | number form _ mem =>
    rcases mem_numberComplaints_cases mem with ⟨rfl, -⟩ | ⟨-, ⟨rfl, -⟩ | ⟨rfl, -⟩ | ⟨rfl, -⟩⟩ |
      ⟨inner, target, -, htarget⟩
    · cases ht
    · cases ht
    · cases ht
    · cases ht
    · obtain ⟨rfl, -⟩ | ⟨_, rfl, -⟩ := targetComplaint?_cases htarget
      · cases ht
      · obtain ⟨⟨type, rfl⟩, -⟩ := hworded
        refine ⟨_, type, declaration?_of_lineForm form, ?_⟩
        unfold Complaint.message
        simp only [String.toList_append, List.append_assoc]
        exact Mention.castTypes?_append (isWord_text type).2 (isWord_text type).1 (isWord_text _).2
          (isWord_text _).1
  | expression checked mem =>
    obtain ⟨call, -, declared', _, rfl, hdeclared, hground⟩ := exists_ground_of_mem mem
    cases hground with
    | target _ _ wrong =>
      obtain ⟨rfl, -⟩ | ⟨type, declared, rfl, -, hdeclared', -⟩ := castComplaint?_cases wrong
      · cases ht
      · obtain ⟨other, htarget⟩ := hworded
        have hvalue := hdeclared _ hdeclared'
        subst hvalue
        cases checked with
        | value form =>
          refine ⟨_, other, declaration?_of_lineForm form, ?_⟩
          rw [Complaint.message_call, htarget]
          exact Mention.castTypes?_targetMismatch other _
    | unknown => cases ht
    | arity _ wrong =>
      rcases arityComplaint?_cases wrong with ⟨rfl, -⟩ | ⟨_, rfl, -⟩ <;> cases ht
    | args _ _ mem =>
      obtain ⟨_, _, -, ⟨rfl, -⟩ | ⟨rfl, -⟩⟩ := argsComplaint?_cases (Option.mem_toList.1 mem) <;> cases ht
    | result => cases ht
  | _ => cases ht

/-- The result of a function is a `float` where an `int` is declared. -/
theorem returnTypes?_eq (ht : s.complaint.topic = .alwaysFloat ∨ s.complaint.topic = .floatFromArguments) :
    Mention.returnTypes? d.message.toList = some (ValueType.float.text.toList, ValueType.int.text.toList) := by
  have hworded := Walk.worded_of_mem_complaints s.mem (by rcases ht with ht | ht <;> rw [ht] <;> rfl)
  rw [← s.message]
  obtain ⟨c, hc⟩ : ∃ c, c = s.complaint := ⟨_, rfl⟩
  rw [← hc] at ht hworded ⊢
  cases c with
  | call c =>
    cases c with
    | alwaysFloat name => exact Mention.returnTypes?_alwaysFloat hworded
    | floatFromArguments name type => exact Mention.returnTypes?_floatFromArguments hworded
    | _ => rcases ht with ht | ht <;> cases ht
  | _ => rcases ht with ht | ht <;> cases ht

theorem exists_undeclared (ht : s.complaint.topic = .undeclared) :
    ∃ name, s.complaint = .undeclared name ∧
      Mention.identifierName? d.message.toList = some name.toList := by
  obtain ⟨e, name, mem, -, heq⟩ := Walk.exists_undeclared s.mem ht
  obtain ⟨hne, hword⟩ := isWord_of_mem_mentionedNames (List.mem_of_mem_filter mem)
  refine ⟨name, heq, ?_⟩
  rw [← s.message, heq]
  exact Mention.identifierName?_undeclared hne hword

/-- A cast around the assigned value. -/
theorem lessens_cast
    (ht : s.complaint.topic = .floatLiteral ∨ s.complaint.topic = .floatVariable ∨
      s.complaint.topic = .conversion)
    {a : CodeAction} (ha : a ∈ FixSite.castToInt ⟨d, line, version⟩) {e : Edit} (he : e ∈ a.edits)
    (hchanges : Changes line e.text.toList) : Lessens source d.message a.edits := by
  unfold FixSite.castToInt at ha
  split at ha
  · cases ha
  · next value hvalue =>
    have hfree : '\n' ∉ trim value := fun h => s.lineAt.unbroken
      ((suffix_of_assignedValue? hvalue).subset ((trim_isInfix value).subset h))
    obtain ⟨title, inner, hinner, rfl⟩ : ∃ title inner, '\n' ∉ inner ∧
        a = FixSite.replaceLine ⟨d, line, version⟩ title
          (LineChange.assign (LineChange.castText inner "int") line) true := by
      rw [List.mem_singleton.1 ha]
      cases hparts : castParts? (trim value) with
      | none => exact ⟨_, _, hfree, rfl⟩
      | some parts => exact ⟨_, _, not_mem_of_castParts? hfree (by decide) hparts, rfl⟩
    rw [FixSite.text_of_mem_edits he] at hchanges
    exact s.lessens_replaced (s.tally_cast ht hinner rfl hchanges.2)

/-- Another type for the variable. -/
theorem lessens_retyped
    (ht : s.complaint.topic = .alwaysFloat ∨ s.complaint.topic = .floatFromArguments)
    {a : CodeAction} (ha : a ∈ FixSite.fixReturnMismatch ⟨d, line, version⟩) (hpreferred : a.preferred = true)
    {e : Edit} (he : e ∈ a.edits) (hchanges : Changes line e.text.toList)
    (halone : s.complaint.topic = .floatFromArguments → ∀ e, declaration? (statementOf line) = some e →
      ∀ l ∈ s.front ++ s.back, ¬ e.name.toList <:+: l) : Lessens source d.message a.edits := by
  unfold FixSite.fixReturnMismatch at ha
  rw [FixSite.message, s.returnTypes?_eq ht] at ha
  dsimp only at ha
  rcases List.mem_append.1 ha with ha | ha
  · obtain ⟨-, rfl⟩ := FixSite.of_mem_changeLine ha
    rw [FixSite.text_of_mem_edits he] at hchanges
    exact s.lessens_replaced (s.tally_retyped ht rfl hchanges.1 hchanges.2 halone)
  · split at ha
    · cases ha
    · rw [List.mem_singleton.1 ha] at hpreferred
      cases hpreferred

/-- A declaration above the line. -/
theorem lessens_declared (ht : s.complaint.topic = .undeclared) {a : CodeAction}
    (ha : a ∈ FixSite.declareIdentifier ⟨d, line, version⟩) (hpreferred : a.preferred = true) {e : Edit}
    (he : e ∈ a.edits) (hlength : e.text.toList.length ≤ Limit.lineChars) :
    Lessens source d.message a.edits := by
  obtain ⟨name, hname, hmention⟩ := s.exists_undeclared ht
  unfold FixSite.declareIdentifier at ha
  rw [FixSite.message, hmention] at ha
  simp only [List.map_cons, List.map_nil, List.mem_pair, String.ofList_toList] at ha
  rcases ha with rfl | rfl
  · have htext : (toString "int" ++ toString " " ++ toString name ++ toString " = " ++ toString "0" ++ "\n").toList =
        "int ".toList ++ (name.toList ++ " = 0".toList) ++ ['\n'] := by
      simp only [String.toList_append, List.append_assoc]
      rfl
    refine ⟨_, applyEdits_lineStart s.lineAt _ _, ?_⟩
    rw [List.mem_singleton.1 he, htext, List.length_append] at hlength
    rw [htext]
    exact s.tally_declared hname rfl (Nat.le_of_succ_le hlength)
  · cases hpreferred

/-- A cast around each argument. -/
theorem lessens_castArgs (ht : s.complaint.topic = .mixedTypes) {a : CodeAction}
    (ha : a ∈ FixSite.castAllArguments ⟨d, line, version⟩) (hpreferred : a.preferred = true) {e : Edit}
    (he : e ∈ a.edits) (hchanges : Changes line e.text.toList) (hopening : line.count '(' ≤ 1) :
    Lessens source d.message a.edits := by
  unfold FixSite.castAllArguments at ha
  split at ha
  · cases ha
  · next name hname =>
    obtain ⟨target, htarget, hcasts⟩ := List.mem_filterMap.1 ha
    obtain ⟨text, htext, rfl⟩ := Option.map_eq_some_iff.1 hcasts
    obtain rfl : target = "float" := eq_of_beq hpreferred
    rw [FixSite.text_of_mem_edits he] at hchanges
    obtain ⟨hne, hword⟩ := Mention.isWord_of_wordAfter? hname
    have htargetWord : ∀ c ∈ "float".toList, isWord c = true := List.all_eq_true.1 (by decide)
    exact s.lessens_replaced (s.tally_castArgs ht htext htargetWord hword hne hopening hchanges.2)

/-- A type as the target, in the place of what is none. -/
theorem lessens_validTarget (ht : s.complaint.topic = .invalidTarget) {a : CodeAction}
    (ha : a ∈ FixSite.replaceCastTarget ⟨d, line, version⟩) (hpreferred : a.preferred = true) {e : Edit}
    (he : e ∈ a.edits) (hchanges : Changes line e.text.toList) (hopening : line.count '(' ≤ 1)
    (hclosing : line.count ')' ≤ 1) : Lessens source d.message a.edits := by
  unfold FixSite.replaceCastTarget at ha
  split at ha
  · cases ha
  · obtain ⟨target, htarget, rfl⟩ := List.mem_map.1 ha
    obtain rfl : target = ValueType.int.text := eq_of_beq hpreferred
    rw [FixSite.text_of_mem_edits he] at hchanges
    exact s.lessens_replaced
      (s.tally_retargeted (.inl ht) hopening hclosing rfl hchanges.1 hchanges.2)

/-- The declared type as the target. -/
theorem lessens_declaredTarget (ht : s.complaint.topic = .castMismatch) {a : CodeAction}
    (ha : a ∈ FixSite.fixCastMismatch ⟨d, line, version⟩) (hpreferred : a.preferred = true) {e : Edit}
    (he : e ∈ a.edits) (hchanges : Changes line e.text.toList) (hopening : line.count '(' ≤ 1)
    (hclosing : line.count ')' ≤ 1) : Lessens source d.message a.edits := by
  obtain ⟨declaration, target, hdeclaration, hmention⟩ := s.exists_of_castMismatch ht
  unfold FixSite.fixCastMismatch at ha
  rw [FixSite.message, hmention] at ha
  rcases List.mem_append.1 ha with ha | ha
  · obtain ⟨-, rfl⟩ := FixSite.of_mem_changeLine ha
    rw [FixSite.text_of_mem_edits he] at hchanges
    exact s.lessens_replaced
      (s.tally_retargeted (.inr ⟨ht, declaration, hdeclaration, rfl⟩) hopening hclosing rfl hchanges.1 hchanges.2)
  · obtain ⟨-, rfl⟩ := FixSite.of_mem_changeLine ha
    cases hpreferred

/-- The topic is read off the message. -/
theorem of?_message : Topic.of? d.message.toList = some s.complaint.topic := by
  rw [← s.message, Complaint.of?_message (Walk.named_of_mem_complaints s.mem)]

/-- The actions are those that the rule on the topic offers, if no text that the message quotes calls
for another rule. -/
theorem exists_offer (hquotes : s.complaint.topic.quotes = true → s.complaint.topic.Calls d.message.toList)
    {a : CodeAction} (ha : a ∈ FixSite.fixes ⟨d, line, version⟩) :
    ∃ offer, s.complaint.topic.offer? = some offer ∧ a ∈ offer ⟨d, line, version⟩ := by
  have hcalls : s.complaint.topic.Calls d.message.toList := by
    cases hq : s.complaint.topic.quotes with
    | true => exact hquotes hq
    | false => exact s.message ▸ (Walk.worded_of_mem_complaints s.mem hq).calls
  rw [FixSite.fixes_eq, FixSite.message, hcalls.offers_eq] at ha
  obtain ⟨offer, hoffer, ha⟩ := List.mem_flatMap.1 ha
  exact ⟨offer, Option.mem_toList.1 hoffer, ha⟩

/-- What the rule on the topic prefers to offer works. -/
theorem lessens_of_offer {offer : FixSite → List CodeAction} (hoffer : s.complaint.topic.offer? = some offer)
    {a : CodeAction} (ha : a ∈ offer ⟨d, line, version⟩) (hpreferred : a.preferred = true) {e : Edit}
    (he : e ∈ a.edits)
    (hmends : s.complaint.topic.Mends line e.text.toList (s.front ++ s.back)) :
    Lessens source d.message a.edits := by
  generalize ht : s.complaint.topic = t at hoffer hmends
  cases t with
  | valueless =>
    cases hoffer
    unfold FixSite.assignDefault at ha
    split at ha
    · cases ha
    · rw [List.mem_singleton.1 ha] at he ⊢
      rw [FixSite.text_of_mem_edits he] at hmends
      exact s.lessens_replaced (s.tally_assigned ht hmends.2 rfl hmends.1.2)
  | intLiteral =>
    cases hoffer
    unfold FixSite.useFloatLiteral at ha
    split at ha
    · cases ha
    · next hnumbers =>
      rw [List.mem_singleton.1 ha] at he ⊢
      rw [FixSite.text_of_mem_edits he] at hmends
      exact s.lessens_replaced (s.tally_decimal ht hmends.2 hnumbers rfl hmends.1.1 hmends.1.2)
  | repeated =>
    cases hoffer
    rw [List.mem_singleton.1 ha]
    exact ⟨_, applyEdits_lineWithBreak s.lineAt _, s.tally_removed ht⟩
  | division =>
    cases hoffer
    rw [List.mem_singleton.1 ha]
    exact s.lessens_replaced (s.tally_wrapped ht hmends.1 hmends.2)
  | nameless =>
    cases hoffer
    rw [List.mem_singleton.1 ha] at he ⊢
    rw [FixSite.text_of_mem_edits he] at hmends
    exact s.lessens_replaced (s.tally_named ht rfl hmends.1 hmends.2)
  | undeclared =>
    cases hoffer
    exact s.lessens_declared ht ha hpreferred he hmends
  | mixedTypes =>
    cases hoffer
    exact s.lessens_castArgs ht ha hpreferred he hmends.1 hmends.2.1
  | invalidTarget =>
    cases hoffer
    exact s.lessens_validTarget ht ha hpreferred he hmends.1 hmends.2.1 hmends.2.2
  | castMismatch =>
    cases hoffer
    exact s.lessens_declaredTarget ht ha hpreferred he hmends.1 hmends.2.1 hmends.2.2
  | alwaysFloat =>
    cases hoffer
    exact s.lessens_retyped (.inl ht) ha hpreferred he hmends (by rw [ht]; rintro ⟨⟩)
  | floatFromArguments =>
    cases hoffer
    exact s.lessens_retyped (.inr ht) ha hpreferred he hmends.1 fun _ => hmends.2
  | tooFew =>
    cases hoffer
    rw [FixSite.edits_showSignature ha] at he
    cases he
  | tooMany =>
    cases hoffer
    rw [FixSite.edits_showSignature ha] at he
    cases he
  | floatLiteral =>
    cases hoffer
    exact s.lessens_cast (.inl ht) ha he hmends
  | floatVariable =>
    cases hoffer
    exact s.lessens_cast (.inr (.inl ht)) ha he hmends
  | conversion =>
    cases hoffer
    exact s.lessens_cast (.inr (.inr ht)) ha he hmends
  | unknownFunction => cases hoffer
  | unrecognized => cases hoffer

end Spot

/-- A preferred fix works. Take a finding on a text and a preferred action with an edit that is offered for
it. The action can be applied. Let the message quote no text with the words of another rule, and let the
fix be one that mends what the finding is about (`Topic.Mends`): it changes the line and keeps within the
limit on its length; on a line with at most one pair of parentheses it has the call that is meant; a value
is not put behind a comment; a `try` is put around a line without braces; and a variable that gets
another type is named on no other line. Then the new text has fewer findings with the message, if neither
analysis reaches the limit on findings. -/
theorem preferred_fix_mends [Build] {prefs : AnalysisPreferences} {source : String} {d : Diagnostic}
    (hd : d ∈ (analyze prefs source).1) {line : List Char} (hline : line? source.toList d.line = some line)
    {version : Nat} {a : CodeAction} (ha : a ∈ FixSite.fixes ⟨d, line, version⟩)
    (hpreferred : a.preferred = true) {e : Edit} (he : e ∈ a.edits) :
    ∃ out, applyEdits source.toList a.edits = .ok out ∧
      ∀ t, Topic.of? d.message.toList = some t → (t.quotes = true → t.Calls d.message.toList) →
        t.Mends line e.text.toList ((Text.lines source.toList).eraseIdx (d.line - 1)) →
        (analyze prefs source).1.length < Limit.semanticDiagnostics →
        (analyze prefs (String.ofList out)).1.length < Limit.semanticDiagnostics →
        (analyze prefs (String.ofList out)).1.countP (fun other => other.message = d.message) <
          (analyze prefs source).1.countP (fun other => other.message = d.message) := by
  obtain ⟨s⟩ := nonempty_spot hd hline
  obtain ⟨out, hout⟩ : ∃ out, applyEdits source.toList a.edits = .ok out := by
    rcases (FixSite.answers_fixes _ a ha).onLine with hnone | ⟨edit, hedit, -, hon⟩
    · rw [hnone] at he
      cases he
    · obtain ⟨out, hout, -⟩ := hon.relined s.lineAt
      exact ⟨out, hedit ▸ hout⟩
  refine ⟨out, hout, fun t ht hquotes hmends hroom hroom' => ?_⟩
  rw [s.of?_message] at ht
  cases ht
  -- The action is an offer of this topic, and each offer leaves fewer complaints.
  obtain ⟨offer, hoffer, ha⟩ := s.exists_offer hquotes ha
  rw [s.eraseIdx_lines] at hmends
  obtain ⟨out', hout', hless⟩ := s.lessens_of_offer hoffer ha hpreferred he hmends
  rw [hout] at hout'
  cases hout'
  rw [Script.countP_analyze hroom, Script.countP_analyze hroom', String.toList_ofList]
  exact hless

/-- Another target for a cast that does not match. -/
theorem preferred_fix_mends_target :
    let source := "float x = cast(1, int)"
    let d := Diagnostic.error 1
      "Cast type 'int' does not match declared variable type 'float' — use cast(expr, float)"
    let a := CodeAction.quickFix "Fix cast type to match variable type ('float')" d
      ⟨.wholeLine 1 source.toList, "float x = cast(1, float)", 1⟩ true
    d ∈ (analyze {} source).1 ∧ a ∈ FixSite.fixes ⟨d, source.toList, 1⟩ ∧
      ∃ out, applyEdits source.toList a.edits = .ok out ∧
        (analyze {} (String.ofList out)).1.countP (fun other => other.message = d.message) <
          (analyze {} source).1.countP (fun other => other.message = d.message) := by
  intro source d a
  have hspelt : source.toList = _ := String.toList_ofList
  have hmessage : (Complaint.call (.targetMismatch "int" .float)).message = d.message := by
    show _ = "Cast type 'int' does not match declared variable type 'float' — use cast(expr, float)"
    unfold Complaint.message CallComplaint.message ValueType.text
    rw [← String.toList_inj]
    simp only [String.toList_append, toString]
    repeat rw [String.toList_ofList]
    rfl
  have hfound : (Script.ofSource source.toList).findings =
      [.error 1 "Cast type 'int' does not match declared variable type 'float' for 'x' — use cast(expr, float)",
        d] := by
    rw [hspelt]
    decide
  have hshown : (analyze {} source).1 = _ := (analyze_eq_take ..).trans (List.take_of_length_le (hfound ▸ by decide))
  rw [hfound] at hshown
  have hd : d ∈ (analyze {} source).1 := by
    rw [hshown]
    exact .tail _ List.mem_cons_self
  have hline : line? source.toList 1 = some source.toList := by
    rw [hspelt]
    decide
  have hcalls : Topic.castMismatch.Calls d.message.toList :=
    hmessage ▸ Complaint.Worded.calls (c := .call (.targetMismatch "int" .float)) ⟨.int, rfl⟩
  have ha : a ∈ FixSite.fixes ⟨d, source.toList, 1⟩ := by
    have htypes : Mention.castTypes? d.message.toList = some ("int".toList, "float".toList) :=
      hmessage ▸ Mention.castTypes?_targetMismatch .int .float
    have hretarget : LineChange.retarget "int".toList "float".toList source.toList =
        "float x = cast(1, float)".toList := by
      repeat rw [String.toList_ofList]
      decide
    have hoffer : Topic.offer? .castMismatch = some FixSite.fixCastMismatch := rfl
    rw [FixSite.fixes_eq, FixSite.message, hcalls.offers_eq, hoffer, Option.toList_some,
      List.flatMap_singleton, FixSite.fixCastMismatch, FixSite.message, htypes]
    refine List.mem_append_left _ ?_
    dsimp only
    rw [hretarget, FixSite.changeLine, FixSite.replaceLine, if_neg (by decide)]
    exact List.mem_singleton.2 rfl
  obtain ⟨out, hout, hfewer⟩ := preferred_fix_mends hd hline ha rfl (List.mem_singleton_self _)
  obtain rfl : out = "float x = cast(1, float)".toList := by
    have hat : LineAt source.toList 1 [] source.toList [] [] :=
      ⟨by simp, rfl, .inl rfl, by decide, .inr (.inr ⟨rfl, .inl rfl⟩), fun _ => by decide⟩
    have hmade := hout.symm.trans (applyEdits_wholeLine hat _ _)
    simpa using hmade
  have htopic : Topic.of? d.message.toList = some .castMismatch :=
    hmessage ▸ Complaint.of?_message (c := .call (.targetMismatch "int" .float)) trivial
  have hmends : Topic.castMismatch.Mends source.toList "float x = cast(1, float)".toList
      ((Text.lines source.toList).eraseIdx 0) := by
    rw [hspelt, String.toList_ofList]
    exact ⟨⟨by decide, by decide⟩, by decide, by decide⟩
  have hroom : (analyze {} source).1.length < Limit.semanticDiagnostics := by
    rw [hshown]
    decide
  have hroom' : (analyze {} (String.ofList "float x = cast(1, float)".toList)).1.length <
      Limit.semanticDiagnostics := by
    rw [analyze_eq_take, String.toList_ofList, String.toList_ofList]
    decide
  exact ⟨hd, ha, _, hout, hfewer .castMismatch htopic (fun _ => hcalls) hmends hroom hroom'⟩

/-- A value behind a comment is none: the preferred fix leaves the finding. -/
theorem preferred_fix_keeps_valueless :
    let source := "int x // c"
    let d := Diagnostic.warning 1 "Variable 'x' declared but never assigned"
    let a := CodeAction.quickFix "Assign default value to 'x' (0)" d
      ⟨.wholeLine 1 source.toList, "int x // c = 0", 1⟩ true
    (analyze {} source).1 = [d] ∧ a ∈ FixSite.fixes ⟨d, source.toList, 1⟩ ∧
      applyEdits source.toList a.edits = .ok "int x // c = 0".toList ∧
      (analyze {} "int x // c = 0").1 = [d] := by
  decide +kernel

end EvlCheck
