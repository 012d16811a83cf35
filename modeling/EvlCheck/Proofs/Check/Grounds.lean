/-
On what grounds a line is told of an unknown function or of an unrecognized statement. A complaint is
known by the first letters of its message, so a finding with the words of one of the two comes from that
complaint (`eq_of_message_unknownFunction`, `exists_of_message_unrecognized`). The first needs a name
that the line calls and no function has, the second a line of none of the forms.
-/
import EvlCheck.Proofs.Check.Complaints
import EvlCheck.Proofs.Check.LineStart

namespace EvlCheck

open Text Check Lexing

/-! ## Complaints by their first letters -/

/-- The text begins as given. -/
def Begins (start : List Char) (s : String) : Prop := start <+: s.toList

theorem Begins.append {start : List Char} {s : String} (h : Begins start s) (t : String) :
    Begins start (s ++ t) := by
  unfold Begins
  rw [String.toList_append]
  exact h.trans (List.prefix_append _ _)

namespace Check

/-- The first letters of a complaint. -/
def CallComplaint.initials : CallComplaint → List Char
  | .unknownFunction _ => ['U', 'n', 'k']
  | .tooFew .. | .tooMany .. | .mixedTypes .. | .floatFromArguments .. | .alwaysFloat _ =>
    ['F', 'u', 'n']
  | .invalidTarget _ => ['I', 'n', 'v']
  | .targetMismatch .. => ['C', 'a', 's']

/-- The first letters of a complaint. -/
def Complaint.initials : Complaint → List Char
  | .call c => c.initials
  | .castTarget .. => ['C', 'a', 's']
  | .intLiteral .. => ['F', 'l', 'o']
  | .floatLiteral _ | .floatVariable _ => ['A', 's', 's']
  | .conversion _ => ['E', 'x', 'p']
  | .repeated _ | .nameless | .valueless _ => ['V', 'a', 'r']
  | .undeclared _ => ['R', 'e', 'f']
  | .division => ['D', 'i', 'v']
  | .unrecognized _ => ['U', 'n', 'r']

theorem Complaint.begins (c : Complaint) : Begins c.initials c.message := by
  cases c with
  | call c =>
    unfold message CallComplaint.message
    cases c <;> (repeat with_reducible refine Begins.append ?_ _) <;>
      exact List.isPrefixOf_iff_prefix.1 rfl
  | _ =>
    unfold message
    repeat with_reducible refine Begins.append ?_ _
    exact List.isPrefixOf_iff_prefix.1 rfl

/-- Complaints with the same message have the same first letters. -/
theorem Complaint.initials_eq {c c' : Complaint} (h : c.message = c'.message) :
    c.initials = c'.initials := by
  have hlength : ∀ c : Complaint, c.initials.length = 3 := by
    intro c
    cases c with
    | call c => cases c <;> rfl
    | _ => rfl
  have hprefix := c.begins
  rw [h] at hprefix
  have heq := List.prefix_of_prefix_length_le hprefix c'.begins (by rw [hlength, hlength])
  exact heq.eq_of_length (by rw [hlength, hlength])

/-- Only the complaint about an unknown function tells of one. -/
theorem Complaint.eq_of_message_unknownFunction {c : Complaint} {name : String}
    (h : c.message = (CallComplaint.unknownFunction name).message) :
    c = .call (.unknownFunction name) := by
  rw [← message_call] at h
  have hinitials : c.initials = ['U', 'n', 'k'] := Complaint.initials_eq h
  cases c with
  | call c =>
    cases c with
    | unknownFunction other =>
      simp only [message_call] at h
      unfold CallComplaint.message at h
      have hchars := congrArg String.toList h
      simp only [String.toList_append] at hchars
      have hname : other = name := String.toList_injective
        (List.append_cancel_left (List.append_cancel_right hchars))
      rw [hname]
    | _ => simp [initials, CallComplaint.initials] at hinitials
  | _ => simp [initials] at hinitials

/-- Only the complaint about an unrecognized statement tells of one. -/
theorem Complaint.exists_of_message_unrecognized {c : Complaint} {line : List Char}
    (h : c.message = (Complaint.unrecognized line).message) : ∃ line, c = .unrecognized line := by
  have hinitials : c.initials = ['U', 'n', 'r'] := Complaint.initials_eq h
  cases c with
  | unrecognized other => exact ⟨other, rfl⟩
  | call c => cases c <;> simp [initials, CallComplaint.initials] at hinitials
  | _ => simp [initials] at hinitials

/-! ## Where the two complaints come from -/

theorem unknownFunction_mem_callComplaints [Build] {site : CallSite} {call : CallText}
    {name : String} (h : .unknownFunction name ∈ callComplaints site call) :
    name = call.name ∧ Signature.find? name = none := by
  have harity : ∀ s given, arityComplaint? s given ≠ some (.unknownFunction name) := by
    intro s given h
    rcases arityComplaint?_cases h with ⟨⟨⟩, -⟩ | ⟨_, ⟨⟩, -⟩
  have hcast : ∀ target, castComplaint? site.declared target ≠ some (.unknownFunction name) := by
    intro target h
    rcases castComplaint?_cases h with ⟨⟨⟩, -⟩ | ⟨_, _, ⟨⟩, -⟩
  have hargs : ∀ s args, argsComplaint? s site.declared args ≠ some (.unknownFunction name) := by
    intro s args h
    obtain ⟨_, _, -, ⟨⟨⟩, -⟩ | ⟨⟨⟩, -⟩⟩ := argsComplaint?_cases h
  unfold callComplaints at h
  split at h
  · cases h
  · split at h
    · next hfind =>
      rw [List.mem_singleton] at h
      cases h
      exact ⟨rfl, hfind⟩
    · exfalso
      split at h
      · next c hc =>
        rw [List.mem_singleton] at h
        exact harity _ _ (h ▸ hc)
      · split at h
        · split at h
          · cases h
          · exact hcast _ (Option.mem_toList.1 h)
        · rcases List.mem_append.1 h with h | h
          · split at h
            · exact hargs _ _ (Option.mem_toList.1 h)
            · cases h
          · split at h <;> simp at h

theorem unknownFunction_mem_expressionComplaints [Build] {site : CallSite} {cs : List Char}
    {name : String} (h : .call (.unknownFunction name) ∈ expressionComplaints site cs) :
    name ∈ namesCalled cs ∧ Signature.find? name = none := by
  unfold expressionComplaints at h
  split at h
  · cases h
  · next first rest hcalls =>
    obtain ⟨call, hcall, h⟩ := List.mem_flatMap.1 h
    obtain ⟨c, hc, heq⟩ := List.mem_map.1 h
    cases heq
    obtain ⟨rfl, hfind⟩ := unknownFunction_mem_callComplaints hc
    refine ⟨mem_namesCalled_of_mem_calls ?_, hfind⟩
    rw [hcalls]
    exact hcall

/-- The complaint is about a number as the value of a declaration. -/
def Complaint.isNumeric : Complaint → Bool
  | .intLiteral .. | .floatLiteral _ | .floatVariable _ | .castTarget .. | .conversion _
  | .call (.invalidTarget _) => true
  | _ => false

theorem isNumeric_of_mem_numberComplaints [Build] {symbols : Symbols} {d : Declaration}
    {value : List Char} {c : Complaint} (h : c ∈ numberComplaints symbols d value) :
    c.isNumeric = true := by
  unfold numberComplaints at h
  simp only [List.mem_append, Option.mem_toList] at h
  rcases h with (h | h) | h
  · unfold literalComplaint? at h
    split at h
    · cases h
      rfl
    · split at h <;> cases h
      rfl
  · unfold variableComplaint? at h
    split at h <;> cases h
    rfl
  · split at h
    · rw [Option.mem_toList] at h
      rcases targetComplaint?_cases h with ⟨rfl, -⟩ | ⟨type, rfl, -⟩ <;> rfl
    · rw [Option.mem_toList] at h
      unfold conversionComplaint? at h
      split at h <;> cases h
      rfl

/-- What a declaration is told of. -/
theorem mem_declarationComplaints [Build] {symbols : Symbols} {line : Nat} {repeated guarded : Bool}
    {d : Declaration} {c : Complaint}
    (h : c ∈ declarationComplaints symbols line repeated guarded d) :
    c = .repeated d.name ∨ c.isNumeric = true ∨ c = .division ∨ (∃ name, c = .undeclared name) ∨
      c ∈ expressionComplaints ⟨line, some d.type, symbols⟩ (trim d.value) := by
  unfold declarationComplaints at h
  simp only [List.mem_append] at h
  rcases h with (((h | h) | h) | h) | h
  · left
    split at h
    · exact List.mem_singleton.1 h
    · cases h
  · right; left
    split at h
    · exact isNumeric_of_mem_numberComplaints h
    · cases h
  · right; right; left
    split at h
    · exact List.mem_singleton.1 h
    · cases h
  · obtain ⟨name, -, rfl⟩ := List.mem_map.1 h
    exact .inr (.inr (.inr (.inl ⟨name, rfl⟩)))
  · exact .inr (.inr (.inr (.inr h)))

theorem exists_call_of_mem_expressionComplaints [Build] {site : CallSite} {cs : List Char}
    {c : Complaint} (h : c ∈ expressionComplaints site cs) : ∃ complaint, c = .call complaint := by
  unfold expressionComplaints at h
  split at h
  · cases h
  · obtain ⟨call, -, h⟩ := List.mem_flatMap.1 h
    obtain ⟨complaint, -, rfl⟩ := List.mem_map.1 h
    exact ⟨complaint, rfl⟩

theorem declaration?_of_lineForm {cs : List Char} {d : Declaration}
    (h : lineForm cs = .declaration d) : declaration? cs = some d := by
  unfold lineForm at h
  split at h
  · next d' hd =>
    cases h
    exact hd
  · repeat' split at h
    all_goals cases h

theorem assignedValue?_of_lineForm {cs : List Char} {value : Option (List Char)}
    (h : lineForm cs = .assignment value) : assignedValue? cs = value := by
  unfold lineForm at h
  repeat' split at h
  all_goals cases h
  rfl

/-- The value of a declaration calls what the line calls. -/
theorem namesCalled_value {cs : List Char} {d : Declaration} (h : declaration? cs = some d) :
    namesCalled d.value ⊆ namesCalled cs := by
  obtain ⟨before, rest, rfl, hvalue⟩ := exists_of_declaration? h
  rw [hvalue, namesCalled_trimStart]
  exact namesCalled_behind (by decide) (by decide) before rest

end Check

namespace Check

theorem callsOfWords_isPrefix [Build] (ws : List (List Char × List Char)) (room : Nat)
    (found : List CallText) :
    found.reverse <+: (callsOfWords ws room found).1 := by
  induction ws generalizing room found with
  | nil => exact List.prefix_rfl
  | cons first rest ih =>
    unfold callsOfWords
    split
    · exact ih room found
    · next call _ =>
      split
      · exact List.prefix_rfl
      · next room =>
        have hmore := ih room (call :: found)
        rw [List.reverse_cons] at hmore
        exact (List.prefix_append _ _).trans hmore

/-- The first call of a text is that of the name in front of a parenthesis at its start. -/
theorem exists_calls_of_word [Build] {c : Char} {w g : List Char} (hc : isNameStart c = true)
    (hw : ∀ d ∈ w, isWord d = true) (hg : ∀ d ∈ g, isBlank d = true) (tail : List Char) :
    ∃ call rest, (calls (c :: w ++ (g ++ '(' :: tail))).1 = call :: rest ∧
      call.name = String.ofList (c :: w) := by
  have hends : ∀ d ∈ (g ++ '(' :: tail).head?, isWord d = false := by
    refine head?_blanks_append hg ?_
    rintro d hd
    cases hd
    decide
  have hword : isWord c = true := isWord_of_isNamePart (isNamePart_of_isNameStart hc)
  have hwords : words (c :: w ++ (g ++ '(' :: tail)) =
      (c :: w, g ++ '(' :: tail) :: words.go (w ++ (g ++ '(' :: tail)) true [] := by
    unfold words
    rw [List.cons_append, words.go, if_pos hword, if_neg Bool.false_ne_true, words_go_eq,
      Lexing.takeWhile_append_of_stop hw hends, Lexing.dropWhile_append_of_stop hw hends]
    rfl
  have hcall : callOfWord? (c :: w) (g ++ '(' :: tail) =
      some ⟨String.ofList (c :: w), splitArgs (callInside tail)⟩ := by
    unfold callOfWord?
    rw [List.dropWhile_cons_of_neg (by simp [hc]), afterBlanks?_blanks_append hg]
    rfl
  obtain ⟨rest, hrest⟩ := callsOfWords_isPrefix (words.go (w ++ (g ++ '(' :: tail)) true [])
    (Limit.callExtraction - 1) [⟨String.ofList (c :: w), splitArgs (callInside tail)⟩]
  refine ⟨⟨String.ofList (c :: w), splitArgs (callInside tail)⟩, rest, ?_, rfl⟩
  have hroom : Limit.callExtraction = Limit.callExtraction - 1 + 1 :=
    (Nat.sub_add_cancel Limit.callExtraction_pos).symm
  unfold calls
  rw [hwords, hroom, callsOfWords, hcall]
  exact hrest.symm

end Check

namespace TryTracker

/-- The line is nothing but structure. -/
def isStructure (cs : List Char) : Bool :=
  opensTry cs || closesThenCatches cs || catches cs || decide (cs = ['\x7b'] ∨ cs = ['\x7d'])

theorem observe_snd (t : TryTracker) (cs : List Char) : (t.observe cs).2 = isStructure cs := by
  unfold observe isStructure
  dsimp only
  by_cases htry : opensTry cs = true
  · rw [if_pos htry, htry]
    rfl
  · rw [if_neg htry, Bool.eq_false_iff.2 htry, Bool.false_or]
    by_cases hcatch : (closesThenCatches cs || catches cs) = true
    · rw [if_pos hcatch, hcatch]
      rfl
    · rw [if_neg hcatch, Bool.eq_false_iff.2 hcatch]
      rfl

end TryTracker

namespace Walk

variable [Build] {symbols : Symbols} {w : Walk} {number : Nat} {line : List Char}

theorem mem_complaints {c : Complaint} (h : c ∈ w.complaints symbols number line) :
    line ≠ [] ∧ TryTracker.isStructure line = false ∧
      ∃ w : Walk, c ∈ w.statementComplaints symbols number line := by
  unfold complaints at h
  rw [TryTracker.observe_snd] at h
  split at h
  · cases h
  · next hplain =>
    rw [Bool.or_eq_true, not_or, Bool.not_eq_true, List.isEmpty_eq_false_iff, Bool.not_eq_true] at hplain
    exact ⟨hplain.1, hplain.2, _, h⟩

/-- A name is unknown on a line only if the line calls it. -/
theorem unknownFunction_mem_complaints {name : String}
    (h : .call (.unknownFunction name) ∈ w.complaints symbols number line) :
    line ≠ [] ∧ TryTracker.isStructure line = false ∧ lineForm line ≠ .other ∧
      name ∈ namesCalled line ∧ Signature.find? name = none := by
  obtain ⟨hne, hstructure, w, h⟩ := mem_complaints h
  refine ⟨hne, hstructure, ?_⟩
  unfold statementComplaints at h
  dsimp only at h
  split at h
  · next d hd =>
    rcases mem_declarationComplaints h with h | h | h | ⟨other, h⟩ | h
    · cases h
    · cases h
    · cases h
    · cases h
    · obtain ⟨hname, hfind⟩ := unknownFunction_mem_expressionComplaints h
      rw [hd]
      exact ⟨nofun, namesCalled_value (declaration?_of_lineForm hd) (namesCalled_trim _ hname), hfind⟩
  · simp at h
  · simp at h
  · next hform =>
    rw [hform]
    exact ⟨nofun, unknownFunction_mem_expressionComplaints h⟩
  · cases h
  · next value hform =>
    rw [hform]
    rcases List.mem_append.1 h with h | h
    · split at h <;> simp at h
    · obtain ⟨hname, hfind⟩ := unknownFunction_mem_expressionComplaints h
      obtain ⟨before, rest, hline, hcalled⟩ :=
        exists_of_assignedValue? (assignedValue?_of_lineForm hform)
      rw [hline]
      exact ⟨nofun, namesCalled_behind (by decide) (by decide) before rest (hcalled hname), hfind⟩
  · split at h <;> simp at h

/-- A statement is not recognized only if it has none of the forms, and it is quoted whole. -/
theorem unrecognized_mem_complaints {cs : List Char}
    (h : .unrecognized cs ∈ w.complaints symbols number line) :
    line ≠ [] ∧ TryTracker.isStructure line = false ∧ lineForm line = .other ∧ cs = line := by
  obtain ⟨hne, hstructure, w, h⟩ := mem_complaints h
  refine ⟨hne, hstructure, ?_⟩
  unfold statementComplaints at h
  dsimp only at h
  split at h
  · rcases mem_declarationComplaints h with h | h | h | ⟨other, h⟩ | h
    · cases h
    · cases h
    · cases h
    · cases h
    · obtain ⟨c, hc⟩ := exists_call_of_mem_expressionComplaints h
      cases hc
  · simp at h
  · simp at h
  · obtain ⟨c, hc⟩ := exists_call_of_mem_expressionComplaints h
    cases hc
  · cases h
  · rcases List.mem_append.1 h with h | h
    · split at h <;> simp at h
    · obtain ⟨c, hc⟩ := exists_call_of_mem_expressionComplaints h
      cases hc
  · next hform =>
    refine ⟨hform, ?_⟩
    split at h
    · cases List.mem_singleton.1 h
    · cases List.mem_singleton.1 h
      rfl

end Walk

end EvlCheck
