/-
Names that are declared once more. Of all that validation finds on a line, the finding about a name that an
earlier line declares is the one that depends on these lines and on nothing else of the text. So a walk
over the lines has a list of repeated names (`Walk.repetitions`), which gives the findings with their lines
(`Script.mem_findings_repeated_iff`) and their number (`Walk.countP_isRepetition`).
-/
import EvlCheck.Proofs.Check.DeclarationText
import EvlCheck.Proofs.Check.LineChanges
import EvlCheck.Proofs.Check.Sources
import EvlCheck.Proofs.Check.StatementText

namespace EvlCheck

open Text Check

/-- The finding warns that a name is declared once more. -/
def Diagnostic.isRepetition (d : Diagnostic) : Bool :=
  d.isWarning && "Variable '".toList.isPrefixOf d.message.toList &&
    "' is already declared".toList.isSuffixOf d.message.toList

namespace Check

/-- A declaration is no line of structure. -/
theorem isStructure_of_declaration? {cs : List Char} {d : Declaration} (h : declaration? cs = some d) :
    TryTracker.isStructure cs = false := by
  obtain ⟨front, g, rest, hfront, -, rfl, -, -⟩ := exists_declarationText h
  generalize d.type = type, d.constant = constant at hfront
  cases hfront with
  | mk head =>
    cases head with
    | plain => cases type <;> rfl
    | const => rfl

/-- Only one complaint about a declaration depends on the lines above, and on whether it is one of a
constant. -/
theorem declarationComplaints_eq [Build] (symbols : Symbols) (number : Nat)
    (repeated guarded : Bool) (d : Declaration) :
    declarationComplaints symbols number repeated guarded d =
      (if !d.constant && repeated then [.repeated d.name] else []) ++
        declarationComplaints symbols number false guarded d := by
  simp only [declarationComplaints, Bool.and_false, Bool.false_eq_true, if_false, List.nil_append,
    List.append_assoc]

theorem topic_ne_repeated [Build] {symbols : Symbols} {number : Nat} {guarded : Bool}
    {d : Declaration} {c : Complaint}
    (h : c ∈ declarationComplaints symbols number false guarded d) : c.topic ≠ .repeated := by
  intro ht
  unfold declarationComplaints at h
  simp only [List.mem_append, Bool.and_false, Bool.false_eq_true, if_false, List.not_mem_nil, false_or] at h
  rcases h with ((h | h) | h) | h
  · split at h
    · exact topic_ne_of_number h rfl ht
    · cases h
  · split at h
    · obtain rfl := List.mem_singleton.1 h
      cases ht
    · cases h
  · obtain ⟨name, -, rfl⟩ := List.mem_map.1 h
    cases ht
  · exact topic_ne_of_call h rfl ht

theorem Complaint.isRepetition_diagnostic (number : Nat) (c : Complaint) :
    (c.diagnostic number).isRepetition = decide (c.topic = .repeated) := by
  have hquote : ∀ m : List Char, "Variable '".toList <+: m → beforeQuote m = Topic.repeated.opening := by
    rintro m ⟨rest, rfl⟩
    rfl
  have hprefix : ∀ name, "Variable '".toList <+: (repeated name).message.toList := by
    intro name
    unfold message
    simp only [String.toList_append, List.append_assoc]
    exact List.prefix_append _ _
  rw [Bool.eq_iff_iff, decide_eq_true_iff]
  unfold Diagnostic.isRepetition
  rw [Bool.and_eq_true, Bool.and_eq_true, List.isPrefixOf_iff_prefix, List.isSuffixOf_iff_suffix,
    message_diagnostic]
  constructor
  · rintro ⟨⟨-, hstart⟩, hend⟩
    refine (Topic.eq_of_opening_repeated (c.beforeQuote_message ▸ hquote _ hstart)).resolve_right ?_
    intro htopic
    cases c with
    | valueless name => exact not_suffix_valueless name hend
    | call c => cases c <;> cases htopic
    | _ => cases htopic
  · intro htopic
    cases c with
    | repeated name => exact ⟨⟨rfl, hprefix name⟩, suffix_repeated name⟩
    | call c => cases c <;> cases htopic
    | _ => cases htopic

end Check

namespace Walk

variable {symbols : Symbols} {w w' : Walk} {number : Nat} {line : List Char} {c : Complaint}

theorem mem_declared_of_repeated [Build] (h : c ∈ w.complaints symbols number line)
    (ht : c.topic = .repeated) : ∃ d, declaration? line = some d ∧ d.name ∈ w.declared := by
  cases arises_of_mem_complaints h with
  | repeated form above => exact ⟨_, declaration?_of_lineForm form, above⟩
  | number _ _ mem => exact absurd ht (topic_ne_of_number mem rfl)
  | expression _ mem => exact absurd ht (topic_ne_of_call mem rfl)
  | _ => cases ht

theorem declared_pass (w : Walk) (line : List Char) :
    (w.pass line).declared = ((Script.declares? line).map (·.1)).toList ++ w.declared := by
  unfold pass Script.declares?
  cases declaration? line <;> rfl

/-- The names that lines declare, the latest first. -/
theorem declared_foldl_pass (ls : List (List Char)) (w : Walk) :
    (ls.foldl pass w).declared = ((ls.filterMap Script.declares?).map (·.1)).reverse ++ w.declared := by
  induction ls generalizing w with
  | nil => rfl
  | cons line rest ih =>
    rw [List.foldl_cons, ih, declared_pass, List.filterMap_cons]
    cases Script.declares? line with
    | none => rfl
    | some p => simp

/-- The name that a line declares once more. -/
def repetition? (w : Walk) (line : List Char) : Option String :=
  (declaration? line).bind fun d =>
    if !d.constant && w.declared.contains d.name then some d.name else none

/-- The names that lines declare once more. -/
def repetitions : Walk → List (List Char) → List String
  | _, [] => []
  | w, line :: rest => (w.repetition? line).toList ++ (w.pass line).repetitions rest

theorem about_repeated [Build] (symbols : Symbols) (w : Walk) (number : Nat) (line : List Char) :
    about .repeated (w.complaints symbols number line) =
      (w.repetition? line).toList.map .repeated := by
  unfold repetition?
  cases hd : declaration? line with
  | none =>
    refine about_eq_nil fun c hc ht => ?_
    obtain ⟨d, hsome, -⟩ := mem_declared_of_repeated hc ht
    rw [hd] at hsome
    cases hsome
  | some d =>
    rw [complaints_declaration hd (isStructure_of_declaration? hd), declarationComplaints_eq, about_append,
      about_eq_nil fun c => topic_ne_repeated, List.append_nil]
    dsimp only [Option.bind_some]
    split <;> rfl

/-- Repeated names depend on the names declared above, in whatever order. -/
theorem repetitions_congr (h : ∀ name, name ∈ w'.declared ↔ name ∈ w.declared) (lines : List (List Char)) :
    w'.repetitions lines = w.repetitions lines := by
  induction lines generalizing w w' with
  | nil => rfl
  | cons line rest ih =>
    have hline : w'.repetition? line = w.repetition? line := by
      unfold repetition?
      congr 1
      funext d
      rw [Bool.eq_iff_iff.2 (List.contains_iff_mem.trans ((h d.name).trans List.contains_iff_mem.symm))]
    rw [repetitions, repetitions, hline, ih]
    intro name
    rw [declared_pass, declared_pass, List.mem_append, List.mem_append, h]

theorem repetitions_append (w : Walk) (xs ys : List (List Char)) :
    w.repetitions (xs ++ ys) = w.repetitions xs ++ (xs.foldl pass w).repetitions ys := by
  induction xs generalizing w with
  | nil => rfl
  | cons line xs ih => rw [List.cons_append, repetitions, repetitions, ih, List.append_assoc]; rfl

/-- There are as many findings about repeated names as there are such names. -/
theorem countP_isRepetition [Build] (symbols : Symbols) (lines : List (List Char)) (number : Nat)
    (w : Walk) :
    (findings symbols lines number w).countP (·.isRepetition) = (w.repetitions lines).length := by
  induction lines generalizing number w with
  | nil => rfl
  | cons line rest ih =>
    have hline : (complained number (w.complaints symbols number line)).countP (·.isRepetition) =
        (w.repetition? line).toList.length := by
      rw [complained, List.countP_map]
      simp only [Function.comp_def, Complaint.isRepetition_diagnostic]
      rw [List.countP_eq_length_filter]
      have habout := congrArg List.length (about_repeated symbols w number line)
      rw [List.length_map] at habout
      exact habout
    rw [findings_cons, List.countP_append, hline, ih, repetitions, List.length_append]

theorem mem_complaints_repeated_iff [Build] {name : String} :
    .repeated name ∈ w.complaints symbols number line ↔ w.repetition? line = some name := by
  have habout : .repeated name ∈ about .repeated (w.complaints symbols number line) ↔
      w.repetition? line = some name := by
    rw [about_repeated, List.mem_map]
    simp
  rw [← habout, about, List.mem_filter]
  exact (and_iff_left rfl).symm

/-- The finding about a name stands on the lines that declare it once more. -/
theorem mem_findings_repeated_iff [Build] {lines : List (List Char)} {k : Nat} {name : String} :
    .warning k (Complaint.repeated name).message ∈ findings symbols lines number w ↔
      ∃ before line behind, lines = before ++ line :: behind ∧ k = number + before.length ∧
        (before.foldl pass w).repetition? line = some name := by
  rw [mem_findings_iff]
  refine exists_congr fun before => exists_congr fun line => exists_congr fun behind =>
    and_congr_right fun _ => ?_
  rw [findings_step, complained, List.mem_map]
  constructor
  · rintro ⟨c, hc, heq⟩
    have hline := congrArg Diagnostic.line heq
    obtain rfl := Complaint.eq_repeated (congrArg Diagnostic.message heq)
    exact ⟨hline.symm, mem_complaints_repeated_iff.1 hc⟩
  · rintro ⟨rfl, hname⟩
    exact ⟨_, mem_complaints_repeated_iff.2 hname, rfl⟩

/-- A name is repeated on a line that is a declaration of it, not of a constant, below another one. -/
theorem repetition?_eq_some_iff {name : String} : w.repetition? line = some name ↔
    (∃ d, declaration? line = some d ∧ d.constant = false ∧ d.name = name) ∧ name ∈ w.declared := by
  unfold repetition?
  rw [Option.bind_eq_some_iff]
  constructor
  · rintro ⟨d, hd, h⟩
    rw [Option.ite_none_right_eq_some, Option.some.injEq, Bool.and_eq_true, Bool.not_eq_true',
      List.contains_iff_mem] at h
    obtain ⟨⟨hconstant, habove⟩, rfl⟩ := h
    exact ⟨⟨d, hd, hconstant, rfl⟩, habove⟩
  · rintro ⟨⟨d, hd, hconstant, rfl⟩, habove⟩
    refine ⟨d, hd, if_pos ?_⟩
    rw [hconstant, List.contains_iff_mem.2 habove]
    rfl

theorem mem_declared_iff {lines : List (List Char)} {name : String} :
    name ∈ (lines.foldl pass {}).declared ↔ ∃ line ∈ lines, ∃ d, declaration? line = some d ∧ d.name = name := by
  rw [declared_foldl_pass, List.append_nil, List.mem_reverse, List.mem_map]
  constructor
  · rintro ⟨p, hp, rfl⟩
    obtain ⟨line, hline, hdeclares⟩ := List.mem_filterMap.1 hp
    obtain ⟨d, hd, rfl⟩ := Option.map_eq_some_iff.1 hdeclares
    exact ⟨line, hline, d, hd, rfl⟩
  · rintro ⟨line, hline, d, hd, rfl⟩
    exact ⟨(d.name, d.type), List.mem_filterMap.2 ⟨line, hline, Option.map_eq_some_iff.2 ⟨d, hd, rfl⟩⟩, rfl⟩

end Walk

namespace Script

/-- The declaration that validation reads on a line, counted from 0. -/
def declarationOn? (s : Script) (k : Nat) : Option Declaration := s.lines[k]?.bind declaration?

/-- A line is told of a name that is declared once more if and only if it is a declaration of it, not of a
constant, and an earlier line is a declaration of it. -/
theorem mem_findings_repeated_iff [Build] {s : Script} {i : Nat} {name : String} :
    .warning (i + 1) (Complaint.repeated name).message ∈ s.findings ↔
      (∃ d, s.declarationOn? i = some d ∧ d.constant = false ∧ d.name = name) ∧
        ∃ j < i, ∃ d, s.declarationOn? j = some d ∧ d.name = name := by
  have hat : ∀ {before behind : List (List Char)} {line : List Char}, s.lines = before ++ line :: behind →
      (s.declarationOn? before.length = declaration? line) ∧
        ∀ j < before.length, s.declarationOn? j = before[j]?.bind declaration? := by
    intro before behind line hlines
    unfold declarationOn?
    rw [hlines]
    constructor
    · rw [List.getElem?_append_right (Nat.le_refl _), Nat.sub_self]
      rfl
    · intro j hj
      rw [List.getElem?_append_left hj]
  rw [findings, Walk.mem_findings_repeated_iff]
  constructor
  · rintro ⟨before, line, behind, hlines, hplace, hname⟩
    obtain rfl : i = before.length := by omega
    obtain ⟨hline, habove⟩ := hat hlines
    rw [Walk.repetition?_eq_some_iff, Walk.mem_declared_iff] at hname
    obtain ⟨hd, l, hl, d', hd', hname⟩ := hname
    obtain ⟨j, hj, rfl⟩ := List.getElem_of_mem hl
    refine ⟨by rwa [hline], j, hj, d', ?_, hname⟩
    rw [habove j hj, List.getElem?_eq_getElem hj]
    exact hd'
  · rintro ⟨⟨d, hd, hconstant, hname⟩, j, hj, d', hd', hname'⟩
    obtain ⟨line, hline, hd⟩ := Option.bind_eq_some_iff.1 hd
    obtain ⟨hlt, rfl⟩ := List.getElem?_eq_some_iff.1 hline
    have hsplit : s.lines = s.lines.take i ++ s.lines[i] :: s.lines.drop (i + 1) := by
      rw [← List.drop_eq_getElem_cons hlt, List.take_append_drop]
    have hlength : (s.lines.take i).length = i := List.length_take_of_le hlt.le
    refine ⟨_, _, _, hsplit, by rw [hlength, Nat.add_comm], ?_⟩
    rw [Walk.repetition?_eq_some_iff, Walk.mem_declared_iff]
    refine ⟨⟨d, hd, hconstant, hname⟩, ?_⟩
    rw [(hat hsplit).2 j (hlength.symm ▸ hj)] at hd'
    obtain ⟨l, hl, hd'⟩ := Option.bind_eq_some_iff.1 hd'
    exact ⟨l, List.mem_of_getElem? hl, d', hd', hname'⟩

end Script

end EvlCheck
