/-
What the notes on a line say. Every check makes its findings on the line it was asked about, and only
one message tells of a division by zero: the others begin with another letter. So the notes on a
statement are summed up by two facts (`NotesOn`): where their findings stand, and whether one of them
tells of a division. The facts of a list of notes follow from those of its parts.
-/
import EvlCheck.Proofs.Check.Findings

namespace EvlCheck

/-- The words for a divisor that is zero. -/
def divisionMessage : String := "Division by zero detected"

/-- A text with a first letter by which it differs from the words for a division by zero. -/
def Foreign (s : String) : Prop := ∃ c, s.toList.head? = some c ∧ c ≠ 'D'

namespace Foreign

theorem append {s : String} (h : Foreign s) (t : String) : Foreign (s ++ t) := by
  obtain ⟨c, hc, hne⟩ := h
  refine ⟨c, ?_, hne⟩
  rw [String.toList_append, List.head?_append, hc]
  rfl

theorem ne {s : String} (h : Foreign s) : s ≠ divisionMessage := by
  rintro rfl
  obtain ⟨c, hc, hne⟩ := h
  cases hc
  exact hne rfl

end Foreign

/-! ## Lists of notes -/

/-- The findings among the notes stand on a line, and whether one tells of a division by zero is
known. -/
structure NotesOn (line : Nat) (divided : Bool) (notes : List Note) : Prop where
  line : ∀ d ∈ Note.findings notes, d.line = line
  divided : (∃ d ∈ Note.findings notes, d.message = divisionMessage) ↔ divided = true

namespace NotesOn

variable {line : Nat}

theorem nil : NotesOn line false [] where
  line := by simp
  divided := by simp

theorem append {a b : Bool} {notes others : List Note} (h : NotesOn line a notes)
    (h' : NotesOn line b others) : NotesOn line (a || b) (notes ++ others) where
  line d hd := by
    rw [Note.findings_append, List.mem_append] at hd
    rcases hd with hd | hd
    · exact h.line d hd
    · exact h'.line d hd
  divided := by
    rw [Note.findings_append, Bool.or_eq_true, ← h.divided, ← h'.divided]
    constructor
    · rintro ⟨d, hd, hmessage⟩
      rcases List.mem_append.1 hd with hd | hd
      · exact .inl ⟨d, hd, hmessage⟩
      · exact .inr ⟨d, hd, hmessage⟩
    · rintro (⟨d, hd, hmessage⟩ | ⟨d, hd, hmessage⟩)
      · exact ⟨d, List.mem_append_left _ hd, hmessage⟩
      · exact ⟨d, List.mem_append_right _ hd, hmessage⟩

theorem finding {d : Diagnostic} (hline : d.line = line) (hmessage : d.message ≠ divisionMessage) :
    NotesOn line false [.finding d] where
  line := by simp [Note.findings, hline]
  divided := by simp [Note.findings, hmessage]

theorem error {message : String} (h : Foreign message) : NotesOn line false [.error line message] :=
  finding rfl h.ne

theorem warning {message : String} (h : Foreign message) :
    NotesOn line false [.warning line message] :=
  finding rfl h.ne

theorem division : NotesOn line true [Check.divisionNote line] where
  line := by simp [Note.findings, Check.divisionNote, Note.error, Diagnostic.error]
  divided := by simp [Note.findings, Check.divisionNote, Note.error, Diagnostic.error, divisionMessage]

/-- Events are no findings. -/
theorem event {divided : Bool} {notes : List Note} (e : Event) (h : NotesOn line divided notes) :
    NotesOn line divided (.event e :: notes) :=
  ⟨h.line, h.divided⟩

theorem events (es : List Event) : NotesOn line false (es.map .event) := by
  induction es with
  | nil => exact nil
  | cons e es ih => exact ih.event e

theorem ite {c : Prop} [Decidable c] {divided : Bool} {notes : List Note}
    (h : NotesOn line divided notes) : NotesOn line (c && divided) (if c then notes else []) := by
  by_cases hc : c
  · simpa [hc] using h
  · simpa [hc] using nil

/-- A condition on notes of which none tells of a division. -/
theorem whenever {c : Prop} [Decidable c] {notes : List Note} (h : NotesOn line false notes) :
    NotesOn line false (if c then notes else []) := by
  simpa using h.ite (c := c)

/-- Notes of which each for itself is on the line and tells of no division. -/
theorem all {notes : List Note} (h : ∀ note ∈ notes, NotesOn line false [note]) :
    NotesOn line false notes := by
  induction notes with
  | nil => exact nil
  | cons note rest ih =>
    rw [List.forall_mem_cons] at h
    exact h.1.append (ih h.2)

theorem flatMap {α : Type} {f : α → List Note} {xs : List α}
    (h : ∀ x ∈ xs, NotesOn line false (f x)) : NotesOn line false (xs.flatMap f) := by
  induction xs with
  | nil => exact nil
  | cons x xs ih =>
    rw [List.forall_mem_cons] at h
    exact h.1.append (ih h.2)

end NotesOn

/-! ## What each check says -/

namespace Check

open NotesOn Text

/-- No complaint about a call is about a division. -/
theorem CallComplaint.foreign_message (c : CallComplaint) : Foreign c.message := by
  -- Each message begins with words of its own, whatever is filled in behind them.
  unfold CallComplaint.message
  cases c <;> (repeat with_reducible refine Foreign.append ?_ _) <;> exact ⟨_, rfl, by decide⟩

theorem notesOn_complaint (line : Nat) (c : CallComplaint) : NotesOn line false [c.note line] := by
  have hmessage := c.foreign_message
  cases c with
  | unknownFunction name => exact warning hmessage
  | _ => exact error hmessage

section

variable [Build] (site : CallSite)

theorem notesOn_checkArgs (s : Signature) (args : List (List Char)) :
    NotesOn site.line false (checkArgs site s args) := by
  unfold checkArgs
  refine (events _).append (all fun note hnote => ?_)
  obtain ⟨c, -, rfl⟩ := Option.map_eq_some_iff.1 (Option.mem_toList.1 hnote)
  exact notesOn_complaint site.line c

theorem notesOn_checkCall (call : CallText) : NotesOn site.line false (checkCall site call) := by
  unfold checkCall
  split
  · exact nil
  · split
    · exact notesOn_complaint _ _
    · next s _ =>
      split
      · exact notesOn_complaint _ _
      · split
        · split
          · exact nil
          · refine all fun note hnote => ?_
            obtain ⟨c, -, rfl⟩ := Option.map_eq_some_iff.1 (Option.mem_toList.1 hnote)
            exact notesOn_complaint _ c
        · exact (notesOn_checkArgs site s call.args).whenever.append (notesOn_complaint _ _).whenever

theorem notesOn_checkCalls (cs : List Char) : NotesOn site.line false (checkCalls site cs) := by
  unfold checkCalls
  dsimp only
  refine (events _).append ?_
  split
  · exact nil
  · next first _ _ =>
    refine event _ (flatMap fun call _ => ?_)
    split
    · exact notesOn_checkCall site call
    · exact notesOn_checkCall { site with declared := none } call

end

/-! ### Declarations -/

section

variable (symbols : Symbols) (line : Nat) (d : Declaration) (value : List Char)

theorem notesOn_literalNote? : NotesOn line false (literalNote? line d value).toList := by
  refine all fun note hnote => ?_
  rw [Option.mem_toList] at hnote
  unfold literalNote? at hnote
  split at hnote
  · cases hnote
    refine error ?_
    repeat with_reducible refine Foreign.append ?_ _
    exact ⟨_, rfl, by decide⟩
  · split at hnote
    · cases hnote
      refine warning ?_
      repeat with_reducible refine Foreign.append ?_ _
      exact ⟨_, rfl, by decide⟩
    · cases hnote

theorem notesOn_variableNote? : NotesOn line false (variableNote? symbols line d value).toList := by
  refine all fun note hnote => ?_
  rw [Option.mem_toList] at hnote
  unfold variableNote? at hnote
  split at hnote
  · cases hnote
    refine warning ?_
    repeat with_reducible refine Foreign.append ?_ _
    exact ⟨_, rfl, by decide⟩
  · cases hnote

theorem notesOn_targetNote? (target : String) :
    NotesOn line false (targetNote? line d target).toList := by
  refine all fun note hnote => ?_
  rw [Option.mem_toList] at hnote
  unfold targetNote? at hnote
  split at hnote
  · cases hnote
    exact notesOn_complaint line _
  · split at hnote
    · cases hnote
    · cases hnote
      refine error ?_
      repeat with_reducible refine Foreign.append ?_ _
      exact ⟨_, rfl, by decide⟩

theorem notesOn_conversionNotes [Build] :
    NotesOn line false (conversionNotes symbols line d value) := by
  unfold conversionNotes
  refine whenever ((events _).append (whenever (warning ?_)))
  repeat with_reducible refine Foreign.append ?_ _
  exact ⟨_, rfl, by decide⟩

theorem notesOn_numberNotes [Build] : NotesOn line false (numberNotes symbols line d value) := by
  unfold numberNotes
  refine ((notesOn_literalNote? line d value).append (notesOn_variableNote? symbols line d value)).append
    ?_
  split
  · exact notesOn_targetNote? line d _
  · exact notesOn_conversionNotes symbols line d value

theorem notesOn_undeclaredNotes (current : String) :
    NotesOn line false (undeclaredNotes symbols line current value) := by
  unfold undeclaredNotes
  refine all fun note hnote => ?_
  obtain ⟨name, -, rfl⟩ := List.mem_map.1 hnote
  refine warning ?_
  repeat with_reducible refine Foreign.append ?_ _
  exact ⟨_, rfl, by decide⟩

/-- A declaration is told of a division if its value has one and no `try` protects it. -/
theorem notesOn_declarationNotes [Build] (repeated guarded : Bool) :
    NotesOn line (dividesByZero (trim d.value) && !guarded)
      (declarationNotes symbols line repeated guarded d) := by
  have hrepeated : NotesOn line false [.warning line s!"Variable '{d.name}' is already declared"] := by
    refine warning ?_
    repeat with_reducible refine Foreign.append ?_ _
    exact ⟨_, rfl, by decide⟩
  have hnumber := notesOn_numberNotes symbols line d (trim d.value)
  have hundeclared := notesOn_undeclaredNotes symbols line (trim d.value) d.name
  have hcalls := notesOn_checkCalls ⟨line, some d.type, symbols⟩ (trim d.value)
  have hevent : NotesOn line false [.event (declarationEvent line d)] := nil.event _
  have hall := ((((hevent.append
    (hrepeated.whenever (c := (!d.constant && repeated) = true))).append
    (hnumber.whenever (c := d.type.isNumeric = true))).append
    (division.ite (c := (dividesByZero (trim d.value) && !guarded) = true))).append
    hundeclared).append hcalls
  simpa [declarationNotes] using hall

end

end Check

/-! ## Statements and lines -/

/-- Whether the value that a line computes, or the line itself where it is no statement, divides by
zero. -/
def LineForm.divides (line : List Char) : LineForm → Bool
  | .declaration d => Check.dividesByZero (Text.trim d.value)
  | .assignment (some value) => Check.dividesByZero value
  | .other => Check.dividesByZero line
  | .nameless | .valueless _ | .call | .assignment none => false

namespace Walk

open Check NotesOn

variable [Build]

/-- A statement is told of a division if it has one and no `try` protects it. -/
theorem notesOn_statementNotes (symbols : Symbols) (w : Walk) (number : Nat) (line : List Char) :
    NotesOn number ((lineForm line).divides line && !w.tracker.protects)
      (statementNotes symbols w number line) := by
  unfold statementNotes
  dsimp only
  cases lineForm line with
  | declaration d => exact notesOn_declarationNotes symbols number d _ _
  | nameless => exact error ⟨_, rfl, by decide⟩
  | valueless name =>
    refine warning ?_
    repeat with_reducible refine Foreign.append ?_ _
    exact ⟨_, rfl, by decide⟩
  | call => exact notesOn_checkCalls ⟨number, none, symbols⟩ line
  | assignment value? =>
    cases value? with
    | none => exact nil
    | some value =>
      have hcalls := notesOn_checkCalls ⟨number, none, symbols⟩ value
      simpa [LineForm.divides] using
        (division.ite (c := (dividesByZero value && !w.tracker.protects) = true)).append hcalls
  | other =>
    simp only [LineForm.divides]
    by_cases hdivides : (dividesByZero line && !w.tracker.protects) = true
    · rw [if_pos hdivides, hdivides]
      exact division
    · rw [if_neg hdivides, Bool.eq_false_iff.2 hdivides]
      refine warning ?_
      repeat with_reducible refine Foreign.append ?_ _
      exact ⟨_, rfl, by decide⟩

/-! ### Places of the walk -/

/-- The place behind a line: its braces are counted and its name is declared. -/
def pass (w : Walk) (line : List Char) : Walk where
  tracker := if line.isEmpty then w.tracker else (w.tracker.observe line).1
  declared := match declaration? line with
    | none => w.declared
    | some d => d.name :: w.declared

theorem step_fst (symbols : Symbols) (w : Walk) (number : Nat) (line : List Char) :
    (w.step symbols number line).1 = w.pass line := by
  unfold step pass
  dsimp only
  split <;> rfl

/-- A line is told of a division if it is no line of structure, has a division, and no `try` protects
it. -/
theorem notesOn_step (symbols : Symbols) (w : Walk) (number : Nat) (line : List Char) :
    NotesOn number ((!line.isEmpty && !(w.tracker.observe line).2) &&
      ((lineForm line).divides line && !(w.tracker.observe line).1.protects))
      (w.step symbols number line).2 := by
  unfold step
  dsimp only
  by_cases hempty : line.isEmpty = true
  · rw [if_pos hempty, hempty]
    exact nil
  · rw [if_neg hempty, Bool.eq_false_iff.2 hempty]
    by_cases hstructural : (w.tracker.observe line).2 = true
    · rw [if_pos hstructural, hstructural]
      exact nil
    · rw [if_neg hstructural, Bool.eq_false_iff.2 hstructural]
      simpa using
        notesOn_statementNotes symbols { w with tracker := (w.tracker.observe line).1 } number line

/-- A finding arises on one of the lines, from the place behind those before it. -/
theorem mem_findings_iff {symbols : Symbols} {lines : List (List Char)} {number : Nat} {w : Walk}
    {d : Diagnostic} :
    d ∈ findings symbols lines number w ↔
      ∃ before line behind, lines = before ++ line :: behind ∧
        d ∈ Note.findings
          ((before.foldl pass w).step symbols (number + before.length) line).2 := by
  induction lines generalizing number w with
  | nil => simp [findings]
  | cons line rest ih =>
    unfold findings
    dsimp only
    rw [List.mem_append, step_fst, ih]
    constructor
    · rintro (hd | ⟨before, line', behind, rfl, hd⟩)
      · exact ⟨[], line, rest, rfl, hd⟩
      · refine ⟨line :: before, line', behind, rfl, ?_⟩
        rw [List.foldl_cons, List.length_cons, Nat.add_comm before.length 1, ← Nat.add_assoc]
        exact hd
    · rintro ⟨before, line', behind, hsplit, hd⟩
      cases before with
      | nil =>
        cases hsplit
        exact .inl hd
      | cons first before =>
        cases hsplit
        refine .inr ⟨before, line', behind, rfl, ?_⟩
        rw [List.foldl_cons, List.length_cons, Nat.add_comm before.length 1, ← Nat.add_assoc] at hd
        exact hd

/-- The findings of a place in the text are those that arise on the line there. -/
theorem mem_findings_on {symbols : Symbols} {before behind : List (List Char)} {line : List Char}
    {number : Nat} {w : Walk} {d : Diagnostic} :
    d ∈ findings symbols (before ++ line :: behind) number w ∧ d.line = number + before.length ↔
      d ∈ Note.findings
        ((before.foldl pass w).step symbols (number + before.length) line).2 := by
  constructor
  · rintro ⟨hd, hline⟩
    obtain ⟨before', line', behind', hsplit, hd'⟩ := mem_findings_iff.1 hd
    have hplace : d.line = number + before'.length := (notesOn_step symbols _ _ line').line d hd'
    obtain ⟨rfl, hrest⟩ := List.append_inj hsplit (by omega)
    cases hrest
    exact hd'
  · intro hd
    exact ⟨mem_findings_iff.2 ⟨before, line, behind, rfl, hd⟩, (notesOn_step symbols _ _ line).line d hd⟩

end Walk

end EvlCheck
