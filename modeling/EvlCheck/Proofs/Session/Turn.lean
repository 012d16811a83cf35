/-
Runs of a workspace, whatever is asked of it. A turn is one call on the workspace that the turns
before it left. `Turn.course` tells once what a turn can do to the open documents, and what it needs
for it; what holds of runs is shown by its four cases.

The open documents are a map from numbers to documents. `find?` is the view of it: each operation
has one equation for the view, one for the numbers, and nothing else is said of the list.
-/
import EvlCheck.Session.Workspace

namespace EvlCheck

/-! ## The open documents as a map -/

namespace Workspace

/-- The workspace with one more document, which has the last number. -/
def add (w : Workspace) (d : Document) : Workspace :=
  { w with documents := w.documents ++ [d], lastNumber := d.id.number }

/-- The workspace without a document. -/
def remove (w : Workspace) (id : DocumentId) : Workspace :=
  { w with documents := w.documents.filter fun other => other.id ≠ id }

theorem size_eq (w : Workspace) : w.size = w.ids.length := (List.length_map _).symm

theorem ids_add (w : Workspace) (d : Document) : (w.add d).ids = w.ids ++ [d.id] := by
  unfold ids add
  rw [List.map_append, List.map_singleton]

/-- A document is replaced by one of the same number. -/
theorem id_replaced (d old : Document) : (if old.id = d.id then d else old).id = old.id := by
  split
  · next h => exact h.symm
  · rfl

theorem ids_put (w : Workspace) (d : Document) : (w.put d).ids = w.ids := by
  unfold ids put
  rw [List.map_map]
  exact List.map_congr_left fun old _ => id_replaced d old

theorem ids_remove (w : Workspace) (id : DocumentId) :
    (w.remove id).ids = w.ids.filter fun other => other ≠ id := by
  unfold ids remove
  rw [List.filter_map]
  rfl

theorem id_eq_of_find? {w : Workspace} {id : DocumentId} {d : Document}
    (h : w.find? id = some d) : d.id = id := by
  have hkey := List.find?_some h
  exact eq_of_beq hkey

theorem find?_eq_none_iff {w : Workspace} {id : DocumentId} :
    w.find? id = none ↔ id ∉ w.ids := by
  unfold find? ids
  rw [List.find?_eq_none, List.mem_map]
  simp only [beq_iff_eq, not_exists, not_and]

theorem mem_ids_of_find? {w : Workspace} {id : DocumentId} {d : Document}
    (h : w.find? id = some d) : id ∈ w.ids := by
  refine Decidable.byContradiction fun hmem => ?_
  rw [find?_eq_none_iff.2 hmem] at h
  cases h

theorem get_eq_ok_iff {w : Workspace} {id : DocumentId} {d : Document} :
    w.get id = .ok d ↔ w.find? id = some d := by
  unfold get
  cases w.find? id with
  | none => simp
  | some old => simp

theorem find?_add (w : Workspace) (d : Document) (id : DocumentId) :
    (w.add d).find? id = (w.find? id).or (if d.id = id then some d else none) := by
  unfold find? add
  rw [List.find?_append, List.find?_singleton]
  simp only [beq_iff_eq]

theorem find?_put (w : Workspace) (d : Document) (id : DocumentId) :
    (w.put d).find? id = if d.id = id then (w.find? id).map fun _ => d else w.find? id := by
  have hkey : ((fun d => d.id == id) ∘ fun old => if old.id = d.id then d else old) =
      fun old : Document => old.id == id := by
    funext old
    rw [Function.comp_apply, id_replaced]
  have hput : (w.put d).find? id = (w.find? id).map fun old => if old.id = d.id then d else old := by
    unfold find? put
    rw [List.find?_map, hkey]
  rw [hput]
  cases hfind : w.find? id with
  | none => rw [Option.map_none, Option.map_none, ite_self]
  | some old =>
    rw [Option.map_some, Option.map_some, id_eq_of_find? hfind]
    by_cases h : d.id = id
    · rw [if_pos h, if_pos h.symm]
    · rw [if_neg h, if_neg (Ne.symm h)]

theorem find?_remove (w : Workspace) (gone id : DocumentId) :
    (w.remove gone).find? id = if gone = id then none else w.find? id := by
  split
  · next h =>
    rw [find?_eq_none_iff, ids_remove, h]
    simp
  · next h =>
    unfold find? remove
    rw [List.find?_filter]
    congr 1
    funext d
    by_cases hd : d.id = id
    · simp [hd, Ne.symm h]
    · simp [hd]

end Workspace

/-! ## Calls -/

/-- What can be asked of a workspace. What lexes a text comes with the lexical preferences that the
environment has by then. -/
inductive WorkspaceCall where
  | openDocument (uri text : String)
  | update (id : DocumentId) (text : String)
  | close (id : DocumentId)
  | get (id : DocumentId)
  | analyze (lexical : LexicalPreferences) (id : DocumentId)
  | codeActions (lexical : LexicalPreferences) (id : DocumentId) (cursor : Option Nat)
  | applyAction (id : DocumentId) (action : CodeAction)

/-- The document that a call is about. One that is to be opened has no number yet. -/
def WorkspaceCall.document? : WorkspaceCall → Option DocumentId
  | .openDocument .. => none
  | .update id _ | .close id | .get id | .analyze _ id | .codeActions _ id _ | .applyAction id _ =>
    some id

inductive WorkspaceAnswer where
  | opened (id : DocumentId)
  | version (number : Nat)
  | document (d : Document)
  | snapshot (s : Snapshot)
  | actions (offered : List CodeAction)

/-- The step with its result as an answer. -/
def WorkspaceStep.answering {α : Type} (s : WorkspaceStep α) (f : α → WorkspaceAnswer) :
    WorkspaceStep WorkspaceAnswer :=
  ⟨s.result.map f, s.workspace, s.journal⟩

/-- Does what is asked. -/
def Workspace.perform [Build] (w : Workspace) : WorkspaceCall → WorkspaceStep WorkspaceAnswer
  | .openDocument uri text => (w.openDocument uri text).answering .opened
  | .update id text => (w.update id text).answering .version
  | .close id => (w.close id).answering .document
  | .get id => ⟨(w.get id).map .document, w, #[]⟩
  | .analyze lexical id => (w.analyze lexical id).answering .snapshot
  | .codeActions lexical id cursor => (w.codeActions lexical id cursor).answering .actions
  | .applyAction id action => (w.applyAction id action).answering .version

/-! ## What each call leads to -/

/-- The step has this result and leaves this workspace. -/
structure WorkspaceStep.Leads {α : Type} (s : WorkspaceStep α) (r : Except SessionError α)
    (w : Workspace) : Prop where
  result : s.result = r
  workspace : s.workspace = w

namespace Workspace

variable [Build] {w : Workspace} {id : DocumentId} {d : Document}

/-- A call about a document that is not open is refused for that. -/
theorem perform_unknown {call : WorkspaceCall} (hcall : call.document? = some id)
    (h : w.find? id = none) : (w.perform call).Leads (.error (.unknownDocument id)) w := by
  cases call with
  | openDocument uri text => cases hcall
  | _ =>
    cases hcall
    simp only [perform, update, close, get, analyze, codeActions, applyAction, h]
    exact ⟨rfl, rfl⟩

theorem perform_openDocument (h : w.size < Limit.openDocuments) (uri text : String) :
    (w.perform (.openDocument uri text)).Leads (.ok (.opened ⟨w.lastNumber + 1⟩))
      (w.add { id := ⟨w.lastNumber + 1⟩, uri, text }) := by
  simp only [perform, openDocument, if_neg (Nat.not_le.2 h)]
  exact ⟨rfl, rfl⟩

theorem perform_openDocument_full (h : Limit.openDocuments ≤ w.size) (uri text : String) :
    (w.perform (.openDocument uri text)).Leads (.error (.tooManyDocuments uri)) w := by
  simp only [perform, openDocument, if_pos h]
  exact ⟨rfl, rfl⟩

theorem perform_update (h : w.find? id = some d) (text : String) :
    (w.perform (.update id text)).Leads (.ok (.version (d.version + 1)))
      (w.put (d.setText text)) := by
  simp only [perform, update, h]
  exact ⟨rfl, rfl⟩

theorem perform_close (h : w.find? id = some d) :
    (w.perform (.close id)).Leads (.ok (.document d)) (w.remove id) := by
  simp only [perform, close, h]
  exact ⟨rfl, rfl⟩

theorem perform_get (h : w.find? id = some d) :
    (w.perform (.get id)).Leads (.ok (.document d)) w := by
  simp only [perform, get, h]
  exact ⟨rfl, rfl⟩

theorem perform_analyze (h : w.find? id = some d) (lexical : LexicalPreferences) :
    (w.perform (.analyze lexical id)).Leads
      (.ok (.snapshot ⟨id, d.version, (Analysis.ofSource lexical w.preferences d.text).syntactic,
        (Analysis.ofSource lexical w.preferences d.text).semantic⟩)) w := by
  simp only [perform, analyze, h]
  exact ⟨rfl, rfl⟩

theorem perform_codeActions (h : w.find? id = some d) (lexical : LexicalPreferences)
    (cursor : Option Nat) :
    (w.perform (.codeActions lexical id cursor)).Leads
      (.ok (.actions (CodeAction.generate w.preferences.analysis
        (Analysis.ofSource lexical w.preferences d.text).semantic d.text.toList cursor
        d.version).1)) w := by
  simp only [perform, codeActions, h]
  exact ⟨rfl, rfl⟩

section ApplyAction

variable {action : CodeAction}

theorem perform_applyAction_stale {stale : Edit} (h : w.find? id = some d)
    (hstale : action.edits.find? (fun e => e.version ≠ d.version) = some stale) :
    (w.perform (.applyAction id action)).Leads
      (.error (.staleEdit id stale.version d.version)) w := by
  simp only [perform, applyAction, h, hstale]
  exact ⟨rfl, rfl⟩

theorem perform_applyAction_nothing (h : w.find? id = some d) (hnone : action.edits = []) :
    (w.perform (.applyAction id action)).Leads (.ok (.version d.version)) w := by
  simp only [perform, applyAction, h, hnone, List.find?_nil]
  exact ⟨rfl, rfl⟩

variable (hcurrent : action.edits.find? (fun e => e.version ≠ d.version) = none)
  (hsome : action.edits.isEmpty = false)

include hcurrent hsome

theorem perform_applyAction_invalid {cause : EditError} (h : w.find? id = some d)
    (herror : applyEdits d.text.toList action.edits = .error cause) :
    (w.perform (.applyAction id action)).Leads (.error (.invalidEdit id cause)) w := by
  simp only [perform, applyAction, h, hcurrent, hsome, herror]
  exact ⟨rfl, rfl⟩

theorem perform_applyAction {text : List Char} (h : w.find? id = some d)
    (hok : applyEdits d.text.toList action.edits = .ok text) :
    (w.perform (.applyAction id action)).Leads (.ok (.version (d.version + 1)))
      (w.put (d.setText (String.ofList text))) := by
  simp only [perform, applyAction, h, hcurrent, hsome, hok]
  exact ⟨rfl, rfl⟩

end ApplyAction

end Workspace

/-! ## Turns -/

/-- A call, and the workspace that it meets. -/
structure Turn where
  before : Workspace
  call : WorkspaceCall

/-- What a call has done to a document. -/
inductive DocumentChange where
  | opened (id : DocumentId)
  /-- The document has another text. -/
  | revised (id : DocumentId)
  | closed (id : DocumentId)
  deriving DecidableEq

def DocumentChange.document : DocumentChange → DocumentId
  | .opened id | .revised id | .closed id => id

namespace Turn

variable [Build]

def result (t : Turn) : Except SessionError WorkspaceAnswer := (t.before.perform t.call).result

/-- The workspace that a turn leaves. -/
def after (t : Turn) : Workspace := (t.before.perform t.call).workspace

/-- What a turn has changed, from what was asked and answered: a text is revised by an update, and
by an action that has edits. -/
def change? (t : Turn) : Option DocumentChange :=
  match t.call, t.result with
  | .openDocument .., .ok (.opened id) => some (.opened id)
  | .update id _, .ok _ => some (.revised id)
  | .applyAction id action, .ok _ => if action.edits.isEmpty then none else some (.revised id)
  | .close id, .ok _ => some (.closed id)
  | _, _ => none

/-- The number that a turn gave to a new document. -/
def opened? (t : Turn) : Option DocumentId :=
  match t.change? with
  | some (.opened id) => some id
  | _ => none

/-- Why a call is refused. -/
inductive Refusal (t : Turn) : SessionError → Prop
  | unknown {id : DocumentId} (about : t.call.document? = some id)
      (notOpen : t.before.find? id = none) : Refusal t (.unknownDocument id)
  | full {uri text : String} (call : t.call = .openDocument uri text)
      (full : Limit.openDocuments ≤ t.before.size) : Refusal t (.tooManyDocuments uri)
  | stale {id : DocumentId} {action : CodeAction} {d : Document} {e : Edit}
      (call : t.call = .applyAction id action) (found : t.before.find? id = some d)
      (edit : e ∈ action.edits) (other : e.version ≠ d.version) :
      Refusal t (.staleEdit id e.version d.version)
  | invalid {id : DocumentId} {action : CodeAction} {d : Document} {cause : EditError}
      (call : t.call = .applyAction id action) (found : t.before.find? id = some d)
      (failed : applyEdits d.text.toList action.edits = .error cause) :
      Refusal t (.invalidEdit id cause)

/-- The way a turn goes, by its change. One that is refused, or that only asks, leaves everything as
it was; the others change one document each. -/
inductive Course (t : Turn) : Option DocumentChange → Prop
  | still (why : ∀ e, t.result = .error e → t.Refusal e) (after : t.after = t.before) :
      Course t none
  | opened (uri text : String) (room : t.before.size < Limit.openDocuments)
      (result : t.result = .ok (.opened ⟨t.before.lastNumber + 1⟩))
      (after : t.after = t.before.add { id := ⟨t.before.lastNumber + 1⟩, uri, text }) :
      Course t (some (.opened ⟨t.before.lastNumber + 1⟩))
  | revised (id : DocumentId) (d : Document) (text : String) (about : t.call.document? = some id)
      (found : t.before.find? id = some d) (result : t.result = .ok (.version (d.version + 1)))
      (after : t.after = t.before.put (d.setText text)) : Course t (some (.revised id))
  | closed (id : DocumentId) (d : Document) (about : t.call.document? = some id)
      (found : t.before.find? id = some d) (result : t.result = .ok (.document d))
      (after : t.after = t.before.remove id) : Course t (some (.closed id))

variable {w : Workspace} {id : DocumentId} {d : Document}

theorem course_of_error {t : Turn} {e : SessionError} (why : t.Refusal e)
    (h : (t.before.perform t.call).Leads (.error e) t.before) : t.Course t.change? := by
  have hresult : t.result = .error e := h.result
  have hnone : t.change? = none := by
    unfold change?
    rw [hresult]
    cases t.call <;> rfl
  rw [hnone]
  refine .still (fun e' he' => ?_) h.workspace
  cases hresult.symm.trans he'
  exact why

theorem course_of_answer {t : Turn} {answer : WorkspaceAnswer} (hnone : t.change? = none)
    (h : (t.before.perform t.call).Leads (.ok answer) t.before) : t.Course t.change? := by
  rw [hnone]
  refine .still (fun e he => ?_) h.workspace
  cases h.result.symm.trans he

theorem course_openDocument (w : Workspace) (uri text : String) :
    (Turn.mk w (.openDocument uri text)).Course (Turn.mk w (.openDocument uri text)).change? := by
  by_cases hroom : w.size < Limit.openDocuments
  · have h := Workspace.perform_openDocument hroom uri text
    rw [change?, result, h.result]
    exact .opened uri text hroom h.result h.workspace
  · have hfull := Nat.not_lt.1 hroom
    exact course_of_error (.full rfl hfull) (Workspace.perform_openDocument_full hfull uri text)

theorem course_applyAction (hfind : w.find? id = some d) (action : CodeAction) :
    (Turn.mk w (.applyAction id action)).Course (Turn.mk w (.applyAction id action)).change? := by
  cases hstale : action.edits.find? (fun e => e.version ≠ d.version) with
  | some e =>
    have hother := List.find?_some hstale
    exact course_of_error
      (.stale rfl hfind (List.mem_of_find?_eq_some hstale) (of_decide_eq_true hother))
      (Workspace.perform_applyAction_stale hfind hstale)
  | none =>
    cases hempty : action.edits.isEmpty with
    | true =>
      have h := Workspace.perform_applyAction_nothing hfind (List.isEmpty_iff.1 hempty)
      exact course_of_answer (by simp only [change?, result, h.result, hempty, if_true]) h
    | false =>
      cases happly : applyEdits d.text.toList action.edits with
      | error cause =>
        exact course_of_error (.invalid rfl hfind happly)
          (Workspace.perform_applyAction_invalid hstale hempty hfind happly)
      | ok text =>
        have h := Workspace.perform_applyAction hstale hempty hfind happly
        simp only [change?, result, h.result, hempty, Bool.false_eq_true, if_false]
        exact .revised id d (String.ofList text) rfl hfind h.result h.workspace

theorem course (t : Turn) : t.Course t.change? := by
  obtain ⟨w, call⟩ := t
  cases hcall : call.document? with
  | none =>
    cases call with
    | openDocument uri text => exact course_openDocument w uri text
    | _ => cases hcall
  | some id =>
    cases hfind : w.find? id with
    | none => exact course_of_error (.unknown hcall hfind) (Workspace.perform_unknown hcall hfind)
    | some d =>
      cases call with
      | openDocument uri text => cases hcall
      | update other text =>
        cases hcall
        have h := Workspace.perform_update hfind text
        rw [change?, result, h.result]
        exact .revised id d text rfl hfind h.result h.workspace
      | close other =>
        cases hcall
        have h := Workspace.perform_close hfind
        rw [change?, result, h.result]
        exact .closed id d rfl hfind h.result h.workspace
      | get other =>
        cases hcall
        exact course_of_answer rfl (Workspace.perform_get hfind)
      | analyze lexical other =>
        cases hcall
        exact course_of_answer rfl (Workspace.perform_analyze hfind lexical)
      | codeActions lexical other cursor =>
        cases hcall
        exact course_of_answer rfl (Workspace.perform_codeActions hfind lexical cursor)
      | applyAction other action =>
        cases hcall
        exact course_applyAction hfind action

/-- What a turn with this change did. -/
theorem course_of_change {t : Turn} {c : Option DocumentChange} (h : t.change? = c) : t.Course c :=
  h ▸ t.course

end Turn

namespace Workspace

/-- The turns that a workspace takes when it is asked one call after another. -/
def turns [Build] : Workspace → List WorkspaceCall → List Turn
  | _, [] => []
  | w, call :: calls => ⟨w, call⟩ :: turns (Turn.mk w call).after calls

/-- The workspace after the calls. -/
def run [Build] : Workspace → List WorkspaceCall → Workspace
  | w, [] => w
  | w, call :: calls => run (Turn.mk w call).after calls

end Workspace

end EvlCheck
