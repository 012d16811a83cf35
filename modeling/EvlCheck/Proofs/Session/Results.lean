/-
Applied results never go back in time. An editor opens, changes and closes documents, submits their
current versions to analysis, and is brought the results in any order, late, twice or not at all. For
each document the results that count are of versions that do not decrease, each counts once, and one
counts only while no later submission of its document was made.

Two components meet here: a workspace, whose versions grow, and a sequencer, whose numbers grow.
`Timeline` links them for a run of both: of two tickets of one document, the one with the smaller
number is not of a later version. For this a document that is opened must not have the number of one
that tickets were issued for, so the numbers of tickets are kept below those to be given out.
-/
import EvlCheck.Proofs.Session.Docket
import EvlCheck.Proofs.Session.Integrity

namespace EvlCheck

section

variable [Build]

/-! ## Sessions -/

/-- A workspace and a sequencer beside each other, with the tickets whose results may come in. -/
structure EditorSession where
  workspace : Workspace
  sequencer : Sequencer := {}
  issued : List Ticket := []

/-- What can happen in a session. -/
inductive SessionEvent where
  | call (call : WorkspaceCall)
  /-- The current version of a document is submitted. -/
  | submit (id : DocumentId)
  /-- A result comes in, for the first time or again. -/
  | arrive (result : Ticket)
  | forget (id : DocumentId)

/-- What an event asks of the sequencer. A document that is not open has no version to submit, and
no result comes in for a ticket that was not issued. -/
def EditorSession.request? (s : EditorSession) : SessionEvent → Option SequencerCall
  | .call _ => none
  | .submit id => (s.workspace.find? id).map fun d => .submit id d.version
  | .arrive result => if result ∈ s.issued then some (.accept result) else none
  | .forget id => some (.forget id)

/-- An event, and the session that it meets. -/
structure SessionTurn where
  before : EditorSession
  event : SessionEvent

namespace SessionTurn

/-- The turn of the sequencer, where it has one. -/
def sequencerTurn? (t : SessionTurn) : Option SequencerTurn :=
  (t.before.request? t.event).map fun call => ⟨t.before.sequencer, call⟩

/-- The ticket of a submission. -/
def issued? (t : SessionTurn) : Option Ticket := t.sequencerTurn?.bind SequencerTurn.issued?

/-- The ticket whose result counts. -/
def accepted? (t : SessionTurn) : Option Ticket := t.sequencerTurn?.bind SequencerTurn.accepted?

/-- The session that a turn leaves. -/
def after (t : SessionTurn) : EditorSession where
  workspace :=
    match t.event with
    | .call call => (Turn.mk t.before.workspace call).after
    | _ => t.before.workspace
  sequencer :=
    match t.sequencerTurn? with
    | some u => u.after
    | none => t.before.sequencer
  issued := t.before.issued ++ t.issued?.toList

end SessionTurn

namespace EditorSession

/-- The turns of a session through which one event happens after another. -/
def turns : EditorSession → List SessionEvent → List SessionTurn
  | _, [] => []
  | s, event :: events => ⟨s, event⟩ :: turns (SessionTurn.mk s event).after events

/-- The session after the events. -/
def run : EditorSession → List SessionEvent → EditorSession
  | s, [] => s
  | s, event :: events => run (SessionTurn.mk s event).after events

end EditorSession

/-! ## One turn -/

namespace SessionTurn

variable {t : SessionTurn} {ticket : Ticket}

theorem exists_of_issued (h : t.issued? = some ticket) :
    ∃ u, t.sequencerTurn? = some u ∧ u.before = t.before.sequencer ∧ u.issued? = some ticket := by
  obtain ⟨u, hu, hissued⟩ := Option.bind_eq_some_iff.1 h
  obtain ⟨call, -, rfl⟩ := Option.map_eq_some_iff.1 hu
  exact ⟨_, hu, rfl, hissued⟩

/-- A ticket is of the current version of an open document. -/
theorem find?_of_issued (h : t.issued? = some ticket) :
    ∃ d, t.before.workspace.find? ticket.document = some d ∧ ticket.version = d.version ∧
      ticket.sequence = t.before.sequencer.lastSequence + 1 ∧
      t.after.workspace = t.before.workspace := by
  obtain ⟨s, event⟩ := t
  cases event with
  | call call => cases h
  | submit id =>
    cases hfind : s.workspace.find? id with
    | none =>
      simp only [issued?, sequencerTurn?, EditorSession.request?, hfind] at h
      cases h
    | some d =>
      simp only [issued?, sequencerTurn?, EditorSession.request?, hfind] at h
      cases h
      exact ⟨d, hfind, rfl, rfl, rfl⟩
  | arrive result =>
    unfold issued? sequencerTurn? EditorSession.request? at h
    dsimp only at h
    split at h <;> cases h
  | forget id => cases h

/-- A result that counts is of a ticket that was issued, and was awaited. -/
theorem awaits_of_accepted (h : t.accepted? = some ticket) :
    ticket ∈ t.before.issued ∧ t.before.sequencer.Awaits ticket := by
  obtain ⟨u, hu, haccepted⟩ := Option.bind_eq_some_iff.1 h
  obtain ⟨call, hcall, rfl⟩ := Option.map_eq_some_iff.1 hu
  obtain ⟨rfl, hawaits⟩ := SequencerTurn.accepted?_eq_some_iff.1 haccepted
  refine ⟨?_, hawaits⟩
  obtain ⟨s, event⟩ := t
  cases event with
  | call call => cases hcall
  | submit id =>
    obtain ⟨d, -, hsubmit⟩ := Option.map_eq_some_iff.1 hcall
    cases hsubmit
  | arrive result =>
    obtain ⟨hmem, hresult⟩ := Option.ite_none_right_eq_some.1 hcall
    cases hresult
    exact hmem
  | forget id => cases hcall

/-- The workspace takes a turn of its own, or none. -/
theorem workspace_after (t : SessionTurn) : t.after.workspace = t.before.workspace ∨
    ∃ call, t.after.workspace = (Turn.mk t.before.workspace call).after := by
  obtain ⟨s, event⟩ := t
  cases event with
  | call call => exact .inr ⟨call, rfl⟩
  | _ => exact .inl rfl

theorem sound_after (hs : t.before.workspace.Sound) : t.after.workspace.Sound := by
  rcases t.workspace_after with hsame | ⟨call, hturn⟩
  · exact hsame ▸ hs
  · exact hturn ▸ Turn.sound_after (t := ⟨t.before.workspace, call⟩) hs

theorem lastNumber_le (t : SessionTurn) :
    t.before.workspace.lastNumber ≤ t.after.workspace.lastNumber := by
  rcases t.workspace_after with hsame | ⟨call, hturn⟩
  · exact Nat.le_of_eq (congrArg Workspace.lastNumber hsame.symm)
  · rw [hturn]
    exact Turn.lastNumber_le ⟨t.before.workspace, call⟩

/-- A document that has a number given out before keeps its version or gets a later one. -/
theorem version_le_after (hs : t.before.workspace.Sound) {id : DocumentId} {d : Document}
    (hgiven : id.number ≤ t.before.workspace.lastNumber)
    (h : t.after.workspace.find? id = some d) :
    ∃ old, t.before.workspace.find? id = some old ∧ old.version ≤ d.version := by
  rcases t.workspace_after with hsame | ⟨call, hturn⟩
  · rw [hsame] at h
    exact ⟨d, h, Nat.le_refl _⟩
  · rw [hturn] at h
    rcases Turn.version_after hs h with ⟨hopened, -⟩ | ⟨old, hold, hversion⟩
    · have hnumber := Turn.number_of_opened hopened
      dsimp only at hnumber
      omega
    · exact ⟨old, hold, hversion ▸ Nat.le_add_right _ _⟩

end SessionTurn

/-! ## Runs -/

/-- The ticket was issued in these turns, and since then nothing was submitted for its document. -/
def SessionTurn.Newest (past : List SessionTurn) (t : Ticket) : Prop :=
  ∃ earlier issue since, past = earlier ++ issue :: since ∧ issue.issued? = some t ∧
    ∀ u ∈ since, ∀ newer, u.issued? = some newer → newer.document ≠ t.document

/-- What the turns of a run say about the tickets of a session. -/
structure Timeline (past : List SessionTurn) (s : EditorSession) : Prop where
  sound : s.workspace.Sound
  docket : Docket (past.filterMap SessionTurn.sequencerTurn?) s.sequencer
  issued_eq : s.issued = past.filterMap SessionTurn.issued?
  accepted : ∀ t ∈ past.filterMap SessionTurn.accepted?, t ∈ s.issued
  /-- A ticket is of a document that has or had a number. -/
  given : ∀ t ∈ s.issued, t.document.number ≤ s.workspace.lastNumber
  version_le : ∀ t ∈ s.issued, ∀ d, s.workspace.find? t.document = some d → t.version ≤ d.version
  /-- The order of the numbers is that of the versions. -/
  ordered : ∀ a ∈ s.issued, ∀ b ∈ s.issued, a.document = b.document → a.sequence < b.sequence →
    a.version ≤ b.version
  /-- A result counts only while its ticket is the last one of its document. -/
  newest : ∀ front turn back t, past = front ++ turn :: back → turn.accepted? = some t →
    SessionTurn.Newest front t

namespace Timeline

theorem nil (preferences : Preferences) : Timeline [] { workspace := { preferences } } where
  sound := (Ledger.nil preferences).toSound
  docket := .nil
  issued_eq := rfl
  accepted := List.forall_mem_nil _
  given := List.forall_mem_nil _
  version_le := List.forall_mem_nil _
  ordered := List.forall_mem_nil _
  newest := by
    intro front turn back t hsplit
    cases front <;> cases hsplit

variable {past : List SessionTurn} {s : EditorSession} {t : SessionTurn}

theorem sequence_le (h : Timeline past s) {ticket : Ticket} (hmem : ticket ∈ s.issued) :
    ticket.sequence ≤ s.sequencer.lastSequence := by
  refine h.docket.sequence_le_of_issued ?_
  rw [List.filterMap_filterMap]
  exact h.issued_eq ▸ hmem

theorem docket_turn (h : Timeline past t.before) :
    Docket ((past ++ [t]).filterMap SessionTurn.sequencerTurn?) t.after.sequencer := by
  rw [List.filterMap_append]
  unfold SessionTurn.after
  cases hturn : t.sequencerTurn? with
  | none =>
    rw [List.filterMap_cons_none hturn, List.filterMap_nil, List.append_nil]
    exact h.docket
  | some u =>
    obtain ⟨call, -, rfl⟩ := Option.map_eq_some_iff.1 hturn
    rw [List.filterMap_cons_some hturn, List.filterMap_nil]
    exact h.docket.turn (u := ⟨t.before.sequencer, call⟩)

/-- The tickets after a turn are the earlier ones and the one that it issued. -/
theorem forall_mem_issued_after {motive : Ticket → Prop}
    (hold : ∀ ticket ∈ t.before.issued, motive ticket)
    (hnew : ∀ ticket, t.issued? = some ticket → motive ticket) :
    ∀ ticket ∈ t.after.issued, motive ticket := by
  unfold SessionTurn.after
  rw [List.forall_mem_append]
  exact ⟨hold, fun ticket hmem => hnew ticket (Option.mem_toList.1 hmem)⟩

theorem version_le_turn (h : Timeline past t.before) : ∀ ticket ∈ t.after.issued, ∀ d,
    t.after.workspace.find? ticket.document = some d → ticket.version ≤ d.version := by
  refine forall_mem_issued_after (fun ticket hmem d hd => ?_) fun ticket hissued d hd => ?_
  · obtain ⟨old, hfind, hle⟩ := SessionTurn.version_le_after h.sound (h.given ticket hmem) hd
    exact Nat.le_trans (h.version_le ticket hmem old hfind) hle
  · obtain ⟨old, hfind, hversion, -, hsame⟩ := SessionTurn.find?_of_issued hissued
    rw [hsame, hfind, Option.some.injEq] at hd
    exact Nat.le_of_eq (hd ▸ hversion)

theorem ordered_turn (h : Timeline past t.before) :
    ∀ a ∈ t.after.issued, ∀ b ∈ t.after.issued, a.document = b.document →
      a.sequence < b.sequence → a.version ≤ b.version := by
  refine forall_mem_issued_after (fun a ha => ?_) fun a hissued => ?_
  · refine forall_mem_issued_after (h.ordered a ha) fun b hissued hdocument _ => ?_
    obtain ⟨d, hfind, hversion, -, -⟩ := SessionTurn.find?_of_issued hissued
    exact hversion ▸ h.version_le a ha d (hdocument ▸ hfind)
  · -- no ticket has a number after that of the new one
    obtain ⟨_, _, _, hlast, -⟩ := SessionTurn.find?_of_issued hissued
    refine forall_mem_issued_after (fun b hb _ hlt => ?_) fun b hother _ hlt => ?_
    · have hle := h.sequence_le hb
      omega
    · cases hissued.symm.trans hother
      exact (Nat.lt_irrefl _ hlt).elim

theorem newest_now (h : Timeline past t.before) {ticket : Ticket}
    (haccepted : t.accepted? = some ticket) : SessionTurn.Newest past ticket := by
  obtain ⟨hmem, hawaits⟩ := SessionTurn.awaits_of_accepted haccepted
  rw [h.issued_eq, List.mem_filterMap] at hmem
  obtain ⟨issue, hpast, hissued⟩ := hmem
  obtain ⟨earlier, since, rfl⟩ := List.append_of_mem hpast
  refine ⟨earlier, issue, since, rfl, hissued, fun u hu newer hnewer hdocument => ?_⟩
  obtain ⟨v, hv, -, hvissued⟩ := SessionTurn.exists_of_issued hissued
  have hsplit : (earlier ++ issue :: since).filterMap SessionTurn.sequencerTurn? =
      earlier.filterMap SessionTurn.sequencerTurn? ++
        v :: since.filterMap SessionTurn.sequencerTurn? := by
    rw [List.filterMap_append, List.filterMap_cons_some hv]
  have hkept := (h.docket.awaits_iff _ v _ ticket hsplit hvissued).1 hawaits
  obtain ⟨w, hw, -, hwissued⟩ := SessionTurn.exists_of_issued hnewer
  exact hkept w (List.mem_filterMap.2 ⟨u, hu, hw⟩) (.overtaken newer hwissued hdocument)

theorem issued_turn (h : Timeline past t.before) :
    t.after.issued = (past ++ [t]).filterMap SessionTurn.issued? := by
  rw [List.filterMap_append, ← h.issued_eq]
  unfold SessionTurn.after
  cases hissued : t.issued? with
  | none => rw [List.filterMap_cons_none hissued]; rfl
  | some ticket => rw [List.filterMap_cons_some hissued]; rfl

theorem accepted_turn (h : Timeline past t.before) :
    ∀ ticket ∈ (past ++ [t]).filterMap SessionTurn.accepted?, ticket ∈ t.after.issued := by
  rw [List.filterMap_append, List.forall_mem_append]
  constructor
  · exact fun ticket hmem => List.mem_append_left _ (h.accepted ticket hmem)
  · intro ticket hmem
    obtain ⟨u, hu, haccepted⟩ := List.mem_filterMap.1 hmem
    obtain rfl := List.mem_singleton.1 hu
    exact List.mem_append_left _ (SessionTurn.awaits_of_accepted haccepted).1

theorem given_turn (h : Timeline past t.before) : ∀ ticket ∈ t.after.issued,
    ticket.document.number ≤ t.after.workspace.lastNumber := by
  refine forall_mem_issued_after (fun ticket hmem => ?_) fun ticket hissued => ?_
  · exact Nat.le_trans (h.given ticket hmem) t.lastNumber_le
  · obtain ⟨d, hfind, -⟩ := SessionTurn.find?_of_issued hissued
    have hopen := h.sound.number_le _ (Workspace.mem_ids_of_find? hfind)
    exact Nat.le_trans hopen t.lastNumber_le

theorem turn (h : Timeline past t.before) : Timeline (past ++ [t]) t.after where
  sound := t.sound_after h.sound
  docket := h.docket_turn
  issued_eq := h.issued_turn
  accepted := h.accepted_turn
  given := h.given_turn
  version_le := h.version_le_turn
  ordered := h.ordered_turn
  newest := by
    intro front turn back ticket hsplit haccepted
    rcases append_singleton_eq_append_cons hsplit with ⟨rfl, rfl, -⟩ | ⟨rest, hpast, -⟩
    · exact h.newest_now haccepted
    · exact h.newest front turn rest ticket hpast haccepted

theorem run (h : Timeline past s) (events : List SessionEvent) :
    Timeline (past ++ s.turns events) (s.run events) := by
  induction events generalizing past s with
  | nil =>
    rw [EditorSession.turns, EditorSession.run, List.append_nil]
    exact h
  | cons event events ih =>
    rw [EditorSession.turns, EditorSession.run, List.append_cons]
    exact ih (turn (t := ⟨s, event⟩) h)

/-- Results count in the order of their numbers. -/
theorem accepted_increasing (h : Timeline past s) :
    (past.filterMap SessionTurn.accepted?).Pairwise fun a b =>
      a.document = b.document → a.sequence < b.sequence := by
  have hsame : past.filterMap SessionTurn.accepted? =
      (past.filterMap SessionTurn.sequencerTurn?).filterMap SequencerTurn.accepted? := by
    rw [List.filterMap_filterMap]
    rfl
  rw [hsame]
  exact h.docket.accepted_increasing

end Timeline

/-- How the results that count follow each other in a run. -/
structure InOrder (past : List SessionTurn) : Prop where
  /-- For each document, no result is of an earlier version than one before it. -/
  versions_le : (past.filterMap SessionTurn.accepted?).Pairwise fun a b =>
    a.document = b.document → a.version ≤ b.version
  /-- No ticket counts twice. -/
  accepted_nodup : (past.filterMap SessionTurn.accepted?).Nodup
  /-- When the result of a ticket counts, nothing was submitted for its document after it. -/
  newest : ∀ front turn back t, past = front ++ turn :: back → turn.accepted? = some t →
    SessionTurn.Newest front t

/-- In every session, whatever happens in it, the results that count are in order. -/
theorem EditorSession.inOrder_run (preferences : Preferences) (events : List SessionEvent) :
    InOrder (({ workspace := { preferences } } : EditorSession).turns events) := by
  have h : Timeline _ (({ workspace := { preferences } } : EditorSession).run events) :=
    (Timeline.nil preferences).run events
  -- Numbers of accepted tickets grow for a document, and versions grow with numbers.
  have hincreasing := h.accepted_increasing
  exact
    { versions_le := by
        refine hincreasing.imp_of_mem fun ha hb hlt hdocument => ?_
        exact h.ordered _ (h.accepted _ ha) _ (h.accepted _ hb) hdocument (hlt hdocument)
      accepted_nodup := by
        refine hincreasing.imp fun hlt hsame => ?_
        subst hsame
        exact Nat.lt_irrefl _ (hlt rfl)
      newest := h.newest }

end

/-- The result for an overtaken text is discarded, and a result that comes twice counts once. -/
example : (({ workspace := {} } : EditorSession).turns
    [.call (.openDocument "a" "int x"), .submit ⟨1⟩, .call (.update ⟨1⟩ "int y"), .submit ⟨1⟩,
      .arrive ⟨⟨1⟩, 1, 1⟩, .arrive ⟨⟨1⟩, 2, 2⟩, .arrive ⟨⟨1⟩, 2, 2⟩]).filterMap
      SessionTurn.accepted? = [⟨⟨1⟩, 2, 2⟩] := by decide

end EvlCheck
