/-
A workspace keeps its documents through every run. However it is asked, no more documents are open
than the limit allows, a number is given out once and is void when its document is closed, a version
counts the texts of a document, what is refused changes nothing, and what is done changes one
document.

A run is told by its ledger (`Ledger`): what the turns so far say about the documents that are open
now. Each turn keeps the ledger, and so does a run.
-/
import EvlCheck.Proofs.Session.Turn
import Mathlib.Data.List.Nodup

namespace EvlCheck

/-! ## Documents through one turn -/

/-- The open documents are within the limit and have numbers of their own, from those given out. -/
structure Workspace.Sound [Build] (w : Workspace) : Prop where
  size_le : w.size ≤ Limit.openDocuments
  ids_nodup : w.ids.Nodup
  number_le : ∀ id ∈ w.ids, id.number ≤ w.lastNumber

namespace Workspace.Sound

variable [Build] {w : Workspace}

/-- The next number is that of no open document. -/
theorem next_not_mem (h : w.Sound) : (⟨w.lastNumber + 1⟩ : DocumentId) ∉ w.ids := by
  intro hmem
  exact Nat.not_succ_le_self _ (h.number_le _ hmem)

theorem add {d : Document} (h : w.Sound) (hroom : w.size < Limit.openDocuments)
    (hid : d.id = ⟨w.lastNumber + 1⟩) : (w.add d).Sound := by
  have hlast : (w.add d).lastNumber = w.lastNumber + 1 := congrArg DocumentId.number hid
  refine ⟨?_, ?_, ?_⟩
  · rw [size_eq, ids_add, List.length_append, ← size_eq]
    exact hroom
  · rw [ids_add, hid]
    exact List.nodup_append.2 ⟨h.ids_nodup, List.nodup_singleton _, by
      intro id hmem new hnew heq
      rw [List.mem_singleton] at hnew
      exact h.next_not_mem (hnew ▸ heq ▸ hmem)⟩
  · rw [ids_add, hlast, List.forall_mem_append, List.forall_mem_singleton, hid]
    exact ⟨fun id hmem => Nat.le_succ_of_le (h.number_le id hmem), Nat.le_refl _⟩

theorem put (h : w.Sound) (d : Document) : (w.put d).Sound := by
  refine ⟨?_, ?_, ?_⟩
  · rw [size_eq, ids_put, ← size_eq]
    exact h.size_le
  · rw [ids_put]
    exact h.ids_nodup
  · rw [ids_put]
    exact h.number_le

theorem remove (h : w.Sound) (id : DocumentId) : (w.remove id).Sound := by
  refine ⟨?_, ?_, ?_⟩
  · rw [size_eq, ids_remove]
    exact Nat.le_trans (List.length_filter_le _ _) (size_eq w ▸ h.size_le)
  · rw [ids_remove]
    exact h.ids_nodup.filter _
  · rw [ids_remove]
    exact fun other hmem => h.number_le other (List.mem_filter.1 hmem).1

end Workspace.Sound

namespace Turn

variable [Build] {t : Turn} {id : DocumentId}

theorem sound_after (h : t.before.Sound) : t.after.Sound := by
  generalize hc : t.change? = c
  cases course_of_change hc with
  | still _ after => rw [after]; exact h
  | opened _ _ room _ after => rw [after]; exact h.add room rfl
  | revised _ _ _ _ _ _ after => rw [after]; exact h.put _
  | closed id _ _ _ _ after => rw [after]; exact h.remove id

/-- What is refused is refused for cause, and changes nothing. -/
theorem refusal_of_error {e : SessionError} (h : t.result = .error e) :
    t.Refusal e ∧ t.after = t.before := by
  generalize hc : t.change? = c
  cases course_of_change hc with
  | still why after => exact ⟨why e h, after⟩
  | opened _ _ _ result => rw [result] at h; cases h
  | revised _ _ _ _ _ result => rw [result] at h; cases h
  | closed _ _ _ _ result => rw [result] at h; cases h

/-- A turn changes no document but the one that its change is about. -/
theorem find?_after (h : ∀ c, t.change? = some c → c.document ≠ id) :
    t.after.find? id = t.before.find? id := by
  generalize hc : t.change? = c at h
  cases course_of_change hc with
  | still _ after => rw [after]
  | opened _ _ _ _ after =>
    have hne : (⟨t.before.lastNumber + 1⟩ : DocumentId) ≠ id := h _ rfl
    rw [after, Workspace.find?_add, if_neg hne, Option.or_none]
  | revised other d text _ found _ after =>
    have hne : (d.setText text).id ≠ id := Workspace.id_eq_of_find? found ▸ h _ rfl
    rw [after, Workspace.find?_put, if_neg hne]
  | closed other _ _ _ _ after =>
    have hne : other ≠ id := h _ rfl
    rw [after, Workspace.find?_remove, if_neg hne]

/-- A turn changes no document but the one it is asked about, and the one it opens. -/
theorem find?_after_of_not_about (habout : t.call.document? ≠ some id)
    (hopened : t.result ≠ .ok (.opened id)) : t.after.find? id = t.before.find? id := by
  refine find?_after fun c hc hid => ?_
  cases course_of_change hc with
  | opened _ _ _ result => exact hopened (hid ▸ result)
  | revised _ _ _ about => exact habout (hid ▸ about)
  | closed _ _ about => exact habout (hid ▸ about)

theorem find?_after_opened (hs : t.before.Sound) (h : t.change? = some (.opened id)) :
    ∃ uri text, t.after.find? id = some { id, uri, text } := by
  cases course_of_change h with
  | opened uri text _ _ after =>
    have hfresh := Workspace.find?_eq_none_iff.2 hs.next_not_mem
    refine ⟨uri, text, ?_⟩
    rw [after, Workspace.find?_add, hfresh, Option.none_or, if_pos rfl]

theorem find?_after_revised (h : t.change? = some (.revised id)) :
    ∃ d text, t.before.find? id = some d ∧ t.after.find? id = some (d.setText text) := by
  cases course_of_change h with
  | revised _ d text _ found _ after =>
    have hid : (d.setText text).id = id := Workspace.id_eq_of_find? (d := d) found
    refine ⟨d, text, found, ?_⟩
    rw [after, Workspace.find?_put, if_pos hid, found, Option.map_some]

theorem find?_after_closed (h : t.change? = some (.closed id)) : t.after.find? id = none := by
  cases course_of_change h with
  | closed _ _ _ _ _ after => rw [after, Workspace.find?_remove, if_pos rfl]

/-- A version is 1 when its document is opened, and grows by one with each revision. -/
theorem version_after {d : Document} (hs : t.before.Sound) (h : t.after.find? id = some d) :
    (t.change? = some (.opened id) ∧ d.version = 1) ∨
      ∃ old, t.before.find? id = some old ∧
        d.version = old.version + if t.change? = some (.revised id) then 1 else 0 := by
  by_cases habout : ∃ c, t.change? = some c ∧ c.document = id
  · obtain ⟨c, hc, hid⟩ := habout
    cases c with
    | opened other =>
      obtain rfl : other = id := hid
      obtain ⟨uri, text, hnew⟩ := find?_after_opened hs hc
      cases hnew.symm.trans h
      exact .inl ⟨hc, rfl⟩
    | revised other =>
      obtain rfl : other = id := hid
      obtain ⟨old, text, hold, hnew⟩ := find?_after_revised hc
      cases hnew.symm.trans h
      exact .inr ⟨old, hold, by rw [if_pos hc]; rfl⟩
    | closed other =>
      obtain rfl : other = id := hid
      cases (find?_after_closed hc).symm.trans h
  · have hsame : t.after.find? id = t.before.find? id :=
      find?_after fun c hc hid => habout ⟨c, hc, hid⟩
    have hkept : t.change? ≠ some (.revised id) := fun hc => habout ⟨_, hc, rfl⟩
    exact .inr ⟨d, hsame ▸ h, by rw [if_neg hkept, Nat.add_zero]⟩

/-- A turn gives out the next number, or none. -/
theorem opened?_or_lastNumber (t : Turn) :
    (t.opened? = none ∧ t.after.lastNumber = t.before.lastNumber) ∨
      (t.opened? = some ⟨t.before.lastNumber + 1⟩ ∧
        t.after.lastNumber = t.before.lastNumber + 1) := by
  unfold opened?
  generalize hc : t.change? = c
  cases course_of_change hc with
  | still _ after => rw [after]; exact .inl ⟨rfl, rfl⟩
  | opened _ _ _ _ after => rw [after]; exact .inr ⟨rfl, rfl⟩
  | revised _ _ _ _ _ _ after => rw [after]; exact .inl ⟨rfl, rfl⟩
  | closed _ _ _ _ _ after => rw [after]; exact .inl ⟨rfl, rfl⟩

theorem lastNumber_le (t : Turn) : t.before.lastNumber ≤ t.after.lastNumber := by
  rcases t.opened?_or_lastNumber with ⟨-, h⟩ | ⟨-, h⟩
  · exact Nat.le_of_eq h.symm
  · exact Nat.le_of_lt (Nat.lt_of_succ_le (Nat.le_of_eq h.symm))

theorem number_of_opened (h : t.change? = some (.opened id)) :
    id.number = t.before.lastNumber + 1 := by
  cases course_of_change h with
  | opened => rfl

/-- A document that is changed has a number that was given out, before the turn or in it. -/
theorem number_le_of_change {c : DocumentChange} (hs : t.before.Sound) (h : t.change? = some c) :
    c.document.number ≤ t.after.lastNumber := by
  cases course_of_change h with
  | opened _ _ _ _ after => rw [after]; exact Nat.le_refl _
  | revised _ _ _ _ found =>
    exact Nat.le_trans (hs.number_le _ (Workspace.mem_ids_of_find? found)) t.lastNumber_le
  | closed _ _ _ found =>
    exact Nat.le_trans (hs.number_le _ (Workspace.mem_ids_of_find? found)) t.lastNumber_le

/-- A number that was given out and is not open is not open after a turn. -/
theorem not_mem_ids_after (hgiven : id.number ≤ t.before.lastNumber) (h : id ∉ t.before.ids) :
    id ∉ t.after.ids := by
  intro hmem
  generalize hc : t.change? = c
  cases course_of_change hc with
  | still _ after => exact h (after ▸ hmem)
  | opened _ _ _ _ after =>
    rw [after, Workspace.ids_add, List.mem_append, List.mem_singleton] at hmem
    rcases hmem with hmem | rfl
    · exact h hmem
    · exact Nat.not_succ_le_self _ hgiven
  | revised _ _ _ _ _ _ after => rw [after, Workspace.ids_put] at hmem; exact h hmem
  | closed _ _ _ _ _ after =>
    rw [after, Workspace.ids_remove] at hmem
    exact h (List.mem_filter.1 hmem).1

end Turn

/-! ## Runs -/

/-- What the turns of a run say about the documents that are open after it. -/
structure Ledger [Build] (past : List Turn) (w : Workspace) : Prop extends w.Sound where
  opened : past.filterMap Turn.opened? = (List.range w.lastNumber).map fun n => ⟨n + 1⟩
  /-- What was changed has a number that was given out. -/
  given : ∀ t ∈ past, ∀ c, t.change? = some c → c.document.number ≤ w.lastNumber
  closed : ∀ t ∈ past, ∀ id, t.change? = some (.closed id) → id ∉ w.ids
  version : ∀ id d, w.find? id = some d →
    d.version = 1 + past.countP fun t => t.change? = some (.revised id)

namespace Ledger

theorem nil [Build] (preferences : Preferences) : Ledger [] { preferences } where
  size_le := Nat.zero_le _
  ids_nodup := List.nodup_nil
  number_le := List.forall_mem_nil _
  opened := rfl
  given := List.forall_mem_nil _
  closed := List.forall_mem_nil _
  version := by
    intro id d h
    cases h

/-- A document that is opened in a turn was not revised before. -/
theorem countP_eq_zero [Build] {past : List Turn} {w : Workspace} (h : Ledger past w)
    {id : DocumentId} (hid : w.lastNumber < id.number) :
    (past.countP fun t => t.change? = some (.revised id)) = 0 := by
  refine List.countP_eq_zero.2 fun t ht hchange => ?_
  exact Nat.not_le_of_lt hid (h.given t ht _ (of_decide_eq_true hchange))

theorem turn [Build] {past : List Turn} {t : Turn} (h : Ledger past t.before) :
    Ledger (past ++ [t]) t.after where
  toSound := Turn.sound_after h.toSound
  opened := by
    rw [List.filterMap_append, h.opened]
    rcases t.opened?_or_lastNumber with ⟨hnone, hlast⟩ | ⟨hsome, hlast⟩
    · rw [hlast, List.filterMap_cons_none hnone, List.filterMap_nil, List.append_nil]
    · rw [hlast, List.filterMap_cons_some hsome, List.range_succ, List.map_append]
      rfl
  given := by
    rw [List.forall_mem_append, List.forall_mem_singleton]
    exact ⟨fun u hu c hc => Nat.le_trans (h.given u hu c hc) t.lastNumber_le,
      fun c hc => Turn.number_le_of_change h.toSound hc⟩
  closed := by
    rw [List.forall_mem_append, List.forall_mem_singleton]
    exact ⟨fun u hu id hid => Turn.not_mem_ids_after (h.given u hu _ hid) (h.closed u hu id hid),
      fun id hid => Workspace.find?_eq_none_iff.1 (Turn.find?_after_closed hid)⟩
  version := by
    intro id d hd
    simp only [List.countP_append, List.countP_singleton, decide_eq_true_eq]
    rcases Turn.version_after h.toSound hd with ⟨hopened, hversion⟩ | ⟨old, hold, hversion⟩
    · have hlt : t.before.lastNumber < id.number := by rw [t.number_of_opened hopened]; omega
      have hnew := h.countP_eq_zero hlt
      rw [hversion, hnew, hopened, if_neg (by simp)]
    · rw [hversion, h.version id old hold, Nat.add_assoc]

theorem run [Build] {past : List Turn} {w : Workspace} (h : Ledger past w)
    (calls : List WorkspaceCall) :
    Ledger (past ++ w.turns calls) (w.run calls) := by
  induction calls generalizing past w with
  | nil =>
    rw [Workspace.turns, Workspace.run, List.append_nil]
    exact h
  | cons call calls ih =>
    rw [Workspace.turns, Workspace.run, List.append_cons]
    exact ih (turn (t := ⟨w, call⟩) h)

end Ledger

namespace Workspace

/-- What holds of a workspace after the turns of a run, and of these turns. -/
structure Integrity [Build] (w : Workspace) (past : List Turn) : Prop where
  size_le : w.size ≤ Limit.openDocuments
  ids_nodup : w.ids.Nodup
  /-- No number is given out twice. -/
  opened_nodup : (past.filterMap Turn.opened?).Nodup
  /-- The number of a closed document is void: whatever is asked about it is refused. -/
  closed_unknown : ∀ t ∈ past, ∀ id, t.change? = some (.closed id) →
    ∀ call, call.document? = some id → (w.perform call).result = .error (.unknownDocument id)
  /-- A version counts the texts of a document: the first one and its revisions. -/
  version_eq : ∀ id d, w.get id = .ok d →
    d.version = 1 + past.countP fun t => t.change? = some (.revised id)
  /-- What is refused is refused for cause, and changes nothing. -/
  refused : ∀ t ∈ past, ∀ e, t.result = .error e → t.Refusal e ∧ t.after = t.before
  /-- No document changes but the one that was asked about, or opened. -/
  get_after : ∀ t ∈ past, ∀ id, t.call.document? ≠ some id → t.result ≠ .ok (.opened id) →
    t.after.get id = t.before.get id

/-- A new workspace keeps its integrity through every sequence of calls. The calls are any, so this
holds at each moment of a longer run. -/
theorem integrity_run [Build] (preferences : Preferences) (calls : List WorkspaceCall) :
    let w : Workspace := { preferences }
    (w.run calls).Integrity (w.turns calls) := by
  intro w
  -- The ledger holds of every run; the documents opened in it are numbered in turn.
  have h : Ledger (w.turns calls) (w.run calls) := (Ledger.nil preferences).run calls
  exact
    { size_le := h.size_le
      ids_nodup := h.ids_nodup
      opened_nodup := by
        rw [h.opened]
        refine List.nodup_range.map fun m n hmn => ?_
        exact Nat.succ.inj (congrArg DocumentId.number hmn)
      closed_unknown := fun t ht id hid call hcall =>
        (perform_unknown hcall (find?_eq_none_iff.2 (h.closed t ht id hid))).result
      version_eq := fun id d hd => h.version id d (get_eq_ok_iff.1 hd)
      refused := fun t _ e he => t.refusal_of_error he
      get_after := by
        intro t _ id habout hopened
        unfold get
        rw [t.find?_after_of_not_about habout hopened] }

/-- A document is closed and another one opened and revised: the update that names the closed one is
refused, and so is every later call about it. -/
theorem integrity_run_reopened :
    let w : Workspace := {}
    let calls : List WorkspaceCall :=
      [.openDocument "a" "int x", .close ⟨1⟩, .openDocument "b" "int y", .update ⟨2⟩ "int z",
        .update ⟨1⟩ "int z"]
    let closing : Turn := ⟨w.run (calls.take 1), .close ⟨1⟩⟩
    let refused : Turn := ⟨w.run (calls.take 4), .update ⟨1⟩ "int z"⟩
    (closing ∈ w.turns calls ∧ closing.change? = some (.closed ⟨1⟩)) ∧
      ((w.run calls).perform (.get ⟨1⟩)).result = .error (.unknownDocument ⟨1⟩) ∧
      (refused ∈ w.turns calls ∧ refused.result = .error (.unknownDocument ⟨1⟩)) ∧
      refused.after = refused.before ∧
      (w.run calls).get ⟨2⟩ = .ok ⟨⟨2⟩, "b", "int z", 2⟩ ∧
      2 = 1 + (w.turns calls).countP (fun t => t.change? = some (.revised ⟨2⟩)) := by
  intro w calls closing refused
  have h : (w.run calls).Integrity (w.turns calls) := integrity_run {} calls
  have hclosing : closing ∈ w.turns calls := .tail _ (.head _)
  have hrefused : refused ∈ w.turns calls := .tail _ (.tail _ (.tail _ (.tail _ (.head _))))
  have hclosed : closing.change? = some (.closed ⟨1⟩) := by rfl
  have herror : refused.result = .error (.unknownDocument ⟨1⟩) := by rfl
  have hget : (w.run calls).get ⟨2⟩ = .ok ⟨⟨2⟩, "b", "int z", 2⟩ := by rfl
  exact ⟨⟨hclosing, hclosed⟩, h.closed_unknown closing hclosing _ hclosed _ rfl,
    ⟨hrefused, herror⟩, (h.refused refused hrefused _ herror).2, hget, h.version_eq _ _ hget⟩

end Workspace

end EvlCheck
