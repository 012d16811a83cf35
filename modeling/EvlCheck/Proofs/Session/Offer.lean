/-
An offered action holds for one text of one document. Whatever is asked of the workspace after the
answer, an action with edits can be applied as long as its document has the text that it was made
for. From the first revision on it is stale, and once the document is closed nothing can be done
with it. So of all the actions with edits in one answer one is applied at most, and once.

`Followed` tells what the turns after the answer have made of the document. It is kept by each turn
and so by every run of calls. The rest is said of one call on a workspace that such turns lead to.
-/
import EvlCheck.Proofs.Fix.LineEdit
import EvlCheck.Proofs.Session.Integrity

namespace EvlCheck

/-! ## A document followed through a run -/

namespace Turn

/-- The turn applies one of the offered actions to the document, and edits it. -/
def applies [Build] (t : Turn) (id : DocumentId) (offered : List CodeAction) : Bool :=
  match t.call, t.result with
  | .applyAction other action, .ok _ => other = id && action.hasEdits && offered.contains action
  | _, _ => false

/-- The number of times that a document gets another text in these turns. -/
def revisions [Build] (turns : List Turn) (id : DocumentId) : Nat :=
  turns.countP fun t => t.change? = some (.revised id)

/-- One of the turns closes the document. -/
def Closes [Build] (turns : List Turn) (id : DocumentId) : Prop :=
  ∃ t ∈ turns, t.change? = some (.closed id)

variable [Build] {turns : List Turn} {t : Turn} {id : DocumentId}

theorem revisions_append_singleton : revisions (turns ++ [t]) id =
    revisions turns id + if t.change? = some (.revised id) then 1 else 0 := by
  unfold revisions
  rw [List.countP_append, List.countP_singleton]
  simp only [decide_eq_true_eq]

theorem closes_append_singleton :
    Closes (turns ++ [t]) id ↔ Closes turns id ∨ t.change? = some (.closed id) := by
  unfold Closes
  simp only [List.mem_append, List.mem_singleton, or_and_right, exists_or, exists_eq_left]

/-- What it takes to apply an offered action: the document is revised by it. -/
theorem exists_of_applies {offered : List CodeAction} (h : t.applies id offered = true) :
    ∃ action ∈ offered, t.call = .applyAction id action ∧ action.hasEdits = true ∧
      t.change? = some (.revised id) := by
  obtain ⟨w, call⟩ := t
  unfold applies at h
  split at h
  · next other action answer hcall hresult =>
    simp only [Bool.and_eq_true, decide_eq_true_eq, List.contains_iff_mem] at h
    obtain ⟨⟨rfl, hedits⟩, hmem⟩ := h
    have hnonempty : action.edits.isEmpty = false := Bool.not_eq_true' _ ▸ hedits
    refine ⟨action, hmem, hcall, hedits, ?_⟩
    unfold change?
    rw [hcall, hresult]
    dsimp only
    rw [hnonempty]
    rfl
  · cases h

/-- An action that is applied was for the version that the document had. -/
theorem version_of_applied {action : CodeAction} {d : Document} {e : Edit}
    (hcall : t.call = .applyAction id action) (hdone : t.change? = some (.revised id))
    (hfind : t.before.find? id = some d) (he : e ∈ action.edits) : e.version = d.version := by
  refine Decidable.byContradiction fun hother => ?_
  obtain ⟨w, call⟩ := t
  obtain rfl : call = .applyAction id action := hcall
  cases hstale : action.edits.find? (fun e => e.version ≠ d.version) with
  | none => exact List.find?_eq_none.1 hstale e he (decide_eq_true hother)
  | some stale =>
    have hresult := (Workspace.perform_applyAction_stale hfind hstale).result
    cases course_of_change hdone with
    | revised _ _ _ _ _ hok => cases hresult.symm.trans hok

end Turn

/-- What has become of a document in the turns since it was as given, and in the workspace that
they led to. -/
structure Followed [Build] (d : Document) (since : List Turn) (w : Workspace) : Prop
    extends w.Sound where
  given : d.id.number ≤ w.lastNumber
  closed : Turn.Closes since d.id → w.find? d.id = none
  current : ¬ Turn.Closes since d.id → ∃ now, w.find? d.id = some now ∧
    now.version = d.version + Turn.revisions since d.id ∧
    (Turn.revisions since d.id = 0 → now = d)

namespace Followed

variable [Build] {d : Document} {since : List Turn} {w : Workspace}

theorem nil (hs : w.Sound) (h : w.find? d.id = some d) : Followed d [] w where
  toSound := hs
  given := hs.number_le _ (Workspace.mem_ids_of_find? h)
  closed := fun hclosed => by
    obtain ⟨_, hmem, _⟩ := hclosed
    cases hmem
  current := fun _ => ⟨d, h, rfl, fun _ => rfl⟩

theorem turn {t : Turn} (h : Followed d since t.before) :
    Followed d (since ++ [t]) t.after where
  toSound := t.sound_after h.toSound
  given := Nat.le_trans h.given t.lastNumber_le
  closed := by
    rw [Turn.closes_append_singleton]
    rintro (hbefore | hnow)
    · have hunknown := Workspace.find?_eq_none_iff.1 (h.closed hbefore)
      exact Workspace.find?_eq_none_iff.2 (Turn.not_mem_ids_after h.given hunknown)
    · exact Turn.find?_after_closed hnow
  current := by
    rw [Turn.closes_append_singleton, not_or, Turn.revisions_append_singleton]
    rintro ⟨hopen, hkept⟩
    obtain ⟨now, hfind, hversion, hsame⟩ := h.current hopen
    by_cases hrevised : t.change? = some (.revised d.id)
    · obtain ⟨old, text, hold, hnew⟩ := Turn.find?_after_revised hrevised
      obtain rfl : old = now := Option.some.inj (hold.symm.trans hfind)
      rw [if_pos hrevised]
      refine ⟨old.setText text, hnew, ?_, fun hzero => (Nat.succ_ne_zero _ hzero).elim⟩
      exact congrArg Nat.succ hversion
    · -- a number that was given out is not that of a document that is opened
      have hother : ∀ c, t.change? = some c → c.document ≠ d.id := by
        rintro c hc hid
        cases c with
        | opened other =>
          obtain rfl : other = d.id := hid
          have hnext := Turn.number_of_opened hc
          have hgiven := h.given
          omega
        | revised other => exact hrevised (hid ▸ hc)
        | closed other => exact hkept (hid ▸ hc)
      rw [if_neg hrevised, Turn.find?_after hother]
      exact ⟨now, hfind, hversion, hsame⟩

theorem run (h : Followed d since w) (calls : List WorkspaceCall) :
    Followed d (since ++ w.turns calls) (w.run calls) := by
  induction calls generalizing since w with
  | nil =>
    rw [Workspace.turns, Workspace.run, List.append_nil]
    exact h
  | cons call calls ih =>
    rw [Workspace.turns, Workspace.run, List.append_cons]
    exact ih (turn (t := ⟨w, call⟩) h)

end Followed

/-! ## Actions for one version -/

/-- The actions are for this document as it is: each with edits can be applied to its text, and the
edits are of its version. -/
def Document.Suits (d : Document) (offered : List CodeAction) : Prop :=
  ∀ action ∈ offered, action.hasEdits = true → ∃ e text, action.edits = [e] ∧
    e.version = d.version ∧ applyEdits d.text.toList action.edits = .ok text

/-- Generated actions are for the document that they are generated from. -/
theorem Document.suits_generate [Build] (d : Document) (preferences : AnalysisPreferences)
    (diagnostics : List Diagnostic) (cursor : Option Nat) :
    d.Suits
      (CodeAction.generate preferences diagnostics d.text.toList cursor d.version).1 := by
  intro action hmem hedits
  obtain ⟨n, line, -, hline, hon⟩ := CodeAction.onLine_of_mem_generate hmem
  rcases hon with hnone | ⟨e, hedit, hversion, he⟩
  · rw [CodeAction.hasEdits, hnone] at hedits
    cases hedits
  · obtain ⟨before, terminator, after, hat⟩ := Text.exists_lineAt hline
    obtain ⟨text, hmade, -⟩ := he.relined hat
    exact ⟨e, text, hedit, hversion, hedit ▸ hmade⟩

namespace Followed

variable {d : Document} {since : List Turn} {w : Workspace} {offered : List CodeAction}

/-- An offered action is applied only to the text that it was made for. -/
theorem revisions_eq_zero_of_applies [Build] {t : Turn} (h : Followed d since t.before)
    (hsuits : d.Suits offered) (happlies : t.applies d.id offered = true) :
    Turn.revisions since d.id = 0 := by
  obtain ⟨action, hmem, hcall, hedits, hrevised⟩ := Turn.exists_of_applies happlies
  obtain ⟨e, _, hedit, hfor, -⟩ := hsuits action hmem hedits
  have hopen : ¬ Turn.Closes since d.id := by
    intro hclosed
    obtain ⟨old, _, hfind, -⟩ := Turn.find?_after_revised hrevised
    cases (h.closed hclosed).symm.trans hfind
  obtain ⟨now, hfind, hversion, -⟩ := h.current hopen
  have hcurrent : e.version = now.version :=
    Turn.version_of_applied hcall hrevised hfind (hedit ▸ List.mem_singleton_self e)
  omega

/-- The invariant for the number of applications: there was none without a revision. -/
theorem countP_applies [Build] (h : Followed d since w) (hsuits : d.Suits offered)
    (hle : since.countP (·.applies d.id offered) ≤ min 1 (Turn.revisions since d.id))
    (calls : List WorkspaceCall) :
    (since ++ w.turns calls).countP (·.applies d.id offered) ≤ 1 := by
  induction calls generalizing since w with
  | nil =>
    rw [Workspace.turns, List.append_nil]
    exact Nat.le_trans hle (Nat.min_le_left _ _)
  | cons call calls ih =>
    rw [Workspace.turns, List.append_cons]
    refine ih (turn (t := ⟨w, call⟩) h) ?_
    rw [List.countP_append, List.countP_singleton, Turn.revisions_append_singleton]
    cases happlies : (Turn.mk w call).applies d.id offered with
    | false =>
      rw [if_neg Bool.false_ne_true]
      omega
    | true =>
      obtain ⟨_, _, _, _, hrevised⟩ := Turn.exists_of_applies happlies
      have hnone := revisions_eq_zero_of_applies (t := ⟨w, call⟩) h hsuits happlies
      rw [if_pos rfl, if_pos hrevised]
      omega

end Followed

/-! ## Offers -/

/-- The action is made on the text that the document has, which gives its next version. -/
def Workspace.Takes [Build] (w : Workspace) (d : Document) (action : CodeAction) : Prop :=
  ∃ text, applyEdits d.text.toList action.edits = .ok text ∧
    (w.perform (.applyAction d.id action)).Leads (.ok (.version (d.version + 1)))
      (w.put (d.setText (String.ofList text))) ∧
    (w.put (d.setText (String.ofList text))).get d.id = .ok (d.setText (String.ofList text))

/-- How the actions that were offered for a document fare in a workspace, after these turns since
the offer. Only actions with edits are spoken of; the others change nothing. -/
structure Offer [Build] (d : Document) (offered : List CodeAction) (since : List Turn)
    (w : Workspace) :
    Prop where
  /-- Without a revision each can be applied, and makes the next version. -/
  fresh : ¬ Turn.Closes since d.id → Turn.revisions since d.id = 0 →
    ∀ action ∈ offered, action.hasEdits = true → w.Takes d action
  /-- After a revision each is refused as stale, and nothing changes. -/
  stale : ¬ Turn.Closes since d.id → Turn.revisions since d.id ≠ 0 →
    ∀ action ∈ offered, action.hasEdits = true →
      (w.perform (.applyAction d.id action)).Leads
        (.error (.staleEdit d.id d.version (d.version + Turn.revisions since d.id))) w
  /-- After the document is closed each is refused for that, and nothing changes. -/
  closed : Turn.Closes since d.id → ∀ action ∈ offered,
    (w.perform (.applyAction d.id action)).Leads (.error (.unknownDocument d.id)) w
  /-- One of them was applied at most, and once. -/
  once : since.countP (·.applies d.id offered) ≤ 1

namespace Followed

variable [Build] {d : Document} {since : List Turn} {w : Workspace} {offered : List CodeAction}

theorem fresh (h : Followed d since w) (hsuits : d.Suits offered)
    (hopen : ¬ Turn.Closes since d.id) (hnone : Turn.revisions since d.id = 0)
    {action : CodeAction} (hmem : action ∈ offered) (hedits : action.hasEdits = true) :
    w.Takes d action := by
  obtain ⟨now, hfind, -, hsame⟩ := h.current hopen
  obtain rfl : now = d := hsame hnone
  obtain ⟨e, text, hedit, hfor, hmade⟩ := hsuits action hmem hedits
  have hcurrent : action.edits.find? (fun e => e.version ≠ now.version) = none := by
    rw [hedit, List.find?_singleton, if_neg (by simp [hfor])]
  have hsome : action.edits.isEmpty = false := by rw [hedit]; rfl
  refine ⟨text, hmade, Workspace.perform_applyAction hcurrent hsome hfind hmade, ?_⟩
  have hid : (now.setText (String.ofList text)).id = now.id := rfl
  rw [Workspace.get_eq_ok_iff, Workspace.find?_put, if_pos hid, hfind, Option.map_some]

theorem stale (h : Followed d since w) (hsuits : d.Suits offered)
    (hopen : ¬ Turn.Closes since d.id) (hsome : Turn.revisions since d.id ≠ 0)
    {action : CodeAction} (hmem : action ∈ offered) (hedits : action.hasEdits = true) :
    (w.perform (.applyAction d.id action)).Leads
      (.error (.staleEdit d.id d.version (d.version + Turn.revisions since d.id))) w := by
  obtain ⟨now, hfind, hversion, -⟩ := h.current hopen
  obtain ⟨e, _, hedit, hfor, -⟩ := hsuits action hmem hedits
  have hother : e.version ≠ now.version := by omega
  have hstale : action.edits.find? (fun e => e.version ≠ now.version) = some e := by
    rw [hedit, List.find?_singleton, if_pos (decide_eq_true hother)]
  have hrefused := Workspace.perform_applyAction_stale hfind hstale
  rw [hfor, hversion] at hrefused
  exact hrefused

theorem offer (h : Followed d since w) (hsuits : d.Suits offered)
    (honce : since.countP (·.applies d.id offered) ≤ 1) : Offer d offered since w where
  fresh := fun hopen hnone _ hmem hedits => h.fresh hsuits hopen hnone hmem hedits
  stale := fun hopen hsome _ hmem hedits => h.stale hsuits hopen hsome hmem hedits
  closed := fun hclosed _ _ => Workspace.perform_unknown rfl (h.closed hclosed)
  once := honce

end Followed

namespace Workspace

/-- Stale edits are never applied. Let a workspace have answered with actions for a document, at any
moment of any run. At every later moment, an action with edits from this answer is applied if the
document has kept its text, and refused without any change if it was revised or closed; and of all
of them one at most has been applied. -/
theorem offer_run [Build] (preferences : Preferences) (calls since : List WorkspaceCall)
    {lexical : LexicalPreferences} {id : DocumentId} {d : Document} {cursor : Option Nat}
    {offered : List CodeAction}
    (hget : (({ preferences } : Workspace).run calls).get id = .ok d)
    (hasked : (Turn.mk (({ preferences } : Workspace).run calls)
      (.codeActions lexical id cursor)).result = .ok (.actions offered)) :
    let asked : Turn := ⟨({ preferences } : Workspace).run calls, .codeActions lexical id cursor⟩
    Offer d offered (asked.after.turns since) (asked.after.run since) := by
  intro asked
  have hledger : Ledger _ asked.before := (Ledger.nil preferences).run calls
  have hfind : asked.before.find? id = some d := get_eq_ok_iff.1 hget
  obtain rfl : d.id = id := id_eq_of_find? hfind
  have hanswer := perform_codeActions hfind lexical cursor
  -- Every edit that is offered is for the version at hand.
  have hsuits : d.Suits offered := by
    cases hanswer.result.symm.trans hasked
    exact d.suits_generate _ _ cursor
  have hafter : asked.after = asked.before := hanswer.workspace
  have hstart : Followed d [] asked.after := by
    rw [hafter]
    exact .nil hledger.toSound hfind
  refine (hstart.run since).offer hsuits ?_
  exact hstart.countP_applies hsuits (Nat.zero_le _) since

/-- An action is applied between operations on another document, and refused when it is tried
again. -/
theorem offer_run_twice :
    let w : Workspace := ({} : Workspace).run [.openDocument "a" "int x = 1"]
    let d : Document := ⟨⟨1⟩, "a", "int x = 1", 1⟩
    let action := CodeAction.refactor "Make 'x' a constant (const)"
      ⟨.wholeLine 1 "int x = 1".toList, "const int x = 1", 1⟩
    let asked : Turn := ⟨w, .codeActions {} ⟨1⟩ (some 1)⟩
    let since : List WorkspaceCall :=
      [.openDocument "b" "int x = 1", .applyAction ⟨1⟩ action, .update ⟨2⟩ ""]
    (w.get ⟨1⟩ = .ok d ∧ asked.result = .ok (.actions [action])) ∧
      Offer d [action] (asked.after.turns since) (asked.after.run since) ∧
      (asked.after.turns since).countP (·.applies ⟨1⟩ [action]) = 1 ∧
      ((asked.after.run since).perform (.applyAction ⟨1⟩ action)).result =
        .error (.staleEdit ⟨1⟩ 1 2) := by
  intro w d action asked since
  have hget : w.get ⟨1⟩ = .ok d := rfl
  have hoffered : (CodeAction.generate w.preferences.analysis
      (Analysis.ofSource {} w.preferences d.text).semantic d.text.toList (some 1) d.version).1 =
      [action] := by decide +kernel
  have hasked : asked.result = .ok (.actions [action]) := by
    rw [← hoffered]
    exact (perform_codeActions (get_eq_ok_iff.1 hget) {} (some 1)).result
  have hoffer := offer_run {} [.openDocument "a" "int x = 1"] since hget hasked
  have happlied : (asked.after.turns since).countP (·.applies ⟨1⟩ [action]) = 1 := by
    decide +kernel
  have hrevised : Turn.revisions (asked.after.turns since) ⟨1⟩ = 1 := by decide +kernel
  have hopen : ¬ Turn.Closes (asked.after.turns since) ⟨1⟩ := by
    unfold Turn.Closes
    decide +kernel
  have hstale := hoffer.stale hopen (by rw [hrevised]; decide) action
    (List.mem_singleton_self _) rfl
  rw [hrevised] at hstale
  exact ⟨⟨hget, hasked⟩, hoffer, happlied, hstale.result⟩

end Workspace

end EvlCheck
