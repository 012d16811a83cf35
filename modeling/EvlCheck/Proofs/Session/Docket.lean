/-
A sequencer accepts exactly the results that still count. However submissions, results and requests
to forget come in, the result of a ticket counts just when it is of the newest ticket of its
document, was not accepted before, was not forgotten and was not evicted; an eviction takes the
oldest ticket, and only where there is no room; and no more tickets are awaited than the limit
allows.

The sequencer remembers one number for a document, so what became of a ticket is told by the whole
run. Its docket (`Docket`) says what the turns so far mean for the tickets that are awaited now. Each
turn keeps the docket, and so does a run.
-/
import EvlCheck.Proofs.Session.Ticket

namespace EvlCheck

/-- A place in a row with one more entry is the new entry, or a place in the row. -/
theorem append_singleton_eq_append_cons {α : Type} {row front back : List α} {new x : α}
    (h : row ++ [new] = front ++ x :: back) :
    (row = front ∧ new = x ∧ back = []) ∨
      ∃ rest, row = front ++ x :: rest ∧ back = rest ++ [new] := by
  rcases List.eq_nil_or_concat back with rfl | ⟨rest, last, rfl⟩
  · obtain ⟨hfront, hnew⟩ := List.append_inj' h rfl
    exact .inl ⟨hfront, List.singleton_injective hnew, rfl⟩
  · rw [List.concat_eq_append, ← List.cons_append, ← List.append_assoc] at h
    obtain ⟨hrow, hnew⟩ := List.append_inj' h rfl
    obtain rfl := List.singleton_injective hnew
    exact .inr ⟨rest, hrow, List.concat_eq_append⟩

/-! ## Runs -/

namespace Sequencer

/-- The turns that a sequencer takes when it is asked one call after another. -/
def turns [Build] : Sequencer → List SequencerCall → List SequencerTurn
  | _, [] => []
  | s, call :: calls => ⟨s, call⟩ :: turns (SequencerTurn.mk s call).after calls

/-- The sequencer after the calls. -/
def run [Build] : Sequencer → List SequencerCall → Sequencer
  | s, [] => s
  | s, call :: calls => run (SequencerTurn.mk s call).after calls

end Sequencer

/-- What the turns of a run say about the tickets that are awaited after it. -/
structure Docket [Build] (past : List SequencerTurn) (s : Sequencer) : Prop extends s.Sound where
  /-- Every submission got the next number. -/
  numbered : (past.filterMap SequencerTurn.issued?).map (·.sequence) =
    (List.range s.lastSequence).map (· + 1)
  /-- What is awaited was issued. -/
  issued : ∀ t, s.Awaits t → ∃ ticket ∈ past.filterMap SequencerTurn.issued?,
    ticket.document = t.document ∧ ticket.sequence = t.sequence
  /-- A ticket is awaited as long as no turn since it was issued has ended that. -/
  awaits_iff : ∀ front issue since t, past = front ++ issue :: since → issue.issued? = some t →
    (s.Awaits t ↔ ∀ u ∈ since, ¬ u.Ends t)
  /-- What was accepted is older than what is awaited, and than what will be. -/
  accepted_lt : ∀ t ∈ past.filterMap SequencerTurn.accepted?, t.sequence ≤ s.lastSequence ∧
    ∀ newer, s.Awaits newer → t.document = newer.document → t.sequence < newer.sequence
  accepted_increasing : (past.filterMap SequencerTurn.accepted?).Pairwise fun a b =>
    a.document = b.document → a.sequence < b.sequence
  discarded_eq : s.discarded = past.countP SequencerTurn.discards

namespace Docket

variable [Build]

theorem nil : Docket [] {} where
  documents_nodup := List.nodup_nil
  sequences_lt := List.Pairwise.nil
  sequence_le := List.forall_mem_nil _
  pending_le := Nat.zero_le _
  numbered := rfl
  issued := by
    intro t hawaits
    cases hawaits
  awaits_iff := by
    intro front issue since t hsplit
    cases front <;> cases hsplit
  accepted_lt := List.forall_mem_nil _
  accepted_increasing := List.Pairwise.nil
  discarded_eq := rfl

variable {past : List SequencerTurn} {s : Sequencer} {u : SequencerTurn} {t : Ticket}

theorem length_issued (h : Docket past s) :
    (past.filterMap SequencerTurn.issued?).length = s.lastSequence := by
  have hlength := congrArg List.length h.numbered
  rwa [List.length_map, List.length_map, List.length_range] at hlength

/-- A ticket that was issued has a number that was given out. -/
theorem sequence_le_of_issued (h : Docket past s)
    (ht : t ∈ past.filterMap SequencerTurn.issued?) : t.sequence ≤ s.lastSequence := by
  have hmem := List.mem_map_of_mem (f := (·.sequence)) ht
  rw [h.numbered, List.mem_map] at hmem
  obtain ⟨n, hn, hsequence⟩ := hmem
  rw [← hsequence]
  exact List.mem_range.1 hn

theorem numbered_turn (h : Docket past u.before) :
    ((past ++ [u]).filterMap SequencerTurn.issued?).map (·.sequence) =
      (List.range u.after.lastSequence).map (· + 1) := by
  rw [List.filterMap_append, List.map_append, h.numbered]
  rcases u.issued?_or_lastSequence with ⟨hnone, hlast⟩ | ⟨t, hsome, hnext, hlast⟩
  · rw [hlast, List.filterMap_cons_none hnone, List.filterMap_nil, List.map_nil, List.append_nil]
  · rw [hlast, List.filterMap_cons_some hsome, List.range_succ, List.map_append, List.map_singleton,
      List.filterMap_nil, List.map_singleton, hnext]

theorem issued_turn (h : Docket past u.before) :
    ∀ t, u.after.Awaits t → ∃ ticket ∈ (past ++ [u]).filterMap SequencerTurn.issued?,
      ticket.document = t.document ∧ ticket.sequence = t.sequence := by
  intro t hawaits
  rw [List.filterMap_append]
  rcases u.awaits_of_after h.toSound hawaits with hbefore | ⟨ticket, hissued, hsame⟩
  · obtain ⟨ticket, hmem, hsame⟩ := h.issued t hbefore
    exact ⟨ticket, List.mem_append_left _ hmem, hsame⟩
  · refine ⟨ticket, List.mem_append_right _ ?_, hsame⟩
    rw [List.filterMap_cons_some hissued]
    exact List.mem_cons_self

theorem awaits_iff_turn (h : Docket past u.before) :
    ∀ front issue since t, past ++ [u] = front ++ issue :: since → issue.issued? = some t →
      (u.after.Awaits t ↔ ∀ v ∈ since, ¬ v.Ends t) := by
  intro front issue since t hsplit hissued
  rcases append_singleton_eq_append_cons hsplit with ⟨-, rfl, rfl⟩ | ⟨rest, hpast, rfl⟩
  · exact iff_of_true (u.awaits_after_issued h.toSound hissued) (List.forall_mem_nil _)
  · have hmem : t ∈ past.filterMap SequencerTurn.issued? := by
      rw [hpast]
      exact List.mem_filterMap.2 ⟨issue, List.mem_append_right _ List.mem_cons_self, hissued⟩
    rw [u.awaits_after_iff h.toSound (h.sequence_le_of_issued hmem),
      h.awaits_iff front issue rest t hpast hissued, List.forall_mem_append,
      List.forall_mem_singleton]

theorem accepted_lt_turn (h : Docket past u.before) :
    ∀ t ∈ (past ++ [u]).filterMap SequencerTurn.accepted?, t.sequence ≤ u.after.lastSequence ∧
      ∀ newer, u.after.Awaits newer → t.document = newer.document →
        t.sequence < newer.sequence := by
  intro t ht
  -- it is enough to look at the tickets that were awaited before
  suffices hbefore : t.sequence ≤ u.before.lastSequence ∧ ∀ newer, u.before.Awaits newer →
      ¬ u.Ends newer → t.document = newer.document → t.sequence < newer.sequence by
    refine ⟨Nat.le_trans hbefore.1 u.lastSequence_le, fun newer hawaits hdocument => ?_⟩
    by_cases hgiven : newer.sequence ≤ u.before.lastSequence
    · obtain ⟨hold, hends⟩ := (u.awaits_after_iff h.toSound hgiven).1 hawaits
      exact hbefore.2 newer hold hends hdocument
    · exact Nat.lt_of_le_of_lt hbefore.1 (Nat.lt_of_not_le hgiven)
  rw [List.filterMap_append, List.mem_append] at ht
  rcases ht with hold | hnew
  · obtain ⟨hle, hlt⟩ := h.accepted_lt t hold
    exact ⟨hle, fun newer hawaits _ hdocument => hlt newer hawaits hdocument⟩
  · obtain ⟨v, hv, haccepted⟩ := List.mem_filterMap.1 hnew
    obtain rfl := List.mem_singleton.1 hv
    obtain ⟨-, hawaits⟩ := SequencerTurn.accepted?_eq_some_iff.1 haccepted
    refine ⟨Sequencer.le_of_awaited? h.toSound hawaits, fun newer hnewer hends hdocument => ?_⟩
    have hsequence := hawaits.sequence_eq hnewer hdocument
    exact (hends (.accepted t haccepted hdocument hsequence)).elim

theorem accepted_increasing_turn (h : Docket past u.before) :
    ((past ++ [u]).filterMap SequencerTurn.accepted?).Pairwise fun a b =>
      a.document = b.document → a.sequence < b.sequence := by
  rw [List.filterMap_append, List.pairwise_append]
  cases haccepted : u.accepted? with
  | none =>
    rw [List.filterMap_cons_none haccepted]
    exact ⟨h.accepted_increasing, .nil, fun _ _ _ hnew => nomatch hnew⟩
  | some t =>
    rw [List.filterMap_cons_some haccepted, List.filterMap_nil]
    refine ⟨h.accepted_increasing, List.pairwise_singleton _ _, ?_⟩
    rintro a ha b hb hdocument
    obtain rfl := List.mem_singleton.1 hb
    obtain ⟨-, hawaits⟩ := SequencerTurn.accepted?_eq_some_iff.1 haccepted
    exact (h.accepted_lt a ha).2 b hawaits hdocument

theorem turn (h : Docket past u.before) : Docket (past ++ [u]) u.after where
  toSound := u.sound_after h.toSound
  numbered := h.numbered_turn
  issued := h.issued_turn
  awaits_iff := h.awaits_iff_turn
  accepted_lt := h.accepted_lt_turn
  accepted_increasing := h.accepted_increasing_turn
  discarded_eq := by
    rw [u.discarded_after, h.discarded_eq, List.countP_append, List.countP_singleton]

theorem run (h : Docket past s) (calls : List SequencerCall) :
    Docket (past ++ s.turns calls) (s.run calls) := by
  induction calls generalizing past s with
  | nil =>
    rw [Sequencer.turns, Sequencer.run, List.append_nil]
    exact h
  | cons call calls ih =>
    rw [Sequencer.turns, Sequencer.run, List.append_cons]
    exact ih (turn (u := ⟨s, call⟩) h)

end Docket

namespace Sequencer

/-- Every turn meets a sound sequencer. -/
theorem sound_of_mem_turns [Build] {s : Sequencer} (h : s.Sound) {calls : List SequencerCall} :
    ∀ u ∈ s.turns calls, u.before.Sound := by
  induction calls generalizing s with
  | nil => exact List.forall_mem_nil _
  | cons call calls ih =>
    rw [turns, List.forall_mem_cons]
    exact ⟨h, ih (SequencerTurn.sound_after (u := ⟨s, call⟩) h)⟩

/-- What holds of a sequencer after the turns of a run, and of these turns. -/
structure Exact [Build] (s : Sequencer) (past : List SequencerTurn) : Prop where
  /-- The result of a ticket counts just when no later turn has issued a newer ticket of its
  document, accepted it, forgotten its document or evicted it. -/
  accept_iff : ∀ front issue since t, past = front ++ issue :: since → issue.issued? = some t →
    ((s.accept t).1 = true ↔ ∀ u ∈ since, ¬ u.Ends t)
  /-- The tickets that are awaited were issued. -/
  issued : ∀ t, s.Awaits t → ∃ ticket ∈ past.filterMap SequencerTurn.issued?,
    ticket.document = t.document ∧ ticket.sequence = t.sequence
  /-- A ticket is evicted just where a submission finds no room. -/
  eviction_iff : ∀ u ∈ past, (∃ t, u.Evicts t) ↔
    ∃ document version, u.call = .submit document version ∧ u.before.Full document
  /-- A submission takes the ticket of another document just where it evicts it. -/
  evicts_iff : ∀ u ∈ past, ∀ t, u.Evicts t ↔
    (∃ document version, u.call = .submit document version ∧ document ≠ t.document) ∧
      u.before.Awaits t ∧ ¬ u.after.Awaits t
  pending_le : s.pending ≤ Limit.pendingTickets
  sequences_nodup : (s.awaited.map Prod.snd).Nodup
  /-- The number of a ticket is at most that of the submissions. -/
  sequence_le : ∀ n ∈ s.awaited.map Prod.snd,
    n ≤ (past.filterMap SequencerTurn.issued?).length
  accepted_increasing : (past.filterMap SequencerTurn.accepted?).Pairwise fun a b =>
    a.document = b.document → a.sequence < b.sequence
  discarded_eq : s.discarded = past.countP SequencerTurn.discards
  /-- No two submissions get the same number, so a ticket is told by its number. -/
  issued_nodup : ((past.filterMap SequencerTurn.issued?).map (·.sequence)).Nodup

/-- A new sequencer is exact through every sequence of calls. The calls are any, so this holds at
each moment of a longer run. -/
theorem exact_run [Build] (calls : List SequencerCall) :
    (({} : Sequencer).run calls).Exact (({} : Sequencer).turns calls) := by
  -- The docket holds of every run; what is evicted is read off the single steps.
  have h : Docket (({} : Sequencer).turns calls) (({} : Sequencer).run calls) :=
    Docket.nil.run calls
  exact
    { accept_iff := fun front issue since t hsplit hissued =>
        Sequencer.accept_iff.trans (h.awaits_iff front issue since t hsplit hissued)
      issued := h.issued
      eviction_iff := fun u hu =>
        SequencerTurn.exists_evicts_iff (sound_of_mem_turns Docket.nil.toSound u hu)
      evicts_iff := fun u hu t =>
        SequencerTurn.evicts_iff (sound_of_mem_turns Docket.nil.toSound u hu)
      pending_le := h.pending_le
      sequences_nodup := h.sequences_lt.imp Nat.ne_of_lt
      sequence_le := by
        rw [h.length_issued]
        exact h.sequence_le
      accepted_increasing := h.accepted_increasing
      discarded_eq := h.discarded_eq
      issued_nodup := by
        rw [h.numbered]
        exact List.nodup_range.map fun m n hmn => Nat.succ.inj hmn }

end Sequencer

end EvlCheck
