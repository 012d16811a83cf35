/-
What a call on a sequencer does to the tickets that are awaited. The awaited tickets are a list with
one entry for a document, in the order of their numbers (`Sequencer.Sound`), so the first entry is
the one to give up when there is no room.

A ticket that was issued is awaited until one of four things ends it: a newer ticket of its document,
its acceptance, a request to forget its document, or its eviction (`SequencerTurn.Ends`). That these
and nothing else end it is `SequencerTurn.awaits_after_iff`, which has one case for each call.
-/
import EvlCheck.Session.Sequencer
import Mathlib.Data.List.Nodup

namespace EvlCheck

/-- In a table with a key for each entry, what is looked up is what stands there. -/
theorem lookup_eq_some_iff_mem {α β : Type} [BEq α] [LawfulBEq α] {table : List (α × β)}
    (h : (table.map Prod.fst).Nodup) {key : α} {value : β} :
    table.lookup key = some value ↔ (key, value) ∈ table := by
  induction table with
  | nil => simp
  | cons entry table ih =>
    obtain ⟨other, first⟩ := entry
    rw [List.map_cons, List.nodup_cons] at h
    rw [List.lookup_cons, List.mem_cons, Prod.mk.injEq]
    by_cases hkey : key = other
    · subst hkey
      have hrest : (key, value) ∉ table := fun hmem => h.1 (List.mem_map.2 ⟨_, hmem, rfl⟩)
      rw [beq_self_eq_true]
      simp only [Option.some.injEq, true_and, hrest, or_false]
      exact eq_comm
    · rw [beq_eq_false_iff_ne.2 hkey]
      simp only [hkey, false_and, false_or]
      exact ih h.2

namespace Sequencer

/-! ## Awaited tickets -/

/-- The result of the ticket is awaited: it is the number that its document waits for. -/
def Awaits (s : Sequencer) (t : Ticket) : Prop := s.awaited? t.document = some t.sequence

/-- The result of a ticket counts just when it is awaited. -/
theorem accept_iff [Build] {s : Sequencer} {t : Ticket} : (s.accept t).1 = true ↔ s.Awaits t := by
  unfold accept Awaits
  dsimp only
  split
  · next h => exact iff_of_true rfl h
  · next h => exact iff_of_false Bool.false_ne_true h

/-- There is no room for a ticket of a document that has none. -/
def Full [Build] (s : Sequencer) (document : DocumentId) : Prop :=
  s.awaited? document = none ∧ Limit.pendingTickets ≤ s.pending

/-- No smaller number is awaited. -/
def Oldest (s : Sequencer) (sequence : Nat) : Prop :=
  ∀ document n, s.awaited? document = some n → sequence ≤ n

/-- The awaited numbers are one for a document, in order, from those given out, and within the
limit. -/
structure Sound [Build] (s : Sequencer) : Prop where
  documents_nodup : (s.awaited.map Prod.fst).Nodup
  sequences_lt : (s.awaited.map Prod.snd).Pairwise (· < ·)
  sequence_le : ∀ n ∈ s.awaited.map Prod.snd, n ≤ s.lastSequence
  pending_le : s.pending ≤ Limit.pendingTickets

variable {s : Sequencer} {document : DocumentId} {version : Nat} {t : Ticket}

theorem awaited?_eq_some_iff [Build] (h : s.Sound) {n : Nat} :
    s.awaited? document = some n ↔ (document, n) ∈ s.awaited :=
  lookup_eq_some_iff_mem h.documents_nodup

theorem awaits_iff_mem [Build] (h : s.Sound) : s.Awaits t ↔ (t.document, t.sequence) ∈ s.awaited :=
  awaited?_eq_some_iff h

/-- A document waits for one number. -/
theorem Awaits.sequence_eq {other : Ticket} (h : s.Awaits t) (hother : s.Awaits other)
    (hdocument : t.document = other.document) : t.sequence = other.sequence := by
  unfold Awaits at h hother
  rw [hdocument, hother] at h
  exact (Option.some.inj h).symm

theorem le_of_awaited? [Build] (h : s.Sound) {n : Nat} (hn : s.awaited? document = some n) :
    n ≤ s.lastSequence :=
  h.sequence_le n (List.mem_map_of_mem ((awaited?_eq_some_iff h).1 hn))

/-- The oldest awaited number is that of the first entry. -/
theorem oldest_iff_head? [Build] (h : s.Sound) {n : Nat} (hmem : (document, n) ∈ s.awaited) :
    s.Oldest n ↔ s.awaited.head? = some (document, n) := by
  cases hawaited : s.awaited with
  | nil => rw [hawaited] at hmem; cases hmem
  | cons first rest =>
    have hlt : ∀ e ∈ rest, first.2 < e.2 := by
      have horder := h.sequences_lt
      rw [hawaited, List.map_cons, List.pairwise_cons] at horder
      exact fun e he => horder.1 _ (List.mem_map_of_mem he)
    rw [List.head?_cons, Option.some.injEq]
    constructor
    · intro hold
      have hfirst : n ≤ first.2 := hold first.1 first.2 ((awaited?_eq_some_iff h).2 (by
        rw [hawaited]; exact List.mem_cons_self))
      rw [hawaited, List.mem_cons] at hmem
      rcases hmem with hmem | hmem
      · exact hmem.symm
      · exact (Nat.not_lt_of_le hfirst (hlt _ hmem)).elim
    · rintro rfl other m hm
      rw [awaited?_eq_some_iff h, hawaited, List.mem_cons] at hm
      rcases hm with hm | hm
      · exact Nat.le_of_eq (congrArg Prod.snd hm).symm
      · exact Nat.le_of_lt (hlt _ hm)

/-! ## Submissions -/

/-- The awaited numbers that a submission keeps. -/
def kept [Build] (s : Sequencer) (document : DocumentId) : List (DocumentId × Nat) :=
  (if (s.awaited? document).isNone && s.pending ≥ Limit.pendingTickets then s.awaited.tail
    else s.awaited).filter fun e => e.1 ≠ document

theorem full_iff [Build] : s.Full document ↔
    ((s.awaited? document).isNone && decide (s.pending ≥ Limit.pendingTickets)) = true := by
  rw [Bool.and_eq_true, Option.isNone_iff_eq_none, decide_eq_true_eq]
  exact Iff.rfl

theorem submit_snd [Build] (s : Sequencer) (document : DocumentId) (version : Nat) :
    (s.submit document version).2.1 =
    { s with
      lastSequence := s.lastSequence + 1
      awaited := s.kept document ++ [(document, s.lastSequence + 1)] } := by
  unfold submit kept
  dsimp only
  split
  · unfold evict
    cases h : s.awaited with
    | nil => simp [forget, h]
    | cons first rest => rfl
  · rfl

theorem kept_sublist [Build] (s : Sequencer) (document : DocumentId) :
    (s.kept document).Sublist s.awaited := by
  unfold kept
  split
  · exact List.filter_sublist.trans (List.tail_sublist _)
  · exact List.filter_sublist

/-- A submission has made room for one more. -/
theorem length_kept_lt [Build] (h : s.Sound) : (s.kept document).length < Limit.pendingTickets := by
  by_cases hfull : s.Full document
  · have hlength : (s.kept document).length ≤ s.awaited.tail.length := by
      unfold kept
      rw [if_pos (full_iff.1 hfull)]
      exact List.length_filter_le _ _
    have hpending : s.awaited.length ≤ Limit.pendingTickets := h.pending_le
    have hpos := Limit.pendingTickets_pos
    rw [List.length_tail] at hlength
    omega
  · have hkept : s.kept document = s.awaited.filter fun e => e.1 ≠ document := by
      unfold kept
      rw [if_neg (fun hcond => hfull (full_iff.2 hcond))]
    cases hnone : s.awaited? document with
    | none =>
      have hroom : s.pending < Limit.pendingTickets :=
        Nat.lt_of_not_le fun hle => hfull ⟨hnone, hle⟩
      rw [hkept]
      exact Nat.lt_of_le_of_lt (List.length_filter_le _ _) hroom
    | some n =>
      have hmem := (awaited?_eq_some_iff h).1 hnone
      rw [hkept]
      refine Nat.lt_of_lt_of_le ?_ h.pending_le
      exact List.length_filter_lt_length_iff_exists.2 ⟨_, hmem, by simp⟩

/-- What is kept is all but the ticket of the document, and the oldest one where there is no
room. -/
theorem mem_kept_iff [Build] (h : s.Sound) {other : DocumentId} {n : Nat} :
    (other, n) ∈ s.kept document ↔
      (other, n) ∈ s.awaited ∧ other ≠ document ∧ ¬ (s.Full document ∧ s.Oldest n) := by
  unfold kept
  rw [List.mem_filter, decide_eq_true_eq]
  by_cases hfull : s.Full document
  · rw [if_pos (full_iff.1 hfull), and_comm (a := (other, n) ∈ s.awaited.tail), and_left_comm]
    refine and_congr_right fun _ => ?_
    rw [and_iff_right hfull]
    have hnodup : s.awaited.Nodup := h.documents_nodup.of_map
    constructor
    · intro hmem
      have hin : (other, n) ∈ s.awaited := List.mem_of_mem_tail hmem
      refine ⟨hin, fun hold => ?_⟩
      rw [oldest_iff_head? h hin] at hold
      rw [← List.cons_head?_tail hold, List.nodup_cons] at hnodup
      exact hnodup.1 hmem
    · rintro ⟨hin, hnot⟩
      rw [oldest_iff_head? h hin] at hnot
      cases hawaited : s.awaited with
      | nil => rw [hawaited] at hin; cases hin
      | cons first rest =>
        rw [hawaited, List.head?_cons, Option.some.injEq] at hnot
        rw [hawaited, List.mem_cons] at hin
        exact hin.resolve_left fun heq => hnot heq.symm
  · rw [if_neg (fun hcond => hfull (full_iff.2 hcond))]
    simp only [hfull, false_and, not_false_eq_true, and_true]

/-! ## Soundness -/

namespace Sound

/-- Fewer tickets may be awaited, and any number of results discarded. -/
theorem of_sublist [Build] (h : s.Sound) {fewer : List (DocumentId × Nat)}
    (hsub : fewer.Sublist s.awaited) (discarded : Nat) :
    ({ s with awaited := fewer, discarded } : Sequencer).Sound where
  documents_nodup := h.documents_nodup.sublist (hsub.map _)
  sequences_lt := h.sequences_lt.sublist (hsub.map _)
  sequence_le := fun n hn => h.sequence_le n ((hsub.map _).subset hn)
  pending_le := Nat.le_trans hsub.length_le h.pending_le

theorem forget [Build] (h : s.Sound) (document : DocumentId) : (s.forget document).Sound :=
  h.of_sublist List.filter_sublist s.discarded

theorem accept [Build] (h : s.Sound) (t : Ticket) : (s.accept t).2.1.Sound := by
  unfold Sequencer.accept
  dsimp only
  split
  · exact h.forget t.document
  · exact h.of_sublist (List.Sublist.refl _) _

theorem submit [Build] (h : s.Sound) (document : DocumentId) (version : Nat) :
    (s.submit document version).2.1.Sound := by
  rw [submit_snd]
  have hkept := h.of_sublist (s.kept_sublist document) s.discarded
  have hother : document ∉ (s.kept document).map Prod.fst := by
    rintro hmem
    obtain ⟨⟨other, n⟩, hentry, rfl⟩ := List.mem_map.1 hmem
    exact ((mem_kept_iff h).1 hentry).2.1 rfl
  refine ⟨?_, ?_, ?_, ?_⟩
  · rw [List.map_append, List.map_singleton]
    exact hkept.documents_nodup.append (List.nodup_singleton _)
      (List.disjoint_singleton.2 hother)
  · rw [List.map_append, List.map_singleton, List.pairwise_append]
    refine ⟨hkept.sequences_lt, List.pairwise_singleton _ _, ?_⟩
    intro n hn new hnew
    rw [List.mem_singleton.1 hnew]
    exact Nat.lt_succ_of_le (hkept.sequence_le n hn)
  · rw [List.map_append, List.map_singleton, List.forall_mem_append, List.forall_mem_singleton]
    exact ⟨fun n hn => Nat.le_succ_of_le (hkept.sequence_le n hn), Nat.le_refl _⟩
  · unfold pending
    rw [List.length_append, List.length_singleton]
    exact length_kept_lt h

end Sound

/-! ## What is awaited after a call -/

theorem awaits_submit [Build] (h : s.Sound) : (s.submit document version).2.1.Awaits t ↔
    (t.document = document ∧ t.sequence = s.lastSequence + 1) ∨
      (s.Awaits t ∧ t.document ≠ document ∧ ¬ (s.Full document ∧ s.Oldest t.sequence)) := by
  rw [awaits_iff_mem (h.submit document version), submit_snd, awaits_iff_mem h]
  rw [List.mem_append, List.mem_singleton, mem_kept_iff h, Prod.mk.injEq, or_comm]

theorem awaits_forget [Build] (h : s.Sound) :
    (s.forget document).Awaits t ↔ s.Awaits t ∧ t.document ≠ document := by
  rw [awaits_iff_mem (h.forget document), awaits_iff_mem h, forget, List.mem_filter,
    decide_eq_true_eq]

/-- A result that counts ends the wait of its document, one that does not changes nothing. -/
theorem awaits_accept [Build] (h : s.Sound) {result : Ticket} : (s.accept result).2.1.Awaits t ↔
    s.Awaits t ∧ ¬ (s.Awaits result ∧ t.document = result.document) := by
  unfold accept
  dsimp only
  split
  · next hawaits =>
    rw [awaits_forget h, and_iff_right (show s.Awaits result from hawaits)]
  · next hawaits =>
    have hnot : ¬ s.Awaits result := hawaits
    simp only [hnot, false_and, not_false_eq_true, and_true]
    exact Iff.rfl

end Sequencer

/-! ## Calls and turns -/

/-- What can be asked of a sequencer. -/
inductive SequencerCall where
  | submit (document : DocumentId) (version : Nat)
  | accept (result : Ticket)
  | forget (document : DocumentId)

/-- A call, and the sequencer that it meets. -/
structure SequencerTurn where
  before : Sequencer
  call : SequencerCall

namespace SequencerTurn

variable [Build]

/-- The sequencer that a turn leaves. -/
def after (u : SequencerTurn) : Sequencer :=
  match u.call with
  | .submit document version => (u.before.submit document version).2.1
  | .accept result => (u.before.accept result).2.1
  | .forget document => u.before.forget document

/-- The ticket that a submission returns. -/
def issued? (u : SequencerTurn) : Option Ticket :=
  match u.call with
  | .submit document version => some (u.before.submit document version).1
  | _ => none

/-- The ticket whose result counts. -/
def accepted? (u : SequencerTurn) : Option Ticket :=
  match u.call with
  | .accept result => if (u.before.accept result).1 then some result else none
  | _ => none

/-- The result that is brought does not count. -/
def discards (u : SequencerTurn) : Bool :=
  match u.call with
  | .accept result => !(u.before.accept result).1
  | _ => false

/-- The ticket is evicted: a document without a ticket is to have one, there is no room, and no
smaller number is awaited. -/
structure Evicts (u : SequencerTurn) (t : Ticket) : Prop where
  submits : ∃ document version, u.call = .submit document version ∧
    u.before.awaited? document = none
  full : Limit.pendingTickets ≤ u.before.pending
  awaited : u.before.Awaits t
  oldest : u.before.Oldest t.sequence

/-- What ends the wait for the result of a ticket. Results are told apart by document and number. -/
inductive Ends (u : SequencerTurn) (t : Ticket) : Prop
  | overtaken (newer : Ticket) (issued : u.issued? = some newer)
      (document : newer.document = t.document)
  | accepted (result : Ticket) (accepted : u.accepted? = some result)
      (document : result.document = t.document) (sequence : result.sequence = t.sequence)
  | forgotten (call : u.call = .forget t.document)
  | evicted (evicts : u.Evicts t)

variable {u : SequencerTurn} {t : Ticket}

theorem sound_after (h : u.before.Sound) : u.after.Sound := by
  unfold after
  split
  · exact h.submit _ _
  · exact h.accept _
  · exact h.forget _

theorem accepted?_eq_some_iff :
    u.accepted? = some t ↔ u.call = .accept t ∧ u.before.Awaits t := by
  unfold accepted?
  split
  · next result hcall =>
    rw [hcall, SequencerCall.accept.injEq, Option.ite_none_right_eq_some, Sequencer.accept_iff,
      Option.some.injEq]
    constructor
    · rintro ⟨hawaits, rfl⟩
      exact ⟨rfl, hawaits⟩
    · rintro ⟨rfl, hawaits⟩
      exact ⟨hawaits, rfl⟩
  · next hother =>
    refine iff_of_false (fun h => nomatch h) ?_
    rintro ⟨hcall, -⟩
    exact hother t hcall

/-- A turn issues the next number, or none. -/
theorem issued?_or_lastSequence (u : SequencerTurn) :
    (u.issued? = none ∧ u.after.lastSequence = u.before.lastSequence) ∨
      ∃ t, u.issued? = some t ∧ t.sequence = u.before.lastSequence + 1 ∧
        u.after.lastSequence = u.before.lastSequence + 1 := by
  obtain ⟨s, call⟩ := u
  cases call with
  | submit document version =>
    exact .inr ⟨_, rfl, rfl, congrArg Sequencer.lastSequence (s.submit_snd document version)⟩
  | accept result =>
    refine .inl ⟨rfl, ?_⟩
    unfold after Sequencer.accept
    dsimp only
    split <;> rfl
  | forget document => exact .inl ⟨rfl, rfl⟩

theorem lastSequence_le (u : SequencerTurn) : u.before.lastSequence ≤ u.after.lastSequence := by
  rcases u.issued?_or_lastSequence with ⟨-, h⟩ | ⟨_, -, -, h⟩
  · exact Nat.le_of_eq h.symm
  · exact Nat.le_of_lt (Nat.lt_of_succ_le (Nat.le_of_eq h.symm))

theorem discarded_after (u : SequencerTurn) :
    u.after.discarded = u.before.discarded + if u.discards then 1 else 0 := by
  obtain ⟨s, call⟩ := u
  cases call with
  | submit document version =>
    have hkept : (s.submit document version).2.1.discarded = s.discarded := by
      rw [Sequencer.submit_snd]
    exact hkept
  | accept result =>
    unfold after discards Sequencer.accept
    dsimp only
    split <;> rfl
  | forget document => rfl

/-- A ticket that is just issued is awaited. -/
theorem awaits_after_issued (h : u.before.Sound) (hissued : u.issued? = some t) :
    u.after.Awaits t := by
  obtain ⟨s, call⟩ := u
  cases call with
  | submit document version =>
    cases hissued
    exact (Sequencer.awaits_submit h).2 (.inl ⟨rfl, rfl⟩)
  | accept result => cases hissued
  | forget document => cases hissued

/-! ## What ends the wait for a result -/

section Ends

variable {s : Sequencer} {document : DocumentId} {version : Nat} {result : Ticket}

theorem evicts_submit_iff : Evicts ⟨s, .submit document version⟩ t ↔
    s.Awaits t ∧ s.Full document ∧ s.Oldest t.sequence := by
  constructor
  · rintro ⟨⟨_, _, hcall, hnone⟩, full, awaited, oldest⟩
    cases hcall
    exact ⟨awaited, ⟨hnone, full⟩, oldest⟩
  · rintro ⟨awaited, ⟨hnone, full⟩, oldest⟩
    exact ⟨⟨_, _, rfl, hnone⟩, full, awaited, oldest⟩

theorem ends_submit_iff : Ends ⟨s, .submit document version⟩ t ↔
    t.document = document ∨ Evicts ⟨s, .submit document version⟩ t := by
  constructor
  · rintro (⟨newer, issued, hdocument⟩ | ⟨_, accepted, -, -⟩ | hcall | evicts)
    · cases issued
      exact .inl hdocument.symm
    · cases accepted
    · cases hcall
    · exact .inr evicts
  · rintro (hsame | evicts)
    · exact .overtaken _ rfl hsame.symm
    · exact .evicted evicts

theorem ends_accept_iff : Ends ⟨s, .accept result⟩ t ↔
    s.Awaits result ∧ t.document = result.document ∧ t.sequence = result.sequence := by
  constructor
  · rintro (⟨_, issued, -⟩ | ⟨other, accepted, hdocument, hsequence⟩ | hcall | evicts)
    · cases issued
    · obtain ⟨hcall, hawaits⟩ := accepted?_eq_some_iff.1 accepted
      cases hcall
      exact ⟨hawaits, hdocument.symm, hsequence.symm⟩
    · cases hcall
    · obtain ⟨_, _, hcall, -⟩ := evicts.submits
      cases hcall
  · rintro ⟨hawaits, hdocument, hsequence⟩
    exact .accepted result (accepted?_eq_some_iff.2 ⟨rfl, hawaits⟩) hdocument.symm hsequence.symm

theorem ends_forget_iff : Ends ⟨s, .forget document⟩ t ↔ t.document = document := by
  constructor
  · rintro (⟨_, issued, -⟩ | ⟨_, accepted, -, -⟩ | hcall | evicts)
    · cases issued
    · cases accepted
    · cases hcall
      rfl
    · obtain ⟨_, _, hcall, -⟩ := evicts.submits
      cases hcall
  · intro hsame
    exact .forgotten (congrArg SequencerCall.forget hsame.symm)

end Ends

/-- A ticket is awaited after a turn if it was before and the turn has not ended its wait. -/
theorem awaits_after_iff (h : u.before.Sound) (hgiven : t.sequence ≤ u.before.lastSequence) :
    u.after.Awaits t ↔ u.before.Awaits t ∧ ¬ u.Ends t := by
  obtain ⟨s, call⟩ := u
  cases call with
  | submit document version =>
    have hold : ¬ (t.document = document ∧ t.sequence = s.lastSequence + 1) := fun hnew =>
      Nat.not_succ_le_self _ (hnew.2 ▸ hgiven)
    refine (Sequencer.awaits_submit h).trans ?_
    rw [or_iff_right hold, ends_submit_iff, evicts_submit_iff, not_or]
    refine and_congr_right fun hawaits => and_congr_right fun _ => ?_
    rw [and_iff_right hawaits]
  | accept result =>
    refine (Sequencer.awaits_accept h).trans (and_congr_right fun hawaits => ?_)
    rw [ends_accept_iff]
    refine not_congr (and_congr_right fun hresult => (and_iff_left_of_imp fun hdocument => ?_).symm)
    exact hawaits.sequence_eq hresult hdocument
  | forget document =>
    refine (Sequencer.awaits_forget h).trans (and_congr_right fun _ => ?_)
    rw [ends_forget_iff]

/-- What is awaited after a turn was awaited before, or is the ticket that the turn issued. -/
theorem awaits_of_after (h : u.before.Sound) (hawaits : u.after.Awaits t) :
    u.before.Awaits t ∨ ∃ new, u.issued? = some new ∧ new.document = t.document ∧
      new.sequence = t.sequence := by
  obtain ⟨s, call⟩ := u
  cases call with
  | submit document version =>
    rcases (Sequencer.awaits_submit h).1 hawaits with ⟨hdocument, hsequence⟩ | ⟨hbefore, -⟩
    · exact .inr ⟨_, rfl, hdocument.symm, hsequence.symm⟩
    · exact .inl hbefore
  | accept result => exact .inl ((Sequencer.awaits_accept h).1 hawaits).1
  | forget document => exact .inl ((Sequencer.awaits_forget h).1 hawaits).1

/-- An eviction takes a ticket of another document, and a submission takes no such ticket in any
other way. -/
theorem evicts_iff (h : u.before.Sound) : u.Evicts t ↔
    (∃ document version, u.call = .submit document version ∧ document ≠ t.document) ∧
      u.before.Awaits t ∧ ¬ u.after.Awaits t := by
  constructor
  · intro evicts
    obtain ⟨document, version, hcall, hnone⟩ := evicts.submits
    have hother : document ≠ t.document := by
      rintro rfl
      cases hnone.symm.trans evicts.awaited
    refine ⟨⟨document, version, hcall, hother⟩, evicts.awaited, ?_⟩
    rw [awaits_after_iff h (Sequencer.le_of_awaited? h evicts.awaited)]
    exact fun hstill => hstill.2 (.evicted evicts)
  · rintro ⟨⟨document, version, hcall, hother⟩, hawaits, hgone⟩
    obtain ⟨s, call⟩ := u
    obtain rfl : call = .submit document version := hcall
    rw [awaits_after_iff h (Sequencer.le_of_awaited? h hawaits), and_iff_right hawaits, not_not,
      ends_submit_iff] at hgone
    exact hgone.resolve_left hother.symm

/-- An eviction happens just where a submission finds no room. -/
theorem exists_evicts_iff (h : u.before.Sound) : (∃ t, u.Evicts t) ↔
    ∃ document version, u.call = .submit document version ∧ u.before.Full document := by
  constructor
  · rintro ⟨t, ⟨document, version, hcall, hnone⟩, full, -, -⟩
    exact ⟨document, version, hcall, hnone, full⟩
  · rintro ⟨document, version, hcall, hnone, full⟩
    cases hawaited : u.before.awaited with
    | nil =>
      have hpending : u.before.pending = 0 := congrArg List.length hawaited
      rw [hpending] at full
      exact (Nat.not_lt.2 full Limit.pendingTickets_pos).elim
    | cons first rest =>
      have hmem : first ∈ u.before.awaited := by
        rw [hawaited]
        exact List.mem_cons_self
      have hold : u.before.Oldest first.2 := by
        rw [Sequencer.oldest_iff_head? h hmem, hawaited]
        rfl
      exact ⟨⟨first.1, 0, first.2⟩, ⟨document, version, hcall, hnone⟩, full,
        (Sequencer.awaits_iff_mem h).2 hmem, hold⟩

end SequencerTurn

end EvlCheck
