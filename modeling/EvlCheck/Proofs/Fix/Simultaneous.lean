/-
The edits of a list are made at once. They can be made exactly if every range has its places, none
ends before it starts, and of any two one ends where the other starts or before; then the text
between the ranges stays, and each range gives way to the text of its edit.

Edits are made one after the other, from the last place on. What carries the proof is that the text
behind the places still to come is finished already (`Rewritten`): making one more edit moves the
border between both to its start.
-/
import EvlCheck.Proofs.Fix.Place
import Mathlib.Data.List.Pairwise
import Mathlib.Data.List.Permutation

namespace EvlCheck

open Text

/-! ## Ranges in bytes -/

namespace Edit

variable {cs : List Char}

/-- The range of the edit is that of the bytes from `start` up to `stop`. -/
structure Resolves (cs : List Char) (e : Edit) (start stop : Nat) : Prop where
  start_eq : byteOffset cs e.range.startLine e.range.startColumn = .ok start
  stop_eq : byteOffset cs e.range.endLine e.range.endColumn = .ok stop

/-- Both ends of the range have their places, and it does not end before it starts. -/
def Fits (cs : List Char) (e : Edit) : Prop :=
  ∃ start stop, e.Resolves cs start stop ∧ start ≤ stop

/-- The range of `a` ends where that of `b` starts, or before. -/
def Precedes (cs : List Char) (a b : Edit) : Prop :=
  ∀ aStart aStop bStart bStop, a.Resolves cs aStart aStop → b.Resolves cs bStart bStop →
    aStop ≤ bStart

/-- One of both ranges ends where the other starts, or before. -/
def Apart (cs : List Char) (a b : Edit) : Prop :=
  ∀ aStart aStop bStart bStop, a.Resolves cs aStart aStop → b.Resolves cs bStart bStop →
    aStop ≤ bStart ∨ bStop ≤ aStart

/-- Both edits insert at one place. -/
def Meet (cs : List Char) (a b : Edit) : Prop :=
  ∃ place, a.Resolves cs place place ∧ b.Resolves cs place place

theorem Resolves.unique {e : Edit} {start stop start' stop' : Nat} (h : e.Resolves cs start stop)
    (h' : e.Resolves cs start' stop') : start = start' ∧ stop = stop' := by
  have hstart := h.start_eq.symm.trans h'.start_eq
  have hstop := h.stop_eq.symm.trans h'.stop_eq
  cases hstart
  cases hstop
  exact ⟨rfl, rfl⟩

theorem Apart.symm {a b : Edit} (h : a.Apart cs b) : b.Apart cs a :=
  fun bStart bStop aStart aStop hb ha => (h aStart aStop bStart bStop ha hb).symm

theorem Meet.symm {a b : Edit} (h : a.Meet cs b) : b.Meet cs a :=
  let ⟨place, ha, hb⟩ := h
  ⟨place, hb, ha⟩

/-- Two ranges that precede each other are one place. -/
theorem Precedes.meet {a b : Edit} (hab : a.Precedes cs b) (ha : a.Fits cs) (hb : b.Fits cs)
    (hba : b.Precedes cs a) : a.Meet cs b := by
  obtain ⟨aStart, aStop, hra, hale⟩ := ha
  obtain ⟨bStart, bStop, hrb, hble⟩ := hb
  have h1 := hab _ _ _ _ hra hrb
  have h2 := hba _ _ _ _ hrb hra
  obtain rfl : aStart = aStop := by omega
  obtain rfl : aStart = bStart := by omega
  obtain rfl : aStart = bStop := by omega
  exact ⟨aStart, hra, hrb⟩

end Edit

/-! ## From bytes to characters and back -/

namespace Text

/-- Fewer characters of a text have fewer bytes. -/
theorem byteSize_take_lt {cs : List Char} {m n : Nat} (hmn : m < n) (hn : n ≤ cs.length) :
    byteSize (cs.take m) < byteSize (cs.take n) := by
  obtain ⟨k, rfl⟩ := Nat.exists_eq_add_of_lt hmn
  have hpart : (cs.drop m).take (k + 1) ≠ [] := by
    rw [← List.length_pos_iff, List.length_take, List.length_drop]
    omega
  have := byteSize_pos hpart
  rw [Nat.add_assoc, List.take_add, byteSize_append]
  omega

theorem byteSize_take_le_iff {cs : List Char} {m n : Nat} (hm : m ≤ cs.length)
    (hn : n ≤ cs.length) : byteSize (cs.take m) ≤ byteSize (cs.take n) ↔ m ≤ n := by
  rcases Nat.lt_trichotomy m n with hlt | rfl | hgt
  · have := byteSize_take_lt hlt hn
    omega
  · exact ⟨fun _ => Nat.le_refl _, fun _ => Nat.le_refl _⟩
  · have := byteSize_take_lt hgt hm
    omega

/-- Two parts of a text from its start on with as many bytes are one. -/
theorem eq_of_byteSize_eq {p q cs : List Char} (hp : p <+: cs) (hq : q <+: cs)
    (h : byteSize p = byteSize q) : p = q := by
  have hpe := List.prefix_iff_eq_take.1 hp
  have hqe := List.prefix_iff_eq_take.1 hq
  have hple := hp.length_le
  have hqle := hq.length_le
  rw [hpe, hqe] at h
  have hle := (byteSize_take_le_iff hple hqle).1 h.le
  have hge := (byteSize_take_le_iff hqle hple).1 h.ge
  rw [hpe, hqe, Nat.le_antisymm hle hge]

/-- A text cut at two places. -/
theorem exists_cut {cs : List Char} {m n : Nat} (hmn : m ≤ n) (hn : n ≤ cs.length) :
    ∃ a b c, cs = a ++ b ++ c ∧ a.length = m ∧ (a ++ b).length = n := by
  have htake : cs.take m ++ (cs.drop m).take (n - m) = cs.take n := by
    rw [← List.take_add, Nat.add_sub_cancel' hmn]
  refine ⟨cs.take m, (cs.drop m).take (n - m), cs.drop n, ?_, ?_, ?_⟩
  · rw [htake, List.take_append_drop]
  · rw [List.length_take]; omega
  · rw [htake, List.length_take]; omega

end Text

namespace Replacement

variable {cs : List Char}

/-- The ends are the places of the edit's range, in order. -/
structure Sound (cs : List Char) (r : Replacement) : Prop where
  start : Locates cs r.edit.range.startLine r.edit.range.startColumn r.start
  stop : Locates cs r.edit.range.endLine r.edit.range.endColumn r.stop
  ordered : r.start ≤ r.stop

namespace Sound

variable {r a b : Replacement}

theorem start_le (h : r.Sound cs) : r.start ≤ cs.length := h.start.le_length

theorem stop_le (h : r.Sound cs) : r.stop ≤ cs.length := h.stop.le_length

theorem resolves (h : r.Sound cs) :
    r.edit.Resolves cs (byteSize (cs.take r.start)) (byteSize (cs.take r.stop)) where
  start_eq := byteOffset_eq_ok_iff.2 ⟨r.start, h.start, rfl⟩
  stop_eq := byteOffset_eq_ok_iff.2 ⟨r.stop, h.stop, rfl⟩

theorem fits (h : r.Sound cs) : r.edit.Fits cs :=
  ⟨_, _, h.resolves, (byteSize_take_le_iff h.start_le h.stop_le).2 h.ordered⟩

theorem precedes_iff (ha : a.Sound cs) (hb : b.Sound cs) :
    a.edit.Precedes cs b.edit ↔ a.stop ≤ b.start := by
  rw [← byteSize_take_le_iff ha.stop_le hb.start_le]
  constructor
  · intro h
    exact h _ _ _ _ ha.resolves hb.resolves
  · intro h aStart aStop bStart bStop hra hrb
    rw [← (ha.resolves.unique hra).2, ← (hb.resolves.unique hrb).1]
    exact h

theorem apart_iff (ha : a.Sound cs) (hb : b.Sound cs) :
    a.edit.Apart cs b.edit ↔ a.stop ≤ b.start ∨ b.stop ≤ a.start := by
  rw [← precedes_iff ha hb, ← precedes_iff hb ha]
  constructor
  · intro h
    refine (h _ _ _ _ ha.resolves hb.resolves).imp ?_ ?_
    · intro hle
      exact (precedes_iff ha hb).2 ((byteSize_take_le_iff ha.stop_le hb.start_le).1 hle)
    · intro hle
      exact (precedes_iff hb ha).2 ((byteSize_take_le_iff hb.stop_le ha.start_le).1 hle)
  · intro h aStart aStop bStart bStop hra hrb
    exact h.imp (· _ _ _ _ hra hrb) (· _ _ _ _ hrb hra)

end Sound

/-- An edit resolves to what is sound for it. -/
theorem resolve_eq_ok_iff {e : Edit} {r : Replacement} :
    resolve cs e = .ok r ↔ r.edit = e ∧ r.Sound cs := by
  constructor
  · intro h
    unfold resolve at h
    dsimp only at h
    split at h
    · cases h
    · next start hstart =>
      split at h
      · cases h
      · next stop hstop =>
        split at h
        · cases h
        · next hle =>
          cases h
          exact ⟨rfl, charOffset?_eq_some_iff.1 hstart, charOffset?_eq_some_iff.1 hstop,
            Nat.le_of_not_lt hle⟩
  · rintro ⟨rfl, h⟩
    unfold resolve
    dsimp only
    rw [charOffset?_eq_some_iff.2 h.start, charOffset?_eq_some_iff.2 h.stop]
    exact if_neg (Nat.not_lt.2 h.ordered)

/-- An edit that fits has its replacement. -/
theorem exists_of_fits {e : Edit} (h : e.Fits cs) : ∃ r : Replacement, r.edit = e ∧ r.Sound cs := by
  obtain ⟨start, stop, hr, hle⟩ := h
  obtain ⟨m, hm, rfl⟩ := byteOffset_eq_ok_iff.1 hr.start_eq
  obtain ⟨n, hn, rfl⟩ := byteOffset_eq_ok_iff.1 hr.stop_eq
  exact ⟨⟨m, n, e⟩, rfl, hm, hn, (byteSize_take_le_iff hm.le_length hn.le_length).1 hle⟩

theorem mapM_resolve_eq_ok_iff {edits : List Edit} {rs : List Replacement} :
    edits.mapM (resolve cs) = .ok rs ↔ rs.map (·.edit) = edits ∧ ∀ r ∈ rs, r.Sound cs := by
  induction edits generalizing rs with
  | nil =>
    rw [List.mapM_nil, List.map_eq_nil_iff]
    constructor
    · intro h
      cases h
      exact ⟨rfl, fun r hr => by cases hr⟩
    · rintro ⟨rfl, -⟩
      rfl
  | cons e edits ih =>
    rw [List.mapM_cons]
    constructor
    · intro h
      cases he : resolve cs e with
      | error x => rw [he] at h; cases h
      | ok r =>
        cases hs : edits.mapM (resolve cs) with
        | error x => rw [he, hs] at h; cases h
        | ok rs' =>
          rw [he, hs] at h
          cases h
          obtain ⟨hedit, hr⟩ := resolve_eq_ok_iff.1 he
          obtain ⟨hmap, hall⟩ := ih.1 hs
          rw [List.map_cons, hedit, hmap, List.forall_mem_cons]
          exact ⟨rfl, hr, hall⟩
    · rintro ⟨hmap, hall⟩
      cases rs with
      | nil => cases hmap
      | cons r rs =>
        rw [List.map_cons, List.cons_eq_cons] at hmap
        rw [List.forall_mem_cons] at hall
        rw [resolve_eq_ok_iff.2 ⟨hmap.1, hall.1⟩, ih.2 ⟨hmap.2, hall.2⟩]
        rfl

theorem exists_of_forall_fits {edits : List Edit} (h : ∀ e ∈ edits, e.Fits cs) :
    ∃ rs : List Replacement, rs.map (·.edit) = edits ∧ ∀ r ∈ rs, r.Sound cs := by
  induction edits with
  | nil => exact ⟨[], rfl, fun r hr => by cases hr⟩
  | cons e edits ih =>
    rw [List.forall_mem_cons] at h
    obtain ⟨r, hedit, hr⟩ := exists_of_fits h.1
    obtain ⟨rs, hmap, hall⟩ := ih h.2
    exact ⟨r :: rs, by rw [List.map_cons, hedit, hmap], List.forall_mem_cons.2 ⟨hr, hall⟩⟩

/-! ## The order from the last place on -/

/-- From the first of the list on, each ends where those before it start, or before. -/
def Descending (rs : List Replacement) : Prop := rs.Pairwise fun a b => b.stop ≤ a.start

/-- Looking at neighbours is enough, as no range ends before it starts. -/
theorem overlap?_eq_none_iff {rs : List Replacement} (h : ∀ r ∈ rs, r.start ≤ r.stop) :
    overlap? rs = none ↔ Descending rs := by
  induction rs with
  | nil => exact ⟨fun _ => .nil, fun _ => rfl⟩
  | cons a rs ih =>
    cases rs with
    | nil => exact ⟨fun _ => List.pairwise_singleton _ a, fun _ => rfl⟩
    | cons b rs =>
      rw [List.forall_mem_cons] at h
      have hb := (List.forall_mem_cons.1 h.2).1
      specialize ih h.2
      rw [overlap?]
      constructor
      · intro hnone
        split at hnone
        · cases hnone
        · next hab =>
          have hrest := ih.1 hnone
          refine List.pairwise_cons.2 ⟨?_, hrest⟩
          intro c hc
          rcases List.mem_cons.1 hc with rfl | hc
          · omega
          · have := (List.pairwise_cons.1 hrest).1 c hc
            omega
      · intro hall
        obtain ⟨ha, hrest⟩ := List.pairwise_cons.1 hall
        have hab := ha b List.mem_cons_self
        rw [if_neg (by omega)]
        exact ih.2 hrest

theorem before_eq_true_iff {a b : Replacement} :
    before a b = true ↔ b.start < a.start ∨ (a.start = b.start ∧ b.stop ≤ a.stop) := by
  simp [before]

theorem pairwise_sorted (rs : List Replacement) :
    (rs.mergeSort before).Pairwise fun a b => before a b = true := by
  refine List.pairwise_mergeSort ?_ ?_ rs
  · intro a b c hab hbc
    rw [before_eq_true_iff] at *
    omega
  · intro a b
    rw [Bool.or_eq_true, before_eq_true_iff, before_eq_true_iff]
    omega

theorem forall_mem_sorted {rs : List Replacement} {P : Replacement → Prop} (h : ∀ r ∈ rs, P r) :
    ∀ r ∈ rs.mergeSort before, P r := by
  intro r hr
  exact h r (List.mem_mergeSort.1 hr)

theorem perm_map_sorted {rs : List Replacement} {edits : List Edit}
    (h : rs.map (·.edit) = edits) : ((rs.mergeSort before).map (·.edit)).Perm edits := by
  rw [← h]
  exact (List.mergeSort_perm rs before).map _

/-- Sorted by start and then by end, ranges descend exactly if they are apart. -/
theorem descending_sorted_iff {rs : List Replacement} {edits : List Edit}
    (hedits : rs.map (·.edit) = edits) (h : ∀ r ∈ rs, r.Sound cs) :
    Descending (rs.mergeSort before) ↔ edits.Pairwise (Edit.Apart cs) := by
  have hsound := forall_mem_sorted h
  rw [← List.Perm.pairwise_iff Edit.Apart.symm (perm_map_sorted hedits), List.pairwise_map]
  constructor
  · intro hdesc
    refine hdesc.imp_of_mem ?_
    intro a b ha hb hab
    exact (Sound.apart_iff (hsound a ha) (hsound b hb)).2 (.inr hab)
  · intro hapart
    refine (hapart.and (pairwise_sorted rs)).imp_of_mem ?_
    rintro a b ha hb ⟨hab, hbefore⟩
    have hordered := (hsound a ha).ordered
    rw [Sound.apart_iff (hsound a ha) (hsound b hb)] at hab
    rw [before_eq_true_iff] at hbefore
    omega

end Replacement

/-! ## What edits make of a text -/

/-- The text `cs` from behind `before` on, which is `rest`, becomes `out`: what stands before the
first edit is kept, its range gives way to its text, and so on from behind its range. -/
inductive Rewritten (cs : List Char) :
    List Char → List Char → List Edit → List Char → Prop
  | done (before rest : List Char) : Rewritten cs before rest [] rest
  | edit {before kept old rest : List Char} {e : Edit} {edits : List Edit} {out : List Char}
      (range : e.Resolves cs (byteSize (before ++ kept)) (byteSize (before ++ kept ++ old)))
      (next : Rewritten cs (before ++ kept ++ old) rest edits out) :
      Rewritten cs before (kept ++ old ++ rest) (e :: edits) (kept ++ e.text.toList ++ out)

namespace Rewritten

variable {cs before rest out : List Char} {edits : List Edit}

/-- Text before the first edit is kept. -/
theorem keep {kept : List Char} (h : Rewritten cs (before ++ kept) rest edits out) :
    Rewritten cs before (kept ++ rest) edits (kept ++ out) := by
  generalize hfront : before ++ kept = front at h
  cases h with
  | done => exact .done before _
  | @edit _ more old rest e edits out range next =>
    subst hfront
    rw [List.append_assoc before] at range next
    have := Rewritten.edit range next
    rwa [List.append_assoc kept, List.append_assoc kept, List.append_assoc kept,
      List.append_assoc kept] at this

/-- Edits in their order make one text only. -/
theorem unique (h : Rewritten cs before rest edits out) (hcs : before ++ rest = cs)
    {out' : List Char} (h' : Rewritten cs before rest edits out') : out = out' := by
  induction h generalizing out' with
  | done => cases h'; rfl
  | @edit before kept old rest e edits out range next ih =>
    generalize hrest : kept ++ old ++ rest = rest' at h'
    cases h' with
    | @edit _ kept' old' rest' _ _ out' range' next' =>
      obtain ⟨hstart, hstop⟩ := range.unique range'
      have hcs' : before ++ (kept' ++ old' ++ rest') = cs := by rw [← hrest]; exact hcs
      have hkept : before ++ kept <+: cs :=
        ⟨old ++ rest, by rw [← hcs]; simp only [List.append_assoc]⟩
      have hkept' : before ++ kept' <+: cs :=
        ⟨old' ++ rest', by rw [← hcs']; simp only [List.append_assoc]⟩
      obtain rfl : kept = kept' :=
        List.append_cancel_left (eq_of_byteSize_eq hkept hkept' hstart)
      have hold : before ++ kept ++ old <+: cs :=
        ⟨rest, by rw [← hcs]; simp only [List.append_assoc]⟩
      have hold' : before ++ kept ++ old' <+: cs :=
        ⟨rest', by rw [← hcs']; simp only [List.append_assoc]⟩
      obtain rfl : old = old' := List.append_cancel_left (eq_of_byteSize_eq hold hold' hstop)
      obtain rfl : rest = rest' := List.append_cancel_left hrest
      rw [ih (by rw [← hcs]; simp only [List.append_assoc]) next']

end Rewritten

/-- From the last replacement on, the text in front of what is finished stays as it was. -/
theorem rewritten_foldl {cs : List Char} {rs : List Replacement} :
    ∀ {front back tail : List Char} {edits : List Edit}, front ++ back = cs →
      Rewritten cs front back edits tail → (∀ r ∈ rs, r.Sound cs) →
      (∀ r ∈ rs, r.stop ≤ front.length) → Replacement.Descending rs →
      Rewritten cs [] cs ((rs.map (·.edit)).reverse ++ edits)
        (rs.foldl Replacement.apply (front ++ tail)) := by
  induction rs with
  | nil =>
    intro front back tail edits hcs h _ _ _
    have hkept : Rewritten cs [] (front ++ back) edits (front ++ tail) := Rewritten.keep h
    rwa [hcs] at hkept
  | cons r rs ih =>
    intro front back tail edits hcs h hsound hfront hdesc
    rw [List.forall_mem_cons] at hsound hfront
    obtain ⟨hbelow, hdesc⟩ := List.pairwise_cons.1 hdesc
    have hordered := hsound.1.ordered
    -- the text in front of the border, cut at both ends of the range
    obtain ⟨a, old, kept, rfl, ha, hold⟩ := exists_cut hordered hfront.1
    have htail : Rewritten cs (a ++ old) (kept ++ back) edits (kept ++ tail) := h.keep
    have hcut : a ++ (old ++ (kept ++ back)) = cs := by
      rw [← hcs]; simp only [List.append_assoc]
    have hstart : cs.take r.start = a := by rw [← hcut, List.take_left' ha]
    have hstop : cs.take r.stop = a ++ old := by
      rw [← hcut, ← List.append_assoc, List.take_left' hold]
    have hrange := hsound.1.resolves
    rw [hstart, hstop] at hrange
    have hnext : Rewritten cs a (old ++ (kept ++ back)) (r.edit :: edits)
        (r.edit.text.toList ++ (kept ++ tail)) := by
      have hresolves : r.edit.Resolves cs (byteSize (a ++ [])) (byteSize (a ++ [] ++ old)) := by
        rwa [List.append_nil]
      exact .edit hresolves (by rwa [List.append_nil])
    have happly : Replacement.apply (a ++ old ++ kept ++ tail) r =
        a ++ (r.edit.text.toList ++ (kept ++ tail)) := by
      unfold Replacement.apply
      rw [List.append_assoc (a ++ old), List.drop_left' hold, List.append_assoc a,
        List.take_left' ha, List.append_assoc a]
    rw [List.foldl_cons, happly, List.map_cons, List.reverse_cons, List.append_assoc]
    refine ih hcut hnext hsound.2 ?_ hdesc
    intro b hb
    rw [ha]
    exact hbelow b hb

/-! ## When edits are made, and what comes of it -/

section

variable {cs : List Char} {edits : List Edit}

theorem applyEdits_eq_ok_iff {out : List Char} :
    applyEdits cs edits = .ok out ↔ ∃ rs : List Replacement, rs.map (·.edit) = edits ∧
      (∀ r ∈ rs, r.Sound cs) ∧ Replacement.Descending (rs.mergeSort Replacement.before) ∧
      (rs.mergeSort Replacement.before).foldl Replacement.apply cs = out := by
  unfold applyEdits
  constructor
  · intro h
    cases hs : edits.mapM (Replacement.resolve cs) with
    | error x => rw [hs] at h; cases h
    | ok rs =>
      obtain ⟨hmap, hsound⟩ := Replacement.mapM_resolve_eq_ok_iff.1 hs
      have hordered := Replacement.forall_mem_sorted fun r hr => (hsound r hr).ordered
      rw [hs] at h
      dsimp only [bind, Except.bind] at h
      split at h
      · cases h
      · next hnone =>
        cases h
        exact ⟨rs, hmap, hsound, (Replacement.overlap?_eq_none_iff hordered).1 hnone, rfl⟩
  · rintro ⟨rs, hmap, hsound, hdesc, rfl⟩
    have hordered := Replacement.forall_mem_sorted fun r hr => (hsound r hr).ordered
    rw [Replacement.mapM_resolve_eq_ok_iff.2 ⟨hmap, hsound⟩]
    dsimp only [bind, Except.bind]
    rw [(Replacement.overlap?_eq_none_iff hordered).2 hdesc]

/-- Edits are made exactly if each has its range and all are apart. -/
theorem exists_applyEdits_iff :
    (∃ out, applyEdits cs edits = .ok out) ↔
      (∀ e ∈ edits, e.Fits cs) ∧ edits.Pairwise (Edit.Apart cs) := by
  constructor
  · rintro ⟨out, h⟩
    obtain ⟨rs, hmap, hsound, hdesc, -⟩ := applyEdits_eq_ok_iff.1 h
    refine ⟨?_, (Replacement.descending_sorted_iff hmap hsound).1 hdesc⟩
    rw [← hmap, List.forall_mem_map]
    exact fun r hr => (hsound r hr).fits
  · rintro ⟨hfits, hapart⟩
    obtain ⟨rs, hmap, hsound⟩ := Replacement.exists_of_forall_fits hfits
    exact ⟨_, applyEdits_eq_ok_iff.2
      ⟨rs, hmap, hsound, (Replacement.descending_sorted_iff hmap hsound).2 hapart, rfl⟩⟩

/-- What comes of edits is the text rewritten in the order of their places. -/
theorem rewritten_of_applyEdits {out : List Char} (h : applyEdits cs edits = .ok out) :
    ∃ order : List Edit, order.Perm edits ∧ order.Pairwise (Edit.Precedes cs) ∧
      Rewritten cs [] cs order out := by
  obtain ⟨rs, hmap, hsound, hdesc, rfl⟩ := applyEdits_eq_ok_iff.1 h
  have hsorted := Replacement.forall_mem_sorted hsound
  refine ⟨((rs.mergeSort Replacement.before).map (·.edit)).reverse, ?_, ?_, ?_⟩
  · exact (List.reverse_perm _).trans (Replacement.perm_map_sorted hmap)
  · rw [List.pairwise_reverse, List.pairwise_map]
    refine hdesc.imp_of_mem ?_
    intro a b ha hb hab
    exact (Replacement.Sound.precedes_iff (hsorted b hb) (hsorted a ha)).2 hab
  · have hdone : Rewritten cs cs [] [] [] := .done cs []
    have := rewritten_foldl (List.append_nil cs) hdone hsorted
      (fun r hr => (hsorted r hr).stop_le) hdesc
    rwa [List.append_nil, List.append_nil] at this

/-- Without two insertions at one place there is only one order of the places. -/
theorem order_unique {order order' : List Edit} (hperm : order.Perm order')
    (hfits : ∀ e ∈ order, e.Fits cs) (hmeet : order.Pairwise fun a b => ¬ a.Meet cs b)
    (h : order.Pairwise (Edit.Precedes cs)) (h' : order'.Pairwise (Edit.Precedes cs)) :
    order = order' := by
  refine List.Perm.eq_of_pairwise ?_ h h' hperm
  intro a b ha hb hab hba
  by_contra hne
  have hb' := hperm.mem_iff.2 hb
  have : Std.Symm fun a b : Edit => ¬ a.Meet cs b := ⟨fun a b hnot hboth => hnot hboth.symm⟩
  exact hmeet.forall ha hb' hne (hab.meet (hfits a ha) (hfits b hb') hba)

/-- The order in which edits are listed does not matter, unless two insert at one place. -/
theorem applyEdits_perm {other : List Edit} {out : List Char} (h : applyEdits cs edits = .ok out)
    (hperm : other.Perm edits) (hmeet : edits.Pairwise fun a b => ¬ a.Meet cs b) :
    applyEdits cs other = .ok out := by
  have hok := exists_applyEdits_iff.1 ⟨out, h⟩
  obtain ⟨out', h'⟩ : ∃ out', applyEdits cs other = .ok out' := by
    refine exists_applyEdits_iff.2 ⟨?_, ?_⟩
    · exact fun e he => hok.1 e (hperm.mem_iff.1 he)
    · exact (List.Perm.pairwise_iff Edit.Apart.symm hperm).2 hok.2
  obtain ⟨order, hord, hsorted, hout⟩ := rewritten_of_applyEdits h
  obtain ⟨order', hord', hsorted', hout'⟩ := rewritten_of_applyEdits h'
  have hmeet' : order.Pairwise fun a b => ¬ a.Meet cs b := by
    refine (List.Perm.pairwise_iff ?_ hord).2 hmeet
    exact fun hnot hm => hnot hm.symm
  obtain rfl : order = order' := by
    refine order_unique (hord.trans (hperm.symm.trans hord'.symm)) ?_ hmeet' hsorted hsorted'
    exact fun e he => hok.1 e (hord.mem_iff.1 he)
  rw [h', hout'.unique rfl hout]

end

/-- Edits are made at once: exactly if every range has its places and does not end before it starts,
and all ranges are apart; then the text is rewritten in the order of their places, in which an
insertion stands before a range that starts at its place. How the edits are listed does not matter,
unless two insert at one place. -/
theorem applyEdits_simultaneous (cs : List Char) (edits : List Edit) :
    ((∃ out, applyEdits cs edits = .ok out) ↔
      (∀ e ∈ edits, e.Fits cs) ∧ edits.Pairwise (Edit.Apart cs)) ∧
    ∀ out, applyEdits cs edits = .ok out →
      (∃ order : List Edit, order.Perm edits ∧ order.Pairwise (Edit.Precedes cs) ∧
        Rewritten cs [] cs order out) ∧
      ∀ other : List Edit, other.Perm edits → (edits.Pairwise fun a b => ¬ a.Meet cs b) →
        applyEdits cs other = .ok out := by
  refine ⟨exists_applyEdits_iff, ?_⟩
  intro out h
  exact ⟨rewritten_of_applyEdits h, fun other hperm hmeet => applyEdits_perm h hperm hmeet⟩

/-- Two characters are replaced, and something is inserted in front of them: in either order of the
list the insertion comes first. -/
theorem applyEdits_simultaneous_insertion :
    let replace : Edit := ⟨⟨1, 2, 1, 4⟩, "X", 1⟩
    let insert : Edit := ⟨⟨1, 2, 1, 2⟩, "Y", 1⟩
    applyEdits "abcd".toList [replace, insert] = .ok "aYXd".toList ∧
      ([insert, replace].Perm [replace, insert] ∧ ¬ replace.Meet "abcd".toList insert) ∧
      applyEdits "abcd".toList [insert, replace] = .ok "aYXd".toList := by
  intro replace insert
  have hok : applyEdits "abcd".toList [replace, insert] = .ok "aYXd".toList := by cbv
  have hperm : [insert, replace].Perm [replace, insert] := .swap replace insert []
  have hmeet : ¬ replace.Meet "abcd".toList insert := by
    rintro ⟨place, hreplace, -⟩
    have hstart : byteOffset "abcd".toList 1 2 = .ok 1 := by rfl
    have hstop : byteOffset "abcd".toList 1 4 = .ok 3 := by rfl
    cases hstart.symm.trans hreplace.start_eq
    cases hstop.symm.trans hreplace.stop_eq
  refine ⟨hok, ⟨hperm, hmeet⟩, ((applyEdits_simultaneous _ _).2 _ hok).2 _ hperm ?_⟩
  exact List.pairwise_pair.2 hmeet

end EvlCheck
