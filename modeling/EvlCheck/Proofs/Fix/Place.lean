/-
The places of a text that edits can name. They are the places that a walk over the text passes, with
line and column as positions count them, and each has the bytes before it as its offset; to these
comes one more, the start of a line behind the last one, which stands for the end of the text.

The walk that looks for a place goes down from its line and column while positions count up, so
soundness follows the walk and completeness the part of the text before the place.
-/
import EvlCheck.Fix.Edit
import EvlCheck.Proofs.Lexing.Tiling
import Mathlib.Algebra.Group.Nat.Defs

namespace EvlCheck

/-! ## Lines and columns of positions -/

namespace Position

theorem line_advance (p : Position) (c : Char) :
    (p.advance c).line = if c = '\n' then p.line + 1 else p.line := by
  unfold advance
  split <;> rfl

theorem column_advance (p : Position) (c : Char) :
    (p.advance c).column = if c = '\n' then 1 else p.column + 1 := by
  unfold advance
  split <;> rfl

/-- Every line feed opens a line. -/
theorem line_advanceAll (p : Position) (cs : List Char) :
    (p.advanceAll cs).line = p.line + cs.count '\n' := by
  induction cs generalizing p with
  | nil => rfl
  | cons c cs ih =>
    rw [advanceAll_cons, ih, line_advance, List.count_cons]
    by_cases hc : c = '\n'
    · simp only [hc, if_true, beq_self_eq_true]; omega
    · simp only [hc, if_false, beq_iff_eq]; omega

theorem column_advanceAll_congr {p q : Position} (h : p.column = q.column) (cs : List Char) :
    (p.advanceAll cs).column = (q.advanceAll cs).column := by
  induction cs generalizing p q with
  | nil => exact h
  | cons c cs ih =>
    refine ih ?_
    rw [column_advance, column_advance, h]

/-- Within a line the column grows by one for every character. -/
theorem column_advanceAll_of_not_mem (p : Position) {cs : List Char} (h : '\n' ∉ cs) :
    (p.advanceAll cs).column = p.column + cs.length := by
  induction cs generalizing p with
  | nil => rfl
  | cons c cs ih =>
    rw [List.mem_cons, not_or] at h
    rw [advanceAll_cons, ih _ h.2, column_advance, if_neg (Ne.symm h.1), List.length_cons]
    omega

/-- Behind a line feed the column does not depend on where the text began. -/
theorem column_advanceAll_of_mem (p q : Position) {cs : List Char} (h : '\n' ∈ cs) :
    (p.advanceAll cs).column = (q.advanceAll cs).column := by
  induction cs generalizing p q with
  | nil => cases h
  | cons c cs ih =>
    by_cases hc : c = '\n'
    · refine column_advanceAll_congr ?_ cs
      rw [column_advance, column_advance, if_pos hc, if_pos hc]
    · exact ih _ _ ((List.mem_cons.1 h).resolve_left (Ne.symm hc))

theorem one_le_column_advanceAll (p : Position) (hp : 1 ≤ p.column) (cs : List Char) :
    1 ≤ (p.advanceAll cs).column := by
  induction cs generalizing p with
  | nil => exact hp
  | cons c cs ih =>
    refine ih _ ?_
    rw [column_advance]
    split <;> omega

/-- No column is further right than the text is long. -/
theorem column_advanceAll_le (p : Position) (hp : 1 ≤ p.column) (cs : List Char) :
    (p.advanceAll cs).column ≤ p.column + cs.length := by
  induction cs generalizing p with
  | nil => exact Nat.le_refl _
  | cons c cs ih =>
    have hadvance : 1 ≤ (p.advance c).column ∧ (p.advance c).column ≤ p.column + 1 := by
      rw [column_advance]
      split <;> omega
    have := ih _ hadvance.1
    rw [advanceAll_cons, List.length_cons]
    omega

end Position

/-! ## Where a text ends -/

namespace Text

/-- A text that begins at the first line and column ends at these. -/
structure EndsAt (cs : List Char) (line column : Nat) : Prop where
  line_eq : (Position.start.advanceAll cs).line = line
  column_eq : (Position.start.advanceAll cs).column = column

namespace EndsAt

variable {cs : List Char} {line column : Nat}

theorem line_eq_count (h : EndsAt cs line column) : line = cs.count '\n' + 1 := by
  rw [← h.line_eq, Position.line_advanceAll]
  exact Nat.add_comm _ _

theorem one_le_column (h : EndsAt cs line column) : 1 ≤ column :=
  h.column_eq ▸ Position.one_le_column_advanceAll _ (Nat.le_refl 1) cs

/-- A text without a line feed ends on the first line. -/
theorem of_not_mem (h : '\n' ∉ cs) : EndsAt cs 1 (cs.length + 1) where
  line_eq := by rw [Position.line_advanceAll, List.count_eq_zero.2 h]; rfl
  column_eq := by
    rw [Position.column_advanceAll_of_not_mem _ h]
    exact Nat.add_comm _ _

theorem nil : EndsAt [] 1 1 := ⟨rfl, rfl⟩

/-- A line feed in front shifts the end by a line. -/
theorem lineFeed (h : EndsAt cs line column) : EndsAt ('\n' :: cs) (line + 1) column where
  line_eq := by
    rw [← h.line_eq, Position.line_advanceAll, Position.line_advanceAll, List.count_cons_self]
    omega
  column_eq := by
    have hsame : (Position.start.advance '\n').column = Position.start.column := rfl
    rw [← h.column_eq]
    exact Position.column_advanceAll_congr hsame cs

/-- Another character in front shifts the end by a column on the first line. -/
theorem cons_first {c : Char} (hc : c ≠ '\n') (h : EndsAt cs 1 column) :
    EndsAt (c :: cs) 1 (column + 1) := by
  have hnone : '\n' ∉ cs := by
    rw [← List.count_eq_zero (a := '\n')]
    have := h.line_eq_count
    omega
  have hcolumn : column = cs.length + 1 := h.column_eq.symm.trans (of_not_mem hnone).column_eq
  have hall : '\n' ∉ c :: cs := by
    rw [List.mem_cons, not_or]
    exact ⟨Ne.symm hc, hnone⟩
  rw [hcolumn]
  exact of_not_mem hall

/-- It does not shift an end on a later line. -/
theorem cons_later {c : Char} (hc : c ≠ '\n') (h : EndsAt cs line column) (hline : 1 < line) :
    EndsAt (c :: cs) line column where
  line_eq := by
    rw [← h.line_eq, Position.line_advanceAll, Position.line_advanceAll, List.count_cons_of_ne hc]
  column_eq := by
    have hmem : '\n' ∈ cs := by
      rw [← List.count_pos_iff]
      have := h.line_eq_count
      omega
    rw [← h.column_eq]
    exact Position.column_advanceAll_of_mem _ _ hmem

/-- A text ends at its end. -/
theorem self (cs : List Char) :
    EndsAt cs (Position.start.advanceAll cs).line (Position.start.advanceAll cs).column :=
  ⟨rfl, rfl⟩

/-- The position behind a text, by its bytes, its line and its column. -/
theorem position (h : EndsAt cs line column) :
    Position.start.advanceAll cs = ⟨byteSize cs, line, column⟩ := by
  have hoffset : (Position.start.advanceAll cs).offset = byteSize cs := by
    rw [Position.offset_advanceAll]
    exact Nat.zero_add _
  cases hp : Position.start.advanceAll cs with
  | mk offset l c => rw [hp] at hoffset; rw [← hoffset, ← h.line_eq, ← h.column_eq, hp]

end EndsAt

end Text

open Text

/-! ## The walk to a place -/

/-- The walk finds every place that positions pass. -/
theorem charOffset?_go_of_endsAt {p : List Char} {line column : Nat} (h : EndsAt p line column)
    (q : List Char) (seen : Nat) :
    charOffset?.go (p ++ q) line column seen = some (seen + p.length) := by
  induction p generalizing line column seen with
  | nil =>
    rw [← h.line_eq, ← h.column_eq]
    cases q <;> rfl
  | cons c p ih =>
    have hnext := EndsAt.self p
    have hlength : seen + (c :: p).length = seen + 1 + p.length := by
      rw [List.length_cons]; omega
    rw [List.cons_append, charOffset?.go, hlength]
    by_cases hc : c = '\n'
    · subst hc
      obtain rfl : _ = line := hnext.lineFeed.line_eq.symm.trans h.line_eq
      obtain rfl : _ = column := hnext.lineFeed.column_eq.symm.trans h.column_eq
      have := hnext.line_eq_count
      rw [if_neg (by omega), if_pos rfl]
      exact ih hnext (seen + 1)
    · by_cases hline : (Position.start.advanceAll p).line = 1
      · rw [hline] at hnext
        have hfirst := hnext.cons_first hc
        obtain rfl : 1 = line := hfirst.line_eq.symm.trans h.line_eq
        obtain rfl : _ = column := hfirst.column_eq.symm.trans h.column_eq
        have := hnext.one_le_column
        rw [if_pos rfl, if_neg (by omega), if_neg hc]
        exact ih hnext (seen + 1)
      · have hcount := hnext.line_eq_count
        have hlater := hnext.cons_later hc (by omega)
        obtain rfl : _ = line := hlater.line_eq.symm.trans h.line_eq
        obtain rfl : _ = column := hlater.column_eq.symm.trans h.column_eq
        rw [if_neg hline, if_neg hc]
        exact ih hnext (seen + 1)

/-- It finds the start of the line behind the last one at the end of the text. -/
theorem charOffset?_go_behind (cs : List Char) (seen : Nat) :
    charOffset?.go cs (cs.count '\n' + 2) 1 seen = some (seen + cs.length) := by
  induction cs generalizing seen with
  | nil => rfl
  | cons c cs ih =>
    have hlength : seen + (c :: cs).length = seen + 1 + cs.length := by
      rw [List.length_cons]; omega
    rw [charOffset?.go, hlength, if_neg (by omega)]
    by_cases hc : c = '\n'
    · subst hc
      rw [if_pos rfl, List.count_cons_self]
      exact ih (seen + 1)
    · rw [if_neg hc, List.count_cons_of_ne hc]
      exact ih (seen + 1)

/-- The place behind the last line, or the end of a part of the text from its start on. -/
inductive Locates (cs : List Char) : Nat → Nat → Nat → Prop
  | inside {p : List Char} {line column : Nat} (front : p <+: cs) (ends : EndsAt p line column) :
      Locates cs line column p.length
  | behind : Locates cs (cs.count '\n' + 2) 1 cs.length

namespace Locates

variable {cs : List Char} {line column n : Nat}

theorem start (cs : List Char) : Locates cs 1 1 0 := inside List.nil_prefix .nil

theorem lineFeed (h : Locates cs line column n) :
    Locates ('\n' :: cs) (line + 1) column (n + 1) := by
  cases h with
  | inside front ends => exact inside (List.cons_prefix_cons.2 ⟨rfl, front⟩) ends.lineFeed
  | behind =>
    have hbehind : Locates ('\n' :: cs) (('\n' :: cs).count '\n' + 2) 1 (cs.length + 1) := behind
    rwa [List.count_cons_self] at hbehind

theorem cons_first {c : Char} (hc : c ≠ '\n') (h : Locates cs 1 column n) :
    Locates (c :: cs) 1 (column + 1) (n + 1) := by
  generalize hline : 1 = line at h
  cases h with
  | inside front ends =>
    subst hline
    exact inside (List.cons_prefix_cons.2 ⟨rfl, front⟩) (ends.cons_first hc)
  | behind => omega

theorem cons_later {c : Char} (hc : c ≠ '\n') (h : Locates cs line column n) (hline : 1 < line) :
    Locates (c :: cs) line column (n + 1) := by
  cases h with
  | inside front ends => exact inside (List.cons_prefix_cons.2 ⟨rfl, front⟩) (ends.cons_later hc hline)
  | behind =>
    have hbehind : Locates (c :: cs) ((c :: cs).count '\n' + 2) 1 (cs.length + 1) := behind
    rwa [List.count_cons_of_ne hc] at hbehind

theorem le_length (h : Locates cs line column n) : n ≤ cs.length := by
  cases h with
  | inside front _ => exact front.length_le
  | behind => exact Nat.le_refl _

end Locates

/-- What the walk finds is a place. -/
theorem locates_of_charOffset?_go {cs : List Char} {line column seen n : Nat} (hline : 1 ≤ line)
    (hcolumn : 1 ≤ column) (h : charOffset?.go cs line column seen = some n) :
    ∃ m, n = seen + m ∧ Locates cs line column m := by
  induction cs generalizing line column seen with
  | nil =>
    rw [charOffset?.go] at h
    split at h
    · next hend =>
      cases h
      refine ⟨0, rfl, ?_⟩
      obtain ⟨rfl, hle⟩ := hend
      obtain rfl | rfl : line = 1 ∨ line = 2 := by omega
      · exact .start []
      · exact .behind
    · cases h
  | cons c cs ih =>
    rw [charOffset?.go] at h
    by_cases hfirst : line = 1
    · subst hfirst
      rw [if_pos rfl] at h
      split at h
      · next hone =>
        subst hone
        cases h
        exact ⟨0, rfl, .start _⟩
      · next hne =>
        split at h
        · cases h
        · next hc =>
          obtain ⟨m, rfl, hm⟩ := ih (Nat.le_refl 1) (by omega) h
          refine ⟨m + 1, by omega, ?_⟩
          have := hm.cons_first hc
          rwa [Nat.sub_add_cancel hcolumn] at this
    · rw [if_neg hfirst] at h
      split at h
      · next hc =>
        subst hc
        obtain ⟨m, rfl, hm⟩ := ih (by omega) hcolumn h
        refine ⟨m + 1, by omega, ?_⟩
        have := hm.lineFeed
        rwa [Nat.sub_add_cancel hline] at this
      · next hc =>
        obtain ⟨m, rfl, hm⟩ := ih hline hcolumn h
        exact ⟨m + 1, by omega, hm.cons_later hc (by omega)⟩

/-- The offsets in characters are those of the places. -/
theorem charOffset?_eq_some_iff {cs : List Char} {line column n : Nat} :
    charOffset? cs line column = some n ↔ Locates cs line column n := by
  constructor
  · intro h
    rw [charOffset?] at h
    split at h
    · cases h
    · next hpos =>
      rw [not_or] at hpos
      obtain ⟨m, rfl, hm⟩ := locates_of_charOffset?_go (by omega) (by omega) h
      rwa [Nat.zero_add]
  · intro h
    rw [charOffset?]
    cases h with
    | @inside p line column front ends =>
      have hline := ends.line_eq_count
      have hcolumn := ends.one_le_column
      obtain ⟨q, rfl⟩ := front
      rw [if_neg (by omega), charOffset?_go_of_endsAt ends, Nat.zero_add]
    | behind => rw [if_neg (by omega), charOffset?_go_behind, Nat.zero_add]

/-! ## Offsets in bytes -/

theorem byteOffset_eq_ok_iff {cs : List Char} {line column o : Nat} :
    byteOffset cs line column = .ok o ↔
      ∃ n, Locates cs line column n ∧ o = byteSize (cs.take n) := by
  unfold byteOffset
  split
  · next hnone =>
    refine ⟨fun h => (by cases h), ?_⟩
    rintro ⟨n, hn, -⟩
    rw [charOffset?_eq_some_iff.2 hn] at hnone
    cases hnone
  · next n hsome =>
    have hn := charOffset?_eq_some_iff.1 hsome
    constructor
    · intro h
      cases h
      exact ⟨n, hn, rfl⟩
    · rintro ⟨m, hm, rfl⟩
      rw [charOffset?_eq_some_iff.2 hm] at hsome
      cases hsome
      rfl

/-- A place that has no offset is refused under its own line and column. -/
theorem byteOffset_eq_error {cs : List Char} {line column : Nat}
    (h : ∀ o, byteOffset cs line column ≠ .ok o) :
    byteOffset cs line column = .error (.outOfBounds line column) := by
  unfold byteOffset at h ⊢
  split
  · rfl
  · next n hsome => exact absurd (by rw [hsome]) (h (byteSize (cs.take n)))

/-- The places with an offset are those that positions pass, each with its bytes, and the start of
the line behind the last one; all others are refused. Lines and columns of a text that is not too
long fit into 32 bits. -/
theorem byteOffset_agrees (cs : List Char) :
    (∀ p, p <+: cs → byteOffset cs (Position.start.advanceAll p).line
      (Position.start.advanceAll p).column = .ok (byteSize p)) ∧
    (∀ line column o, byteOffset cs line column = .ok o ↔
      (∃ p, p <+: cs ∧ Position.start.advanceAll p = ⟨o, line, column⟩) ∨
        (line = cs.count '\n' + 2 ∧ column = 1 ∧ o = byteSize cs)) ∧
    (∀ line column, (∀ p, p <+: cs → Position.start.advanceAll p ≠ ⟨byteSize p, line, column⟩) →
      ¬ (line = cs.count '\n' + 2 ∧ column = 1) →
      byteOffset cs line column = .error (.outOfBounds line column)) ∧
    (cs.length < 2 ^ 32 - 1 → ∀ p, p <+: cs →
      (Position.start.advanceAll p).line < 2 ^ 32 ∧
        (Position.start.advanceAll p).column < 2 ^ 32) := by
  -- A place is found where a prefix ends, and at the start of the line behind the last one.
  have hiff : ∀ line column o, byteOffset cs line column = .ok o ↔
      (∃ p, p <+: cs ∧ Position.start.advanceAll p = ⟨o, line, column⟩) ∨
        (line = cs.count '\n' + 2 ∧ column = 1 ∧ o = byteSize cs) := by
    intro line column o
    rw [byteOffset_eq_ok_iff]
    constructor
    · rintro ⟨n, hn, rfl⟩
      cases hn with
      | @inside p line column front ends =>
        refine .inl ⟨p, front, ?_⟩
        rw [← List.prefix_iff_eq_take.1 front]
        exact ends.position
      | behind => exact .inr ⟨rfl, rfl, by rw [List.take_length]⟩
    · rintro (⟨p, front, hp⟩ | ⟨rfl, rfl, rfl⟩)
      · have ends : EndsAt p line column := ⟨by rw [hp], by rw [hp]⟩
        refine ⟨p.length, .inside front ends, ?_⟩
        have hoffset := congrArg Position.offset (ends.position.symm.trans hp)
        rw [← List.prefix_iff_eq_take.1 front]
        exact hoffset.symm
      · exact ⟨cs.length, .behind, by rw [List.take_length]⟩
  refine ⟨?_, hiff, ?_, ?_⟩
  · intro p front
    exact (hiff _ _ _).2 (.inl ⟨p, front, (EndsAt.self p).position⟩)
  · intro line column hpassed hbehind
    refine byteOffset_eq_error fun o ho => ?_
    rcases (hiff line column o).1 ho with ⟨p, front, hp⟩ | ⟨hline, hcolumn, -⟩
    · have ends : EndsAt p line column := ⟨by rw [hp], by rw [hp]⟩
      exact hpassed p front ends.position
    · exact hbehind ⟨hline, hcolumn⟩
  · intro hlength p front
    -- Neither number exceeds the characters by more than one.
    have hle := front.length_le
    have hline := (EndsAt.self p).line_eq_count
    have hcount : p.count '\n' ≤ p.length := List.count_le_length
    have hcolumn := Position.column_advanceAll_le Position.start (Nat.le_refl 1) p
    have hstart : Position.start.column = 1 := rfl
    omega

/-- In a text of three lines whose second ends in a character of two bytes: the place behind that
character, the start of the line behind the last, and a column that its line does not have. -/
theorem byteOffset_agrees_accent :
    ("ab\ncdé".toList <+: "ab\ncdé\nf".toList ∧
      byteOffset "ab\ncdé\nf".toList 2 4 = .ok 7) ∧
    byteOffset "ab\ncdé\nf".toList 4 1 = .ok 9 ∧
    byteOffset "ab\ncdé\nf".toList 2 5 = .error (.outOfBounds 2 5) ∧
    (Position.start.advanceAll "ab\ncdé".toList).column < 2 ^ 32 := by
  obtain ⟨hpassed, hiff, hrefused, hfits⟩ := byteOffset_agrees "ab\ncdé\nf".toList
  have hfront : "ab\ncdé".toList <+: "ab\ncdé\nf".toList := by decide
  have hnone : ∀ p ∈ "ab\ncdé\nf".toList.inits,
      Position.start.advanceAll p ≠ ⟨byteSize p, 2, 5⟩ := by decide
  refine ⟨⟨hfront, hpassed _ hfront⟩, (hiff 4 1 9).2 (.inr (by decide)), ?_, ?_⟩
  · exact hrefused 2 5 (fun p hp => hnone p ((List.mem_inits _ _).2 hp)) (by decide)
  · exact (hfits (by decide) _ hfront).2

end EvlCheck
