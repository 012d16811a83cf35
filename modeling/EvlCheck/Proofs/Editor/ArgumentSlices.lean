/-
The two ways in which a text is split into arguments. One collects the characters of a piece and trims
it, the other cuts slices out of the text at its places; they agree up to blanks and a blank piece at the
end. Both cut at the commas of depth 0, where the depth is how many more brackets the text opens than it
closes before the place, from its start on. It may be negative, and then no comma cuts until it is 0 again.

`Cuts` says what the pieces are without a loop, by the characters in front of each.
-/
import EvlCheck.Editor.Parameters
import Mathlib.Data.List.Basic

namespace EvlCheck

open Text

namespace Check

/-! ## Depth -/

/-- How many more brackets some characters open than they close. -/
def bracketBalance (cs : List Char) : Int :=
  (cs.count '(' + cs.count '[' : Nat) - (cs.count ')' + cs.count ']' : Nat)

theorem bracketBalance_concat (cs : List Char) (c : Char) :
    bracketBalance (cs ++ [c]) = bracketDepth (bracketBalance cs) c := by
  have hcount : ∀ d : Char, (cs ++ [c]).count d = cs.count d + if c = d then 1 else 0 := by
    intro d
    rw [List.count_append, List.count_singleton]
    simp
  unfold bracketBalance bracketDepth
  simp only [hcount]
  by_cases hopen : c = '(' ∨ c = '['
  · rcases hopen with rfl | rfl <;> simp <;> omega
  · rw [not_or] at hopen
    by_cases hclose : c = ')' ∨ c = ']'
    · rcases hclose with rfl | rfl <;> simp <;> omega
    · rw [not_or] at hclose
      simp [hopen, hclose]

/-! ## Cuts -/

/-- The piece has no comma of depth 0, if these characters stand in front of it. -/
def Uncut (front piece : List Char) : Prop :=
  ∀ x y, piece = x ++ ',' :: y → bracketBalance (front ++ x) ≠ 0

/-- A text is cut into these pieces, if the given characters stand in front of it. -/
inductive Cuts : List Char → List (List Char) → List Char → Prop
  | last {front piece : List Char} (uncut : Uncut front piece) : Cuts front [piece] piece
  | more {front piece rest : List Char} {pieces : List (List Char)} (uncut : Uncut front piece)
      (comma : bracketBalance (front ++ piece) = 0) (behind : Cuts (front ++ piece ++ [',']) pieces rest) :
      Cuts front (piece :: pieces) (piece ++ ',' :: rest)

namespace Cuts

variable {front cs : List Char} {pieces : List (List Char)}

theorem ne_nil (h : Cuts front pieces cs) : pieces ≠ [] := by
  cases h <;> exact List.cons_ne_nil _ _

theorem intercalate_eq (h : Cuts front pieces cs) : [','].intercalate pieces = cs := by
  induction h with
  | last uncut => exact List.intercalate_singleton
  | @more front piece rest pieces uncut comma behind ih =>
    obtain ⟨next, others, rfl⟩ := List.exists_cons_of_ne_nil behind.ne_nil
    rw [List.intercalate_cons_cons, ih, List.append_assoc, List.singleton_append]

/-- What stands in front of a place of a piece are the pieces before it, each with its comma, and the
piece up to the place. -/
theorem at_piece (h : Cuts front pieces cs) {before behind : List (List Char)} {piece : List Char}
    (hpieces : pieces = before ++ piece :: behind) :
    (∀ x y, piece = x ++ ',' :: y → bracketBalance (front ++ [','].intercalate (before ++ [x])) ≠ 0) ∧
      (behind ≠ [] → bracketBalance (front ++ [','].intercalate (before ++ [piece])) = 0) := by
  induction h generalizing before with
  | last uncut =>
    obtain ⟨rfl, hlast⟩ : before = [] ∧ _ = piece :: behind := by
      cases before with
      | nil => exact ⟨rfl, hpieces⟩
      | cons first before => simp at hpieces
    cases hlast
    simp only [List.nil_append, List.intercalate_singleton]
    exact ⟨uncut, fun hne => absurd rfl hne⟩
  | @more front first rest pieces uncut comma more ih =>
    cases before with
    | nil =>
      cases hpieces
      simp only [List.nil_append, List.intercalate_singleton]
      exact ⟨uncut, fun _ => comma⟩
    | cons first' before =>
      cases hpieces
      have hjoin : ∀ x, front ++ [','].intercalate (first :: before ++ [x]) =
          front ++ first ++ [','] ++ [','].intercalate (before ++ [x]) := by
        intro x
        rw [List.cons_append, List.intercalate_cons_of_ne_nil (by simp)]
        simp only [List.append_assoc]
      simp only [hjoin]
      exact ih rfl

end Cuts

/-- The loop that collects characters cuts the text, given what it has passed over. -/
theorem cuts_argPieces_go (cs front piece : List Char) (done : List (List Char))
    (huncut : Uncut front piece.reverse) :
    ∃ pieces, argPieces.go cs (bracketBalance (front ++ piece.reverse)) piece done =
        done.reverse ++ pieces ∧ Cuts front pieces (piece.reverse ++ cs) := by
  induction cs generalizing front piece done with
  | nil =>
    refine ⟨[piece.reverse], ?_, ?_⟩
    · rw [argPieces.go, List.reverse_cons]
    · rw [List.append_nil]
      exact .last huncut
  | cons c rest ih =>
    rw [argPieces.go]
    by_cases hcomma : c = ',' ∧ bracketBalance (front ++ piece.reverse) = 0
    · obtain ⟨rfl, hzero⟩ := hcomma
      -- A new piece begins, and the depth is still 0 behind the comma.
      have hdepth : bracketBalance (front ++ piece.reverse ++ [',']) = 0 := by
        rw [bracketBalance_concat, hzero]
        rfl
      obtain ⟨pieces, hgo, hcuts⟩ := ih (front ++ piece.reverse ++ [',']) [] (piece.reverse :: done)
        fun x y hxy => absurd hxy (by simp)
      rw [List.reverse_nil, List.append_nil, hdepth] at hgo
      refine ⟨piece.reverse :: pieces, ?_, .more huncut hzero hcuts⟩
      rw [if_pos ⟨rfl, hzero⟩, hzero, hgo, List.reverse_cons, List.append_assoc, List.singleton_append]
    · have hdepth : bracketDepth (bracketBalance (front ++ piece.reverse)) c =
          bracketBalance (front ++ (c :: piece).reverse) := by
        rw [List.reverse_cons, ← List.append_assoc, bracketBalance_concat]
      -- The character that is added is no comma that cuts.
      have hlonger : Uncut front (c :: piece).reverse := by
        intro x y hxy
        rw [List.reverse_cons] at hxy
        rcases List.eq_nil_or_concat y with rfl | ⟨y, last, rfl⟩
        · obtain ⟨rfl, hc⟩ := List.append_inj' hxy rfl
          cases hc
          exact fun hzero => hcomma ⟨rfl, hzero⟩
        · rw [List.concat_eq_append, ← List.cons_append, ← List.append_assoc] at hxy
          exact huncut x y (List.append_inj' hxy rfl).1
      obtain ⟨pieces, hgo, hcuts⟩ := ih front (c :: piece) done hlonger
      refine ⟨pieces, ?_, ?_⟩
      · rw [if_neg hcomma, hdepth, hgo]
      · rwa [List.reverse_cons, List.append_assoc] at hcuts

theorem cuts_argPieces (cs : List Char) : Cuts [] (argPieces cs) cs := by
  obtain ⟨pieces, hgo, hcuts⟩ := cuts_argPieces_go cs [] [] [] fun x y hxy => absurd hxy (by simp)
  rw [argPieces, show argPieces.go cs 0 [] [] = pieces from hgo]
  exact hcuts

end Check

/-! ## Slices -/

namespace InlayHint

open Check

/-- The pieces of a text, if it is more than blanks. -/
def unlessBlank : List (List Char) → List (List Char)
  | [piece] => if piece.all isBlank then [] else [piece]
  | pieces => pieces

/-- The loop that cuts slices holds the same piece and depth as the one that collects characters. -/
theorem rawArgs_go_eq (cs front rest : List Char) (depth : Int) (start : Nat) (done : List (List Char))
    (hcs : cs = front ++ rest) (hstart : start ≤ front.length) :
    rawArgs.go cs rest front.length depth start done =
      unlessBlank (argPieces.go rest depth (front.drop start).reverse done) := by
  induction rest generalizing front depth start done with
  | nil =>
    rw [List.append_nil] at hcs
    subst hcs
    rw [rawArgs.go, argPieces.go, List.reverse_reverse]
    cases done with
    | nil => simp [unlessBlank]
    | cons last done =>
      -- With two pieces or more nothing depends on blanks.
      obtain ⟨p, q, ps, hpieces⟩ : ∃ p q ps, (cs.drop start :: last :: done).reverse = p :: q :: ps := by
        rw [List.reverse_cons, List.reverse_cons]
        rcases done.reverse with _ | ⟨p, _ | ⟨q, ps⟩⟩
        · exact ⟨_, _, _, rfl⟩
        · exact ⟨_, _, _, rfl⟩
        · exact ⟨_, _, _, rfl⟩
      rw [hpieces]
      rfl
  | cons c rest ih =>
    have hlonger : cs = front ++ [c] ++ rest := by rw [hcs, List.append_assoc, List.singleton_append]
    have hlength : (front ++ [c]).length = front.length + 1 := by rw [List.length_append, List.length_singleton]
    rw [rawArgs.go, argPieces.go]
    by_cases hcomma : c = ',' ∧ depth = 0
    · rw [if_pos hcomma, if_pos hcomma, List.reverse_reverse]
      -- The slice up to the comma is the piece that was collected.
      have hslice : (cs.take front.length).drop start = front.drop start := by
        rw [hcs, List.take_left]
      have hnext := ih (front ++ [c]) depth (front.length + 1) (front.drop start :: done) hlonger
        (Nat.le_of_eq hlength.symm)
      rw [hlength] at hnext
      rw [hslice, hnext, List.drop_of_length_le (Nat.le_of_eq hlength), List.reverse_nil]
    · rw [if_neg hcomma, if_neg hcomma]
      have hnext := ih (front ++ [c]) (bracketDepth depth c) start done hlonger
        (by rw [hlength]; exact Nat.le_succ_of_le hstart)
      rw [hlength] at hnext
      rw [hnext, List.drop_append_of_le_length hstart, List.reverse_append, List.reverse_singleton,
        List.singleton_append]

/-- The slices are the collected pieces. -/
theorem rawArgs_eq (cs : List Char) : rawArgs cs = unlessBlank (argPieces cs) :=
  rawArgs_go_eq cs [] cs 0 0 [] rfl (Nat.le_refl 0)

/-- There are slices and they are all pieces, or the text is one blank piece. -/
theorem rawArgs_cases (cs : List Char) :
    (rawArgs cs = argPieces cs ∧ ∃ c ∈ cs, isBlank c = false) ∨
      (rawArgs cs = [] ∧ argPieces cs = [cs] ∧ ∀ c ∈ cs, isBlank c = true) := by
  have hcuts := cuts_argPieces cs
  rw [rawArgs_eq]
  generalize argPieces cs = pieces at hcuts
  cases hcuts with
  | last uncut =>
    by_cases hblank : cs.all isBlank = true
    · exact .inr ⟨if_pos hblank, rfl, List.all_eq_true.1 hblank⟩
    · refine .inl ⟨if_neg hblank, ?_⟩
      simpa using hblank
  | @more _ piece rest pieces uncut comma behind =>
    obtain ⟨next, others, rfl⟩ := List.exists_cons_of_ne_nil behind.ne_nil
    exact .inl ⟨rfl, ',', by simp, by decide⟩

/-- Both splits agree. The slices are none for a text of blanks, and joined with commas they give every
other text back. The commas within a slice are of a depth other than 0, those between slices of depth 0,
counted from the start of the text. The trimmed pieces are the slices, trimmed, without the last if it is
blank. -/
theorem rawArgs_splitArgs (cs : List Char) :
    (rawArgs cs = [] ↔ ∀ c ∈ cs, isBlank c = true) ∧
    (rawArgs cs ≠ [] → [','].intercalate (rawArgs cs) = cs) ∧
    (∀ before piece behind, rawArgs cs = before ++ piece :: behind →
      (∀ x y, piece = x ++ ',' :: y → bracketBalance ([','].intercalate (before ++ [x])) ≠ 0) ∧
      (behind ≠ [] → bracketBalance ([','].intercalate (before ++ [piece])) = 0)) ∧
    splitArgs cs =
      (if (rawArgs cs).getLast?.any (·.all isBlank) then (rawArgs cs).dropLast else rawArgs cs).map trim := by
  have hcuts := cuts_argPieces cs
  -- The raw split is the list of pieces, except for a blank text, which has none.
  rcases rawArgs_cases cs with ⟨hraw, c, hc, hblank⟩ | ⟨hraw, hpieces, hblank⟩
  · rw [hraw]
    refine ⟨iff_of_false hcuts.ne_nil fun h => ?_, fun _ => hcuts.intercalate_eq,
      fun before piece behind hpieces => hcuts.at_piece hpieces, ?_⟩
    · rw [h c hc] at hblank
      cases hblank
    · obtain ⟨init, last, hlast⟩ : ∃ init last, argPieces cs = init ++ [last] := by
        rcases List.eq_nil_or_concat (argPieces cs) with hnil | ⟨init, last, hlast⟩
        · exact absurd hnil hcuts.ne_nil
        · exact ⟨init, last, hlast.trans (List.concat_eq_append ..)⟩
      -- The other split trims first and leaves out the last piece if nothing of it is left.
      have htrim : trim last = [] ↔ last.all isBlank = true := trim_eq_nil_iff.trans List.all_eq_true.symm
      unfold splitArgs
      rw [hlast]
      simp only [List.map_append, List.map_singleton, List.getLast?_concat, List.dropLast_concat,
        Option.some.injEq, Option.any_some, htrim]
      split
      · rfl
      · rw [List.map_append, List.map_singleton]
  · have htrim : trim cs = [] := trim_eq_nil_iff.2 hblank
    rw [hraw]
    refine ⟨iff_of_true rfl hblank, fun hne => absurd rfl hne, fun before piece behind h => ?_, ?_⟩
    · exact absurd h.symm (by simp)
    · unfold splitArgs
      rw [hpieces, List.map_singleton, htrim]
      rfl

end InlayHint

end EvlCheck
