/-
Where the arguments of a call begin, and at which columns their hints stand. The offset of an argument is
the number of characters in front of it, which are the arguments before it, each with its comma. Only an
argument without characters at the end of the text, behind a comma of depth 0, has the offset of the first.

The calls that are seen in a line stand behind one another. So its hints stand at increasing columns, and
two of them share a column only where a call ends with such a comma.
-/
import EvlCheck.Proofs.Editor.ArgumentSlices
import Mathlib.Data.List.Nodup

namespace EvlCheck

open Text

/-- A list around one of its places. -/
theorem exists_around {α : Type} {l : List α} {i : Nat} (h : i < l.length) :
    ∃ front a back, l = front ++ a :: back ∧ front.length = i := by
  refine ⟨l.take i, l[i], l.drop (i + 1), ?_, List.length_take_of_le (Nat.le_of_lt h)⟩
  rw [← List.drop_eq_getElem_cons h, List.take_append_drop]

namespace Check

variable {cs piece : List Char} {before : List (List Char)}

/-! ## In front of a piece -/

/-- What stands in front of a piece: the pieces before it, each with its comma. -/
def inFront (before : List (List Char)) : List Char := before.flatMap (· ++ [','])

@[simp] theorem inFront_nil : inFront [] = [] := rfl

@[simp] theorem inFront_cons (first : List Char) (before : List (List Char)) :
    inFront (first :: before) = first ++ ',' :: inFront before := by
  rw [inFront, List.flatMap_cons, List.append_assoc, List.singleton_append, inFront]

@[simp] theorem inFront_append (before between : List (List Char)) :
    inFront (before ++ between) = inFront before ++ inFront between := List.flatMap_append

theorem intercalate_eq_inFront (before : List (List Char)) (piece : List Char) (behind : List (List Char)) :
    [','].intercalate (before ++ piece :: behind) = inFront before ++ [','].intercalate (piece :: behind) := by
  induction before with
  | nil => rfl
  | cons first before ih =>
    rw [List.cons_append, List.intercalate_cons_of_ne_nil (by simp), ih, inFront_cons]
    simp only [List.append_assoc, List.cons_append, List.nil_append]

theorem intercalate_concat (before : List (List Char)) (piece : List Char) :
    [','].intercalate (before ++ [piece]) = inFront before ++ piece := by
  rw [intercalate_eq_inFront, List.intercalate_singleton]

/-! ## Texts that end with a comma -/

/-- The text ends with a comma of depth 0. -/
def EndsAtComma (cs : List Char) : Prop := ∃ front, cs = front ++ [','] ∧ bracketBalance front = 0

/-- Behind a comma at the end there is one more piece, without characters. -/
theorem Cuts.endsAtComma_iff (h : Cuts [] (before ++ [piece]) cs) :
    EndsAtComma cs ↔ before ≠ [] ∧ piece = [] := by
  have hcs : inFront before ++ piece = cs := by rw [← intercalate_concat, h.intercalate_eq]
  constructor
  · rintro ⟨front, rfl, hzero⟩
    have hpiece : piece = [] := by
      rcases List.eq_nil_or_concat piece with hnil | ⟨x, last, rfl⟩
      · exact hnil
      · -- Otherwise the comma would be one of the piece's, and cut it.
        rw [List.concat_eq_append, ← List.append_assoc] at hcs
        obtain ⟨rfl, hlast⟩ := List.append_inj' hcs rfl
        cases hlast
        have hne := (h.at_piece rfl).1 x [] List.concat_eq_append
        rw [List.nil_append, intercalate_concat] at hne
        exact absurd hzero hne
    refine ⟨?_, hpiece⟩
    rintro rfl
    rw [hpiece] at hcs
    simp at hcs
  · rintro ⟨hbefore, rfl⟩
    rcases List.eq_nil_or_concat before with rfl | ⟨before, last, rfl⟩
    · exact absurd rfl hbefore
    · rw [List.concat_eq_append] at h hcs
      have hsplit : before ++ [last] ++ [[]] = before ++ last :: [[]] := List.append_cons .. |>.symm
      have hzero := (h.at_piece hsplit).2 (List.cons_ne_nil _ _)
      rw [List.nil_append, intercalate_concat] at hzero
      exact ⟨inFront before ++ last, by simp [← hcs], hzero⟩

end Check

namespace InlayHint

open Check

variable {cs front piece rest : List Char} {before behind pieces : List (List Char)} {i j : Nat}

/-! ## Offsets -/

theorem argOffset_go_zero (cs : List Char) (depth : Int) (place : Nat) :
    argOffset.go cs 0 depth place = if cs = [] then 0 else place := by
  cases cs <;> rfl

/-- Within a piece no comma counts. -/
theorem argOffset_go_piece (h : Uncut front piece) (rest : List Char) (commas place : Nat) :
    argOffset.go (piece ++ rest) (commas + 1) (bracketBalance front) place =
      argOffset.go rest (commas + 1) (bracketBalance (front ++ piece)) (place + piece.length) := by
  induction piece generalizing front place with
  | nil => simp
  | cons c piece ih =>
    have hcomma : ¬(c = ',' ∧ bracketBalance front = 0) := by
      rintro ⟨rfl, hzero⟩
      refine h [] piece rfl ?_
      rwa [List.append_nil]
    have hbehind : Uncut (front ++ [c]) piece := by
      rintro x y rfl
      rw [List.append_assoc, List.singleton_append]
      exact h (c :: x) y rfl
    rw [List.cons_append, argOffset.go, if_neg hcomma, ← bracketBalance_concat, ih hbehind, List.append_assoc,
      List.singleton_append, List.length_cons, Nat.add_right_comm, Nat.add_assoc]

theorem argOffset_go_comma (h : bracketBalance front = 0) (rest : List Char) (commas place : Nat) :
    argOffset.go (',' :: rest) (commas + 1) (bracketBalance front) place =
      argOffset.go rest commas (bracketBalance (front ++ [','])) (place + 1) := by
  rw [argOffset.go, if_pos ⟨rfl, h⟩, bracketBalance_concat]
  rfl

/-- The search for a piece passes over those in front of it, and yields its place if a character stands
there. -/
theorem argOffset_go_of_cuts (h : Cuts front pieces cs) (hpieces : pieces = before ++ piece :: behind)
    (place : Nat) :
    argOffset.go cs before.length (bracketBalance front) place =
      if piece = [] ∧ behind = [] then 0 else place + (inFront before).length := by
  induction h generalizing before place with
  | last uncut =>
    obtain ⟨rfl, hlast⟩ : before = [] ∧ _ = piece :: behind := by
      cases before with
      | nil => exact ⟨rfl, hpieces⟩
      | cons first before => simp at hpieces
    cases hlast
    rw [List.length_nil, argOffset_go_zero]
    simp
  | @more front first rest pieces uncut comma more ih =>
    cases before with
    | nil =>
      cases hpieces
      -- Even if the first piece has no characters, its comma stands at its place.
      rw [List.length_nil, argOffset_go_zero, if_neg (by simp), if_neg fun h => more.ne_nil h.2]
      rfl
    | cons first' before =>
      cases hpieces
      rw [List.length_cons, argOffset_go_piece uncut, argOffset_go_comma comma, ih rfl, inFront_cons]
      split
      · rfl
      · rw [List.length_append, List.length_cons]
        omega

theorem cuts_rawArgs (h : rawArgs cs = before ++ piece :: behind) : Cuts [] (before ++ piece :: behind) cs := by
  rcases rawArgs_cases cs with ⟨hraw, -⟩ | ⟨hraw, -⟩
  · rw [← h, hraw]
    exact cuts_argPieces cs
  · rw [hraw] at h
    simp at h

theorem argOffset_eq (h : rawArgs cs = before ++ piece :: behind) :
    argOffset cs before.length = if piece = [] ∧ behind = [] then 0 else (inFront before).length := by
  have hgo := argOffset_go_of_cuts (cuts_rawArgs h) rfl 0
  rwa [Nat.zero_add] at hgo

/-- An argument at the end has no characters exactly if the text ends with a comma of depth 0. Then it is
not the only one. -/
theorem rawArgs_last (h : rawArgs cs = before ++ [piece]) :
    (EndsAtComma cs ↔ piece = []) ∧ (piece = [] → before ≠ []) := by
  have hcuts := cuts_rawArgs h
  have hbefore : piece = [] → before ≠ [] := by
    rintro rfl rfl
    -- A text without characters has no arguments.
    have hcs : cs = [] := hcuts.intercalate_eq.symm
    rw [hcs, rawArgs_nil] at h
    cases h
  rw [hcuts.endsAtComma_iff]
  exact ⟨and_iff_right_of_imp hbefore, hbefore⟩

theorem argOffset_eq_iff (h : rawArgs cs = before ++ piece :: behind) :
    argOffset cs before.length = (inFront before).length ↔ ¬(behind = [] ∧ EndsAtComma cs) := by
  rw [argOffset_eq h]
  by_cases hlast : behind = []
  · subst hlast
    obtain ⟨hcomma, hbefore⟩ := rawArgs_last h
    simp only [hcomma, and_true, true_and]
    by_cases hpiece : piece = []
    · obtain ⟨first, others, rfl⟩ := List.exists_cons_of_ne_nil (hbefore hpiece)
      rw [if_pos hpiece, inFront_cons, List.length_append, List.length_cons]
      exact iff_of_false (by omega) fun hne => hne hpiece
    · rw [if_neg hpiece]
      exact iff_of_true rfl hpiece
  · rw [if_neg fun hempty => hlast hempty.2]
    exact iff_of_true rfl fun hend => hlast hend.1

/-- Of two arguments the later one has the greater offset. -/
theorem argOffset_lt (hcomma : ¬EndsAtComma cs) (hij : i < j) (hj : j < (rawArgs cs).length) :
    argOffset cs i < argOffset cs j := by
  obtain ⟨before, later, behind, hlater, rfl⟩ := exists_around hj
  obtain ⟨front, earlier, between, rfl, rfl⟩ := exists_around hij
  have hearlier : rawArgs cs = front ++ earlier :: (between ++ later :: behind) := by
    rw [hlater, List.append_assoc, List.cons_append]
  rw [(argOffset_eq_iff hearlier).2 fun h => hcomma h.2, (argOffset_eq_iff hlater).2 fun h => hcomma h.2,
    inFront_append, inFront_cons, List.length_append, List.length_append, List.length_cons]
  omega

/-- Behind a comma at the end there is one more argument, and its offset is that of the first. -/
theorem exists_argOffset_zero (hcomma : EndsAtComma cs) :
    ∃ i, 0 < i ∧ i < (rawArgs cs).length ∧ argOffset cs i = 0 := by
  rcases List.eq_nil_or_concat (rawArgs cs) with hnil | ⟨before, last, hlast⟩
  · -- A text of blanks has no comma.
    obtain ⟨front, rfl, -⟩ := hcomma
    rcases rawArgs_cases (front ++ [',']) with ⟨hraw, -⟩ | ⟨-, -, hblank⟩
    · exact absurd (hraw.symm.trans hnil) (cuts_argPieces _).ne_nil
    · exact absurd (hblank ',' (by simp)) (by decide)
  · rw [List.concat_eq_append] at hlast
    obtain ⟨hend, hbefore⟩ := rawArgs_last hlast
    obtain rfl := hend.1 hcomma
    refine ⟨before.length, List.length_pos_of_ne_nil (hbefore rfl), ?_, ?_⟩
    · rw [hlast, List.length_append, List.length_singleton]
      exact Nat.lt_succ_self _
    · rw [argOffset_eq hlast, if_pos ⟨rfl, rfl⟩]

theorem argOffset_go_le (cs : List Char) (commas : Nat) (depth : Int) (place : Nat) :
    argOffset.go cs commas depth place ≤ place + cs.length := by
  induction cs generalizing commas depth place with
  | nil => exact Nat.zero_le _
  | cons c rest ih =>
    rw [List.length_cons]
    cases commas with
    | zero =>
      rw [argOffset_go_zero, if_neg (List.cons_ne_nil c rest)]
      omega
    | succ commas =>
      rw [argOffset.go]
      split
      · have := ih commas depth (place + 1)
        omega
      · have := ih (commas + 1) (bracketDepth depth c) (place + 1)
        omega

/-- An offset does not reach beyond the text. -/
theorem argOffset_le (cs : List Char) (i : Nat) : argOffset cs i ≤ cs.length := by
  have hle := argOffset_go_le cs i 0 0
  rwa [Nat.zero_add] at hle

/-! ## Columns of a call -/

namespace SeenCall

/-- The call has hints, and its arguments end with a comma of depth 0. -/
def Dangling (call : SeenCall) : Prop :=
  (Parameter.of? (String.ofList call.name)).isSome ∧ EndsAtComma call.inside

/-- The arguments of the first call end before those of the second begin. -/
def Before (first second : SeenCall) : Prop :=
  second.behind.length + first.inside.length < first.behind.length

end SeenCall

variable {number size column : Nat} {call : SeenCall}

theorem parameters_ne_nil {function : String} {params : List Parameter}
    (h : Parameter.of? function = some params) : params ≠ [] := by
  obtain ⟨before, behind, htable, -⟩ := List.lookup_eq_some_iff.1 h
  have hall : ∀ entry ∈ Parameter.table, entry.2 ≠ [] := by decide
  exact hall (function, params) (htable ▸ List.mem_append_right _ (.head _))

/-- A call has a hint for each argument, or none. -/
theorem columns_ofCall (number size : Nat) (call : SeenCall) :
    (ofCall number size call).map (·.column) =
      if (Parameter.of? (String.ofList call.name)).isSome then
        (List.range (rawArgs call.inside).length).map fun i =>
          size - call.behind.length + argOffset call.inside i + 2
      else [] := by
  rw [ofCall]
  cases h : Parameter.of? (String.ofList call.name) with
  | none => rfl
  | some params =>
    have hpos := List.length_pos_of_ne_nil (parameters_ne_nil h)
    rw [Option.isSome_some, if_pos rfl, List.map_filterMap, ← List.filterMap_eq_map]
    refine List.filterMap_congr fun i _ => ?_
    have hparam : min i (params.length - 1) < params.length := by omega
    rw [List.getElem?_eq_getElem hparam]
    rfl

theorem mem_columns_ofCall (h : column ∈ (ofCall number size call).map (·.column)) :
    size - call.behind.length + 2 ≤ column ∧ column ≤ size - call.behind.length + call.inside.length + 2 := by
  rw [columns_ofCall] at h
  split at h
  · obtain ⟨i, -, rfl⟩ := List.mem_map.1 h
    have hle := argOffset_le call.inside i
    omega
  · cases h

theorem columns_ofCall_increasing (number size : Nat) (h : ¬call.Dangling) :
    ((ofCall number size call).map (·.column)).Pairwise (· < ·) := by
  rw [columns_ofCall]
  split
  · rename_i hknown
    rw [List.pairwise_map]
    refine List.pairwise_lt_range.imp_of_mem fun {i j} _ hj hij => ?_
    have hlt := argOffset_lt (fun hcomma => h ⟨hknown, hcomma⟩) hij (List.mem_range.1 hj)
    omega
  · exact .nil

theorem not_nodup_columns_ofCall (number size : Nat) (h : call.Dangling) :
    ¬((ofCall number size call).map (·.column)).Nodup := by
  intro hnodup
  obtain ⟨i, hpos, hi, hzero⟩ := exists_argOffset_zero h.2
  rw [columns_ofCall, if_pos h.1] at hnodup
  have heq := List.inj_on_of_nodup_map hnodup (List.mem_range.2 (Nat.lt_trans hpos hi)) (List.mem_range.2 hi)
    (by rw [hzero, argOffset_zero])
  omega

/-! ## Columns of a line -/

theorem length_callAtWord? {word after : List Char} (h : callAtWord? word rest = some (call, after)) :
    call.behind.length < rest.length ∧ call.behind.length = call.inside.length + (after.length + 1) := by
  unfold callAtWord? at h
  obtain ⟨behind, hbehind, h⟩ := Option.bind_eq_some_iff.1 h
  dsimp only at h
  split at h
  · cases h
  · rename_i hdrop
    cases h
    refine ⟨length_afterBlanks? hbehind, ?_⟩
    have hlength := congrArg List.length hdrop
    rw [List.length_drop, List.length_cons] at hlength
    dsimp only
    omega

/-- The search goes on behind each call that it finds. -/
theorem seenCalls_go (cs : List Char) (found : List SeenCall) :
    ∃ calls, seenCalls.go cs found = found.reverse ++ calls ∧ calls.Pairwise SeenCall.Before ∧
      ∀ call ∈ calls, call.behind.length < cs.length := by
  induction cs, found using seenCalls.go.induct with
  | case1 found =>
    refine ⟨[], ?_, .nil, by simp⟩
    rw [seenCalls.go, List.append_nil]
  | case2 found c rest hc hnone ih =>
    obtain ⟨calls, hgo, hbefore, hwithin⟩ := ih
    refine ⟨calls, ?_, hbefore, fun call hcall => ?_⟩
    · rw [seenCalls.go, if_pos hc]
      split
      · exact hgo
      · rename_i hsome
        rw [hnone] at hsome
        cases hsome
    · have hword := (List.dropWhile_sublist isWord (l := rest)).length_le
      have hcall := hwithin call hcall
      rw [List.length_cons]
      omega
  | case3 found c rest hc call after hsome ih =>
    obtain ⟨calls, hgo, hbefore, hwithin⟩ := ih
    obtain ⟨hbehind, hinside⟩ := length_callAtWord? hsome
    -- The other calls are found in the text behind this one.
    refine ⟨call :: calls, ?_, .cons (fun next hnext => ?_) hbefore, ?_⟩
    · rw [seenCalls.go, if_pos hc]
      split
      · rename_i hnone
        rw [hsome] at hnone
        cases hnone
      · rename_i hsome'
        rw [hsome] at hsome'
        cases hsome'
        rw [hgo, List.reverse_cons, List.append_assoc, List.singleton_append]
    · have hnext := hwithin next hnext
      unfold SeenCall.Before
      omega
    · have hword := (List.dropWhile_sublist isWord (l := rest)).length_le
      rw [List.length_cons]
      rintro other (_ | ⟨_, hother⟩)
      · omega
      · have hother := hwithin other hother
        omega
  | case4 found c rest hc ih =>
    obtain ⟨calls, hgo, hbefore, hwithin⟩ := ih
    refine ⟨calls, ?_, hbefore, fun call hcall => Nat.lt_succ_of_lt (hwithin call hcall)⟩
    rw [seenCalls.go, if_neg hc, hgo]

/-- The calls of a line stand behind one another. -/
theorem seenCalls_inOrder (cs : List Char) :
    (seenCalls cs).Pairwise SeenCall.Before ∧ ∀ call ∈ seenCalls cs, call.behind.length < cs.length := by
  obtain ⟨calls, hgo, hcalls⟩ := seenCalls_go cs []
  rw [seenCalls, hgo, List.reverse_nil, List.nil_append]
  exact hcalls

theorem columns_ofLine (number : Nat) (line : List Char) :
    (ofLine number line).map (·.column) = (seenCalls (beforeComment line)).flatMap fun call =>
      (ofCall number (beforeComment line).length call).map (·.column) :=
  List.map_flatMap

theorem columns_ofLine_increasing (number : Nat) (line : List Char)
    (h : ∀ call ∈ seenCalls (beforeComment line), ¬call.Dangling) :
    ((ofLine number line).map (·.column)).Pairwise (· < ·) := by
  obtain ⟨hbefore, hwithin⟩ := seenCalls_inOrder (beforeComment line)
  rw [columns_ofLine, List.pairwise_flatMap]
  refine ⟨fun call hcall => columns_ofCall_increasing _ _ (h call hcall), ?_⟩
  -- The columns of a call stand between its parentheses, which lie apart for different calls.
  refine hbefore.imp_of_mem fun {first second} hfirst _ hbefore column hcolumn column' hcolumn' => ?_
  have hsize := hwithin first hfirst
  have hle := (mem_columns_ofCall hcolumn).2
  have hge := (mem_columns_ofCall hcolumn').1
  unfold SeenCall.Before at hbefore
  omega

/-- The offset of an argument is the place where it begins: in front of it stand the arguments before it,
each with its comma. Only the last argument of a text that ends with a comma of depth 0 has another
offset. The hints of a line stand at different columns exactly if no call that has hints ends with such a
comma, and then their columns increase. -/
theorem argOffset_begins (cs : List Char) (number : Nat) (line : List Char) :
    (∀ before piece behind, rawArgs cs = before ++ piece :: behind →
      cs = inFront before ++ [','].intercalate (piece :: behind) ∧
      (argOffset cs before.length = (inFront before).length ↔ ¬(behind = [] ∧ EndsAtComma cs))) ∧
    (((ofLine number line).map (·.column)).Nodup ↔
      ∀ call ∈ seenCalls (beforeComment line), ¬call.Dangling) ∧
    (((ofLine number line).map (·.column)).Nodup →
      ((ofLine number line).map (·.column)).Pairwise (· < ·)) := by
  -- A call whose last piece has the offset of the first has two hints in one column.
  have hapart : ((ofLine number line).map (·.column)).Nodup →
      ∀ call ∈ seenCalls (beforeComment line), ¬call.Dangling := by
    intro hnodup call hcall hdangling
    rw [columns_ofLine, List.nodup_flatMap] at hnodup
    exact not_nodup_columns_ofCall _ _ hdangling (hnodup.1 call hcall)
  have hincreasing := columns_ofLine_increasing number line
  refine ⟨fun before piece behind h => ⟨?_, argOffset_eq_iff h⟩, ⟨hapart, fun h => ?_⟩, fun hnodup => ?_⟩
  · rw [← intercalate_eq_inFront, (cuts_rawArgs h).intercalate_eq]
  · exact (hincreasing h).imp fun hlt => Nat.ne_of_lt hlt
  · exact hincreasing (hapart hnodup)

/-- An argument behind a comma at the end has the offset of the first argument, and the hints of both
stand at one column. -/
theorem argOffset_of_comma_at_end :
    rawArgs "a,".toList = [['a'], []] ∧ argOffset "a,".toList 1 = 0 ∧ inFront [['a']] = "a,".toList ∧
      (ofLine 1 "print(a,)".toList).map (·.column) = [8, 8] := by
  decide +kernel

end InlayHint

end EvlCheck
