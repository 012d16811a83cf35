/-
What is shown for the columns of a line. A word is a longest run of word characters (`IsWord`). One and the
same is shown for each of its columns and for the column directly behind it: the word's explanation over all
of it, or nothing if it has none. For an operator at whose left no word ends, the operator's own
explanation is shown. Nothing else is shown anywhere.

A word without an explanation hides an operator directly behind it.
-/
import EvlCheck.Editor.Glossary
import EvlCheck.Proofs.Lexing.LongestMatch
import Mathlib.Data.List.TakeWhile

namespace EvlCheck

open Text

/-! ## Operators -/

namespace Glossary

variable {c : Char} {contents : String}

theorem mem_toString (c : Char) : c ∈ c.toString.toList := by simp

theorem isWordPart_of_operator (h : (c.toString, contents) ∈ operators) : Hover.isWordPart c = false := by
  have hall : operators.all (fun e => e.1.toList.all fun d => !Hover.isWordPart d) = true := by decide
  have hkey := List.all_eq_true.1 (List.all_eq_true.1 hall _ h) c (mem_toString c)
  rwa [Bool.not_eq_true'] at hkey

theorem find?_of_operator (h : (c.toString, contents) ∈ operators) : find? c.toString = some contents := by
  have hall : ∀ e ∈ operators, find? e.1 = some e.2 := by decide
  exact hall _ h

/-- Of what has an entry, only the operators are spelled without word characters. -/
theorem mem_operators_of_find? (h : find? c.toString = some contents) (hc : Hover.isWordPart c = false) :
    (c.toString, contents) ∈ operators := by
  obtain ⟨front, back, hentries, -⟩ := List.lookup_eq_some_iff.1 h
  have hentry : (c.toString, contents) ∈ entries := hentries ▸ List.mem_append_right _ (.head _)
  rcases List.mem_append.1 hentry with hword | hoperator
  · have hall : (declarations ++ functions ++ constants ++ blocks).all
        (fun e => e.1.toList.all Hover.isWordPart) = true := by decide
    have hpart := List.all_eq_true.1 (List.all_eq_true.1 hall _ hword) c (mem_toString c)
    rw [hc] at hpart
    cases hpart
  · exact hoperator

end Glossary

namespace Hover

/-! ## Words -/

/-- A longest run of word characters, and what stands before and behind it. -/
structure IsWord (cs front word back : List Char) : Prop where
  text_eq : cs = front ++ (word ++ back)
  ne_nil : word ≠ []
  parts : ∀ c ∈ word, isWordPart c = true
  left : ∀ c ∈ front.getLast?, isWordPart c = false
  right : ∀ c ∈ back.head?, isWordPart c = false

variable {cs front word back : List Char} {place number column : Nat}

/-- Word characters that a text begins with, up to the first character that is none. -/
theorem exists_parts_at_start (cs : List Char) :
    ∃ w rest, cs = w ++ rest ∧ (∀ c ∈ w, isWordPart c = true) ∧ ∀ c ∈ rest.head?, isWordPart c = false := by
  refine ⟨cs.takeWhile isWordPart, cs.dropWhile isWordPart, List.takeWhile_append_dropWhile.symm,
    fun c hc => List.mem_takeWhile_imp hc, fun c hc => ?_⟩
  have hfirst := List.head?_dropWhile_not isWordPart cs
  rwa [Option.mem_def.1 hc] at hfirst

/-- Word characters that a text ends with, from behind the last character that is none. -/
theorem exists_parts_at_end (cs : List Char) :
    ∃ rest w, cs = rest ++ w ∧ (∀ c ∈ w, isWordPart c = true) ∧ ∀ c ∈ rest.getLast?, isWordPart c = false := by
  obtain ⟨w, rest, hcs, hparts, hstop⟩ := exists_parts_at_start cs.reverse
  refine ⟨rest.reverse, w.reverse, ?_, fun c hc => hparts c (List.mem_reverse.1 hc), fun c hc => ?_⟩
  · rw [← List.reverse_append, ← hcs, List.reverse_reverse]
  · rw [List.getLast?_reverse] at hc
    exact hstop c hc

/-- Each word character is one of a word. -/
theorem exists_isWord (h : cs[place]?.any isWordPart = true) :
    ∃ front word back, IsWord cs front word back ∧ front.length ≤ place ∧ place < front.length + word.length := by
  obtain ⟨c, hget, hc⟩ := (Option.any_eq_true _ _).1 h
  obtain ⟨hplace, rfl⟩ := List.getElem?_eq_some_iff.1 hget
  -- The word reaches as far as word characters do to both sides of this one.
  obtain ⟨front, before, hbefore, hbefore', hleft⟩ := exists_parts_at_end (cs.take place)
  obtain ⟨behind, back, hbehind, hbehind', hright⟩ := exists_parts_at_start (cs.drop (place + 1))
  have hlength : place = front.length + before.length := by
    rw [← List.length_append, ← hbefore, List.length_take, Nat.min_eq_left (Nat.le_of_lt hplace)]
  refine ⟨front, before ++ cs[place] :: behind, back, ⟨?_, by simp, fun d hd => ?_, hleft, hright⟩, ?_, ?_⟩
  · rw [List.append_assoc, ← List.append_assoc, ← hbefore, List.cons_append, ← hbehind,
      ← List.drop_eq_getElem_cons hplace, List.take_append_drop]
  · rcases List.mem_append.1 hd with hd | hd
    · exact hbefore' d hd
    · rcases List.mem_cons.1 hd with rfl | hd
      · exact hc
      · exact hbehind' d hd
  · omega
  · rw [List.length_append, List.length_cons]
    omega

namespace IsWord

variable (h : IsWord cs front word back)
include h

theorem getElem?_inside {k : Nat} (hk : k < word.length) : cs[front.length + k]?.any isWordPart = true := by
  rw [h.text_eq, List.getElem?_append_right (Nat.le_add_right _ _), Nat.add_sub_cancel_left,
    List.getElem?_append_left hk, List.getElem?_eq_getElem hk]
  exact h.parts _ (List.getElem_mem hk)

theorem getElem?_behind : cs[front.length + word.length]?.any isWordPart = false := by
  rw [h.text_eq, List.getElem?_append_right (Nat.le_add_right _ _), Nat.add_sub_cancel_left,
    List.getElem?_append_right (Nat.le_refl _), Nat.sub_self, ← List.head?_eq_getElem?, Option.any_eq_false]
  intro c hc
  simp [h.right c hc]

/-- The scans to both sides find the word from each of its places. -/
theorem wordAround_eq {k : Nat} (hk : k < word.length) :
    wordAround cs (front.length + k) = (front.length, word) := by
  have hbefore : (cs.take (front.length + k)).reverse = (word.take k).reverse ++ front.reverse := by
    rw [h.text_eq, List.take_length_add_append, List.take_append_of_le_length (Nat.le_of_lt hk), List.reverse_append]
  have hfrom : cs.drop (front.length + k) = word.drop k ++ back := by
    rw [h.text_eq, List.drop_length_add_append, List.drop_append_of_le_length (Nat.le_of_lt hk)]
  have hleft : (cs.take (front.length + k)).reverse.takeWhile isWordPart = (word.take k).reverse := by
    rw [hbefore]
    refine Lexing.takeWhile_append_of_stop (fun c hc => ?_) fun c hc => ?_
    · exact h.parts c (List.mem_of_mem_take (List.mem_reverse.1 hc))
    · rw [List.head?_reverse] at hc
      exact h.left c hc
  have hright : (cs.drop (front.length + k)).takeWhile isWordPart = word.drop k := by
    rw [hfrom]
    exact Lexing.takeWhile_append_of_stop (fun c hc => h.parts c (List.mem_of_mem_drop hc)) h.right
  simp only [wordAround, hleft, hright, List.length_reverse, List.reverse_reverse, List.take_append_drop,
    List.length_take, Nat.min_eq_left (Nat.le_of_lt hk), Nat.add_sub_cancel_right]

end IsWord

/-! ## Where the cursor points at -/

theorem anchor?_of_part (h : cs[place]?.any isWordPart = true) : anchor? cs place = some place := by
  cases place with
  | zero =>
    rw [← List.head?_eq_getElem?] at h
    exact if_pos h
  | succ i => exact if_pos h

theorem anchor?_behind (h : cs[place + 1]?.any isWordPart = false) (hleft : cs[place]?.any isWordPart = true) :
    anchor? cs (place + 1) = some place := by
  rw [anchor?, if_neg (by rw [h]; exact Bool.false_ne_true), if_pos hleft]

/-- The cursor is on a word character or directly behind one. -/
theorem part_of_anchor? {i : Nat} (h : anchor? cs i = some place) :
    cs[place]?.any isWordPart = true ∧ (i = place ∨ i = place + 1) := by
  cases i with
  | zero =>
    rw [anchor?, List.head?_eq_getElem?] at h
    split at h
    · cases h
      exact ⟨‹_›, .inl rfl⟩
    · cases h
  | succ i =>
    rw [anchor?] at h
    split at h
    · cases h
      exact ⟨‹_›, .inl rfl⟩
    · split at h
      · cases h
        exact ⟨‹_›, .inr rfl⟩
      · cases h

theorem anchor?_of_operator {c : Char} (hc : isWordPart c = false)
    (hleft : ∀ d ∈ front.getLast?, isWordPart d = false) :
    anchor? (front ++ c :: back) front.length = none := by
  rcases List.eq_nil_or_concat front with rfl | ⟨init, d, rfl⟩
  · simp [anchor?, hc]
  · rw [List.concat_eq_append] at hleft ⊢
    have hd := hleft d (by simp)
    simp [anchor?, hc, hd]

/-! ## What is shown -/

/-- The same is shown for all columns of a word and for the column behind it. -/
theorem IsWord.at?_eq (h : IsWord cs front word back) (number : Nat) (hfirst : front.length < column)
    (hlast : column ≤ front.length + word.length + 1) :
    at? number cs column = (Glossary.explain? (String.ofList word)).map fun contents =>
      ⟨⟨number, front.length + 1, number, front.length + word.length + 1⟩, contents⟩ := by
  obtain ⟨i, rfl⟩ : ∃ i, column = front.length + i + 1 := ⟨column - front.length - 1, by omega⟩
  have hsize : 0 < word.length := List.length_pos_of_ne_nil h.ne_nil
  -- A column of the word points at itself, the one behind it at the last character.
  have hanchor : ∃ k, k < word.length ∧ anchor? cs (front.length + i) = some (front.length + k) := by
    by_cases hi : i < word.length
    · exact ⟨i, hi, anchor?_of_part (h.getElem?_inside hi)⟩
    · obtain ⟨k, hk⟩ : ∃ k, word.length = k + 1 := Nat.exists_eq_succ_of_ne_zero (Nat.ne_of_gt hsize)
      obtain rfl : i = k + 1 := by omega
      have hbehind := h.getElem?_behind
      rw [hk] at hbehind
      exact ⟨k, by omega, anchor?_behind hbehind (h.getElem?_inside (by omega))⟩
  obtain ⟨k, hk, hanchor⟩ := hanchor
  simp only [at?, hanchor, h.wordAround_eq hk]

theorem at?_of_operator {c : Char} {contents : String} (hc : (c.toString, contents) ∈ Glossary.operators)
    (hleft : ∀ d ∈ front.getLast?, isWordPart d = false) :
    at? number (front ++ c :: back) (front.length + 1) =
      some ⟨⟨number, front.length + 1, number, front.length + 2⟩, contents⟩ := by
  have hget : (front ++ c :: back)[front.length]? = some c := by simp
  simp only [at?, anchor?_of_operator (Glossary.isWordPart_of_operator hc) hleft, hget, Option.bind_some,
    Glossary.find?_of_operator hc, Option.map_some]

/-- What is shown is a word's explanation or an operator's. -/
theorem cases_of_at? {hover : Hover} (h : at? number cs column = some hover) :
    (∃ front word back, IsWord cs front word back ∧ front.length < column ∧
      column ≤ front.length + word.length + 1) ∨
    ∃ front c back, cs = front ++ c :: back ∧ column = front.length + 1 ∧
      (c.toString, hover.contents) ∈ Glossary.operators ∧ hover.range = ⟨number, column, number, column + 1⟩ := by
  cases column with
  | zero => cases h
  | succ i =>
    rw [at?] at h
    cases hanchor : anchor? cs i with
    | some place =>
      obtain ⟨hpart, hi⟩ := part_of_anchor? hanchor
      obtain ⟨front, word, back, hword, hfirst, hlast⟩ := exists_isWord hpart
      exact .inl ⟨front, word, back, hword, by omega, by omega⟩
    | none =>
      rw [hanchor] at h
      obtain ⟨c, hget, h⟩ := Option.bind_eq_some_iff.1 h
      obtain ⟨contents, hfind, rfl⟩ := Option.map_eq_some_iff.1 h
      obtain ⟨hi, rfl⟩ := List.getElem?_eq_some_iff.1 hget
      -- A word character would have been pointed at.
      have hpart : isWordPart cs[i] = false := by
        refine Bool.eq_false_iff.2 fun hpart => ?_
        have hsome : anchor? cs i = some i := anchor?_of_part (by rw [hget]; exact hpart)
        rw [hanchor] at hsome
        cases hsome
      refine .inr ⟨cs.take i, cs[i], cs.drop (i + 1), ?_, ?_, Glossary.mem_operators_of_find? hfind hpart, rfl⟩
      · rw [← List.drop_eq_getElem_cons hi, List.take_append_drop]
      · rw [List.length_take, Nat.min_eq_left (Nat.le_of_lt hi)]

/-- What is shown is consistent. If something is shown for a column, then it is for a word, and the column
is one of the word's or the one behind it, for all of which the same is shown; or it is for an operator at
the column. The operator's explanation is shown for each operator at whose left no word ends. At
whose left one ends, the word's is shown, or nothing. -/
theorem at?_consistent (number : Nat) (cs : List Char) :
    (∀ column hover, at? number cs column = some hover →
      (∃ front word back, IsWord cs front word back ∧ front.length < column ∧
        column ≤ front.length + word.length + 1 ∧ Glossary.explain? (String.ofList word) = some hover.contents ∧
        hover.range = ⟨number, front.length + 1, number, front.length + word.length + 1⟩ ∧
        ∀ other, front.length < other → other ≤ front.length + word.length + 1 → at? number cs other = some hover) ∨
      ∃ front c back, cs = front ++ c :: back ∧ column = front.length + 1 ∧
        (c.toString, hover.contents) ∈ Glossary.operators ∧ hover.range = ⟨number, column, number, column + 1⟩) ∧
    ∀ front c back contents, cs = front ++ c :: back → (c.toString, contents) ∈ Glossary.operators →
      (∀ before word, IsWord cs before word (c :: back) → at? number cs (front.length + 1) =
        (Glossary.explain? (String.ofList word)).map fun explained =>
          ⟨⟨number, before.length + 1, number, before.length + word.length + 1⟩, explained⟩) ∧
      ((∀ d ∈ front.getLast?, isWordPart d = false) → at? number cs (front.length + 1) =
        some ⟨⟨number, front.length + 1, number, front.length + 2⟩, contents⟩) := by
  constructor
  · intro column hover h
    -- A word answers for each of its columns and for the one behind it; an operator only for its own.
    rcases cases_of_at? h with ⟨front, word, back, hword, hfirst, hlast⟩ | hoperator
    · have hshown := hword.at?_eq number hfirst hlast
      rw [h] at hshown
      obtain ⟨contents, hcontents, rfl⟩ := Option.map_eq_some_iff.1 hshown.symm
      refine .inl ⟨front, word, back, hword, hfirst, hlast, hcontents, rfl, fun other hfirst' hlast' => ?_⟩
      rw [hword.at?_eq number hfirst' hlast', hcontents, Option.map_some]
    · exact .inr hoperator
  · rintro front c back contents rfl hc
    constructor
    · intro before word hword
      have hlength := congrArg List.length hword.text_eq
      simp only [List.length_append] at hlength
      have hsize : 0 < word.length := List.length_pos_of_ne_nil hword.ne_nil
      exact hword.at?_eq number (by omega) (by omega)
    · intro hleft
      exact at?_of_operator hc hleft

/-- The operator of `x/y` has nothing shown for it, since `x` is a word without an explanation. -/
theorem at?_hides_operator :
    ("/", "Divides one numeric value by another.") ∈ Glossary.operators ∧ Glossary.explain? "x" = none ∧
      at? 1 "x/y".toList 2 = none := by
  decide +kernel

end Hover

end EvlCheck
