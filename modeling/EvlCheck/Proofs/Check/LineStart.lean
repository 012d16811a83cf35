/-
What validation reads of a line, from the words that the line begins with. Normal form keeps the
beginning of a line as it stands, and shortens only what is behind it (`normalizeLine_opening`), as long
as the beginning has blanks at neither end and no comment starts in it. The steps of the line patterns
are given on words with blanks between, as the lexer has cut them.
-/
import EvlCheck.Proofs.Check.LineEnds
import EvlCheck.Proofs.Check.LineNames

namespace EvlCheck

open Text Check

/-! ## Taking words and blanks -/

namespace Text

theorem isWord_of_isBlank {c : Char} (h : isBlank c = true) : isWord c = false := by
  by_contra hword
  rw [Bool.not_eq_false] at hword
  rw [isBlank_of_isWord hword] at h
  cases h

section

variable {g cs : List Char} (hg : ∀ c ∈ g, isBlank c = true)
include hg

theorem trimStart_blanks_append : trimStart (g ++ cs) = trimStart cs :=
  List.dropWhile_append_of_pos hg

theorem afterBlanks?_blanks_append (c : Char) : afterBlanks? c (g ++ cs) = afterBlanks? c cs := by
  unfold afterBlanks?
  rw [trimStart_blanks_append hg]

theorem skipBlanks?_blanks_append (hne : g ≠ []) : skipBlanks? (g ++ cs) = some (trimStart cs) := by
  cases g with
  | nil => exact absurd rfl hne
  | cons c g =>
    rw [List.forall_mem_cons] at hg
    rw [List.cons_append, skipBlanks?, if_pos hg.1, trimStart_blanks_append hg.2]

/-- Blanks are no characters of a word, so one that ends in front of a text ends in front of them. -/
theorem head?_blanks_append (h : ∀ c ∈ cs.head?, isWord c = false) :
    ∀ c ∈ (g ++ cs).head?, isWord c = false := by
  cases g with
  | nil => exact h
  | cons d g =>
    rintro c hc
    cases hc
    exact isWord_of_isBlank (hg _ List.mem_cons_self)

end

theorem trimStart_cons {c : Char} (h : isBlank c = false) (cs : List Char) :
    trimStart (c :: cs) = c :: cs :=
  List.dropWhile_cons_of_neg (by simp [h])

section

variable {w rest : List Char} (hw : ∀ c ∈ w, isWord c = true)
  (hrest : ∀ c ∈ rest.head?, isWord c = false)
include hw hrest

theorem word?_append (hne : w ≠ []) : word? (w ++ rest) = some (w, rest) := by
  unfold word?
  rw [Lexing.takeWhile_append_of_stop hw hrest, Lexing.dropWhile_append_of_stop hw hrest]
  cases w with
  | nil => exact absurd rfl hne
  | cons c w => rfl

end

theorem name?_append {c : Char} {w rest : List Char} (hc : isNameStart c = true)
    (hw : ∀ d ∈ w, isWord d = true) (hrest : ∀ d ∈ rest.head?, isWord d = false) :
    name? (c :: w ++ rest) = some (c :: w, rest) := by
  rw [List.cons_append, name?, if_pos hc, Lexing.takeWhile_append_of_stop hw hrest,
    Lexing.dropWhile_append_of_stop hw hrest]

/-! ## Texts without a comment -/

/-- No comment begins in the text, whatever follows it. -/
def Commentless (p : List Char) : Prop := ∀ cs, beforeComment (p ++ cs) = p ++ beforeComment cs

namespace Commentless

theorem append {p q : List Char} (hp : Commentless p) (hq : Commentless q) : Commentless (p ++ q) := by
  intro cs
  rw [List.append_assoc, hp, hq, List.append_assoc]

theorem of_not_mem {p : List Char} (h : '/' ∉ p) : Commentless p := by
  intro cs
  induction p with
  | nil => rfl
  | cons c p ih =>
    rw [List.mem_cons, not_or] at h
    rw [List.cons_append, beforeComment_cons, if_neg fun hslash => h.1 hslash.1.symm, ih h.2]
    rfl

end Commentless

/-! ## The end of a line -/

theorem dropSuffix_append {c : Char} {xs : List Char} (h : xs.getLast? ≠ some c) (ys : List Char) :
    dropSuffix c (xs ++ ys) = xs ++ dropSuffix c ys := by
  unfold dropSuffix
  cases ys with
  | nil =>
    rw [List.append_nil, if_neg h]
    exact (List.append_nil _).symm
  | cons d ys =>
    rw [List.getLast?_append_of_ne_nil _ (List.cons_ne_nil d ys),
      List.dropLast_append_of_ne_nil (List.cons_ne_nil d ys)]
    split <;> rfl

theorem trimEnd_append {xs : List Char} (h : ∀ c ∈ xs.getLast?, isBlank c = false) (ys : List Char) :
    trimEnd (xs ++ ys) = xs ++ trimEnd ys := by
  have hkeep : xs.reverse.dropWhile isBlank = xs.reverse := by
    rw [← List.head?_reverse] at h
    cases hxs : xs.reverse with
    | nil => rfl
    | cons c rest => exact List.dropWhile_cons_of_neg (by simp [h c (by rw [hxs]; rfl)])
  unfold trimEnd
  rw [List.reverse_append, List.dropWhile_append]
  split
  · next hnil =>
    rw [List.isEmpty_iff.1 hnil, hkeep, List.reverse_nil, List.append_nil, List.reverse_reverse]
  · rw [List.reverse_append, List.reverse_reverse]

/-- What normal form leaves of the end of a line. -/
def lineTail (cs : List Char) : List Char :=
  trimEnd (dropSuffix ';' (beforeComment (dropSuffix '\r' cs)))

end Text

namespace Lexing

theorem isBlank_of_gap {g : List Char} (hg : ∀ c ∈ g, isGap c = true) : ∀ c ∈ g, isBlank c = true :=
  fun c hc => isBlank_of_isGap (hg c hc)

theorem not_mem_gap {g : List Char} (hg : ∀ c ∈ g, isGap c = true) {c : Char}
    (hc : isGap c = false) : c ∉ g := by
  intro hmem
  rw [hg c hmem] at hc
  cases hc

end Lexing

namespace Check

/-- Normal form keeps the beginning of a line, up to a character that is neither blank nor a
semicolon. -/
theorem normalizeLine_behind {g p : List Char} {v : Char} (hg : ∀ c ∈ g, isBlank c = true)
    (hfirst : ∀ c ∈ (p ++ [v]).head?, isBlank c = false) (hcomment : Commentless (p ++ [v]))
    (hv : isBlank v = false) (hsemicolon : v ≠ ';') (tail : List Char) :
    normalizeLine (g ++ (p ++ v :: tail)) = p ++ v :: lineTail tail := by
  have hlast : (g ++ (p ++ [v])).getLast? = some v := by simp
  have hreturn : v ≠ '\r' := by
    rintro rfl
    exact absurd hv (by decide)
  have hslash : '/' ∉ g := fun hmem => absurd (hg _ hmem) (by decide)
  have hsplit : g ++ (p ++ v :: tail) = g ++ (p ++ [v]) ++ tail := by simp
  have hcommentless : Commentless (g ++ (p ++ [v])) :=
    (Commentless.of_not_mem hslash).append hcomment
  unfold normalizeLine trim
  rw [hsplit, dropSuffix_append (by rw [hlast]; simpa using hreturn), hcommentless,
    dropSuffix_append (by rw [hlast]; simpa using hsemicolon), List.append_assoc,
    trimStart_blanks_append hg]
  obtain ⟨first, rest, hp⟩ := List.exists_cons_of_ne_nil (List.concat_ne_nil v p)
  rw [hp] at hfirst
  rw [hp, List.cons_append, trimStart_cons (hfirst first rfl), ← List.cons_append, ← hp,
    trimEnd_append (by simpa using hv), List.append_assoc]
  rfl

theorem normalizeLine_opening {g p : List Char} {v : Char} (hg : ∀ c ∈ g, Lexing.isGap c = true)
    (hfirst : ∀ c ∈ (p ++ [v]).head?, isBlank c = false) (hcomment : Commentless (p ++ [v]))
    (hv : isBlank v = false) (hsemicolon : v ≠ ';') (tail : List Char) :
    normalizeLine (g ++ (p ++ v :: tail)) = p ++ v :: lineTail tail :=
  normalizeLine_behind (Lexing.isBlank_of_gap hg) hfirst hcomment hv hsemicolon tail

theorem trimEnd_blanks {cs : List Char} (h : ∀ c ∈ cs, isBlank c = true) : trimEnd cs = [] := by
  unfold trimEnd
  rw [List.reverse_eq_nil_iff, List.dropWhile_eq_nil_iff]
  exact fun c hc => h c (List.mem_reverse.1 hc)

/-- Blanks and a comment leave nothing at the end of a line. -/
theorem lineTail_of_reads_nil {cs : List Char} (h : Lexing.LineReads cs []) : lineTail cs = [] := by
  have hblanks : ∀ {g xs : List Char}, (∀ c ∈ g, Lexing.isGap c = true) → xs <+: g →
      trimEnd (dropSuffix ';' xs) = [] := by
    intro g xs hg hxs
    refine trimEnd_blanks fun c hc => Lexing.isBlank_of_gap hg c ?_
    exact hxs.subset ((dropSuffix_starts _ _).subset hc)
  cases h with
  | blank gap => exact hblanks gap ((beforeComment_starts _).trans (dropSuffix_starts _ _))
  | @comment g body gap =>
    have hcommentless : Commentless g := .of_not_mem (Lexing.not_mem_gap gap (by decide))
    have hlast : (g ++ ['/', '/']).getLast? ≠ some '\r' := by simp
    unfold lineTail
    have hsplit : g ++ '/' :: '/' :: body = g ++ ['/', '/'] ++ body := by simp
    rw [hsplit, dropSuffix_append hlast, List.append_assoc, hcommentless, List.cons_append,
      beforeComment_cons, if_pos ⟨rfl, rfl⟩, List.append_nil]
    exact hblanks gap List.prefix_rfl

end Check

end EvlCheck
