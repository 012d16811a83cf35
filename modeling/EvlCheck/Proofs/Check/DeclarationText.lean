/-
The text of a declaration: perhaps `const`, a type, a name, an equals sign and a value, with blanks
between. The patterns of the validator find these parts exactly where they stand, so a line may be
taken apart into them and put together again with another one in the place of one of them.
-/
import EvlCheck.Proofs.Check.LineShape

namespace EvlCheck

open Text

namespace Check

/-- The type of a declaration and perhaps `const` in front of it. -/
inductive HeadText : Bool → ValueType → List Char → Prop
  | plain (type : ValueType) : HeadText false type type.text.toList
  | const (type : ValueType) {g : List Char} (blank : ∀ c ∈ g, isBlank c = true) (ne : g ≠ []) :
      HeadText true type ("const".toList ++ (g ++ type.text.toList))

/-- The type and the name of a declaration. -/
inductive NamedText (constant : Bool) (type : ValueType) (name : List Char) : List Char → Prop
  | mk {head g : List Char} (head_text : HeadText constant type head) (blank : ∀ c ∈ g, isBlank c = true)
      (gap : g ≠ []) (word : ∀ c ∈ name, isWord c = true) (ne : name ≠ []) :
      NamedText constant type name (head ++ (g ++ name))

section

variable {constant : Bool} {type : ValueType} {head name front cs rest : List Char}

theorem exists_of_skipBlanks? (h : skipBlanks? cs = some rest) :
    ∃ g, (∀ c ∈ g, isBlank c = true) ∧ g ≠ [] ∧ cs = g ++ rest ∧ ∀ c ∈ rest.head?, isBlank c = false := by
  cases cs with
  | nil => cases h
  | cons c cs =>
    rw [skipBlanks?] at h
    split at h
    · next hc =>
      cases h
      refine ⟨c :: cs.takeWhile isBlank, ?_, List.cons_ne_nil _ _, ?_, ?_⟩
      · rw [List.forall_mem_cons]
        exact ⟨hc, fun d => List.mem_takeWhile_imp⟩
      · exact congrArg (c :: ·) List.takeWhile_append_dropWhile.symm
      · intro d hd
        have hfirst := List.head?_dropWhile_not isBlank cs
        rw [show (cs.dropWhile isBlank).head? = some d from hd] at hfirst
        exact hfirst
    · cases h

theorem exists_of_type? (h : type? cs = some (type, rest)) : cs = type.text.toList ++ rest := by
  unfold type? at h
  obtain ⟨other, -, hother⟩ := List.exists_of_findSome?_eq_some h
  obtain ⟨r, hr, heq⟩ := Option.map_eq_some_iff.1 hother
  cases heq
  exact (List.append_eq_of_isPrefixOf?_eq_some hr).symm

theorem exists_headText (h : declarationHead? cs = some (constant, type, rest)) :
    ∃ head, HeadText constant type head ∧ cs = head ++ rest := by
  unfold declarationHead? at h
  split at h
  · next t r hr =>
    cases h
    obtain ⟨behind, hbehind, htype⟩ := Option.bind_eq_some_iff.1 hr
    obtain ⟨word, hword, hskip⟩ := Option.bind_eq_some_iff.1 hbehind
    obtain ⟨g, hg, hne, rfl, -⟩ := exists_of_skipBlanks? hskip
    rw [exists_of_type? htype] at hword
    refine ⟨_, HeadText.const _ hg hne, ?_⟩
    rw [← List.append_eq_of_isPrefixOf?_eq_some hword]
    simp only [List.append_assoc]
  · obtain ⟨⟨t, r⟩, htype, heq⟩ := Option.map_eq_some_iff.1 h
    cases heq
    exact ⟨_, .plain _, exists_of_type? htype⟩

theorem HeadText.declarationHead?_append (h : HeadText constant type head) (rest : List Char) :
    declarationHead? (head ++ rest) = some (constant, type, rest) := by
  cases h with
  | plain => exact declarationHead?_type type rest
  | const _ blank ne =>
    simp only [List.append_assoc]
    exact declarationHead?_const type blank ne rest

/-- A head is told by the text. -/
theorem HeadText.unique {constant' : Bool} {type' : ValueType} {head' rest' : List Char}
    (h : HeadText constant type head) (h' : HeadText constant' type' head')
    (heq : head ++ rest = head' ++ rest') : constant = constant' ∧ type = type' ∧ rest = rest' := by
  have hhead := h.declarationHead?_append rest
  rw [heq, h'.declarationHead?_append rest'] at hhead
  cases hhead
  exact ⟨rfl, rfl, rfl⟩

theorem HeadText.isWord_or_isBlank (h : HeadText constant type head) :
    ∀ c ∈ head, isWord c = true ∨ isBlank c = true := by
  have htype : ∀ c ∈ type.text.toList, isWord c = true := by
    cases type <;> exact List.all_eq_true.1 (by decide +kernel)
  have hconst : ∀ c ∈ "const".toList, isWord c = true := List.all_eq_true.1 (by decide +kernel)
  cases h with
  | plain => exact fun c hc => .inl (htype c hc)
  | const _ blank =>
    intro c hc
    rcases List.mem_append.1 hc with hc | hc
    · exact .inl (hconst c hc)
    · rcases List.mem_append.1 hc with hc | hc
      · exact .inr (blank c hc)
      · exact .inl (htype c hc)

theorem HeadText.exists_cons (h : HeadText constant type head) :
    ∃ c tail, head = c :: tail ∧ isBlank c = false := by
  cases h with
  | plain => cases type <;> exact ⟨_, _, rfl, by decide⟩
  | const => exact ⟨_, _, rfl, by decide⟩

theorem exists_namedText (h : namedHead? cs = some (constant, type, name, rest)) :
    ∃ front, NamedText constant type name front ∧ cs = front ++ rest ∧
      ∀ c ∈ rest.head?, isWord c = false := by
  unfold namedHead? at h
  simp only [Option.bind_eq_bind, Option.bind_eq_some_iff, Option.pure_def, Option.some.injEq,
    Prod.mk.injEq, Prod.exists] at h
  obtain ⟨_, _, _, hhead, skipped, hskip, w, r, hword, rfl, rfl, rfl, rfl⟩ := h
  obtain ⟨head, hheadText, rfl⟩ := exists_headText hhead
  obtain ⟨g, hg, hne, rfl, -⟩ := exists_of_skipBlanks? hskip
  obtain ⟨hname, hall⟩ := isWord_of_word? hword
  refine ⟨_, .mk hheadText hg hne hall hname, ?_, ?_⟩
  · rw [← append_of_word? hword]
    simp only [List.append_assoc]
  · unfold word? at hword
    split at hword
    · cases hword
    · cases hword
      intro c hc
      have hfirst := List.head?_dropWhile_not isWord skipped
      rw [hc] at hfirst
      exact hfirst

theorem NamedText.isWord_or_isBlank (h : NamedText constant type name front) :
    ∀ c ∈ front, isWord c = true ∨ isBlank c = true := by
  cases h with
  | mk head_text blank _ word =>
    intro c hc
    rcases List.mem_append.1 hc with hc | hc
    · exact head_text.isWord_or_isBlank c hc
    · rcases List.mem_append.1 hc with hc | hc
      · exact .inr (blank c hc)
      · exact .inl (word c hc)

theorem NamedText.exists_cons (h : NamedText constant type name front) :
    ∃ c tail, front = c :: tail ∧ isBlank c = false := by
  cases h with
  | mk head_text =>
    obtain ⟨c, tail, rfl, hc⟩ := head_text.exists_cons
    exact ⟨c, _, rfl, hc⟩

theorem NamedText.not_mem (h : NamedText constant type name front) {c : Char}
    (hword : isWord c = false) (hblank : isBlank c = false) : c ∉ front := by
  intro hmem
  rcases h.isWord_or_isBlank c hmem with hc | hc
  · rw [hword] at hc; cases hc
  · rw [hblank] at hc; cases hc

theorem NamedText.namedHead?_append (h : NamedText constant type name front)
    (hrest : ∀ c ∈ rest.head?, isWord c = false) :
    namedHead? (front ++ rest) = some (constant, type, name, rest) := by
  cases h with
  | @mk head g head_text blank gap word ne =>
    have hstart : trimStart (name ++ rest) = name ++ rest := by
      obtain ⟨c, w, rfl⟩ := List.exists_cons_of_ne_nil ne
      exact trimStart_cons (isBlank_of_isWord (word c List.mem_cons_self)) _
    unfold namedHead?
    simp only [List.append_assoc, Option.bind_eq_bind, head_text.declarationHead?_append,
      Option.bind_some, skipBlanks?_blanks_append blank gap, hstart, word?_append word hrest ne,
      Option.pure_def]

/-- A declaration is a type and a name, an equals sign and a value. -/
theorem exists_declarationText {d : Declaration} (h : declaration? cs = some d) :
    ∃ front g rest, NamedText d.constant d.type d.name.toList front ∧ (∀ c ∈ g, isBlank c = true) ∧
      cs = front ++ (g ++ '=' :: rest) ∧ d.value = trimStart rest ∧ trimStart rest ≠ [] := by
  unfold declaration? at h
  simp only [Option.bind_eq_bind, Option.bind_eq_some_iff, Option.pure_def, Option.some.injEq,
    Prod.exists] at h
  obtain ⟨constant, type, name, r, hhead, behind, hequals, hvalue⟩ := h
  obtain ⟨⟨⟩, hne, rfl⟩ := hvalue
  obtain ⟨front, hfront, rfl, -⟩ := exists_namedText hhead
  obtain ⟨g, hg, rfl⟩ := exists_of_afterBlanks? hequals
  refine ⟨front, g, behind, ?_, hg, rfl, rfl, ?_⟩
  · rwa [String.toList_ofList]
  · intro hnil
    simp [hnil] at hne

theorem NamedText.declaration?_append (h : NamedText constant type name front) {g : List Char}
    (hg : ∀ c ∈ g, isBlank c = true) (hrest : trimStart rest ≠ []) :
    declaration? (front ++ (g ++ '=' :: rest)) =
      some ⟨constant, type, String.ofList name, trimStart rest⟩ := by
  have hends : ∀ c ∈ (g ++ '=' :: rest).head?, isWord c = false := by
    refine head?_blanks_append hg ?_
    rintro c hc
    cases hc
    decide
  unfold declaration?
  simp only [Option.bind_eq_bind, h.namedHead?_append hends, Option.bind_some,
    afterBlanks?_blanks_append hg, Option.pure_def]
  rw [afterBlanks?_cons (by decide), if_pos rfl]
  simp [hrest]

end

end Check

end EvlCheck
