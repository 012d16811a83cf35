/-
The names that a text calls: those that stand in front of a parenthesis, perhaps with blanks between.
The search looks ahead from each word to what follows it. Read from the left instead, a text is a word
that may still get a parenthesis, or nothing of the kind (`Pending`), and what it calls is found as its
parts are read one behind the other; so the names of a text come from its tokens and from which of them
stand side by side.
-/
import EvlCheck.Check.Line
import EvlCheck.Check.Validation
import EvlCheck.Proofs.Check.Protection
import Mathlib.Data.Option.Basic

namespace EvlCheck.Check

open Text

/-! ## The names by looking ahead -/

/-- The name that a word calls, given the text behind it. -/
def nameOfWord (word behind : List Char) : List String :=
  ((callOfWord? word behind).map (·.name)).toList

def namesOfWords (ws : List (List Char × List Char)) : List String :=
  ws.flatMap fun w => nameOfWord w.1 w.2

/-- The names that a text calls, however many there are. -/
def namesCalled (cs : List Char) : List String := namesOfWords (words cs)

theorem exists_of_mem_callsOfWords [Build] {ws : List (List Char × List Char)} {room : Nat}
    {found : List CallText} {call : CallText} (h : call ∈ (callsOfWords ws room found).1) :
    call ∈ found ∨ ∃ w behind, (w, behind) ∈ ws ∧ callOfWord? w behind = some call := by
  induction ws generalizing room found with
  | nil => exact .inl (List.mem_reverse.1 h)
  | cons first rest ih =>
    obtain ⟨word, behind⟩ := first
    unfold callsOfWords at h
    split at h
    · rcases ih h with h | ⟨w, b, hmem, hcall⟩
      · exact .inl h
      · exact .inr ⟨w, b, List.mem_cons_of_mem _ hmem, hcall⟩
    · next c hc =>
      split at h
      · exact .inl (List.mem_reverse.1 h)
      · rcases ih h with h | ⟨w, b, hmem, hcall⟩
        · rcases List.mem_cons.1 h with rfl | h
          · exact .inr ⟨word, behind, List.mem_cons_self, hc⟩
          · exact .inl h
        · exact .inr ⟨w, b, List.mem_cons_of_mem _ hmem, hcall⟩

theorem mem_namesCalled_of_mem_calls [Build] {cs : List Char} {call : CallText}
    (h : call ∈ (calls cs).1) :
    call.name ∈ namesCalled cs := by
  obtain ⟨w, behind, hword, hcall⟩ := (exists_of_mem_callsOfWords h).resolve_left List.not_mem_nil
  refine List.mem_flatMap.2 ⟨(w, behind), hword, ?_⟩
  unfold nameOfWord
  rw [hcall]
  exact List.mem_singleton_self _

/-! ## The names from the left -/

/-- What the text so far leaves for a parenthesis: nothing, or a word, which blanks may have ended. -/
inductive Pending where
  | none
  | word (w : List Char) (ended : Bool)

namespace Pending

/-- The name that a parenthesis calls now. -/
def name : Pending → List String
  | .none => []
  | .word w _ => nameOfWord w ['(']

/-- One more character, and the names that it calls. -/
def step (p : Pending) (c : Char) : Pending × List String :=
  if isWord c then
    (match p with
      | .word w false => .word (w ++ [c]) false
      | _ => .word [c] false, [])
  else if isBlank c then
    (match p with
      | .word w _ => .word w true
      | .none => .none, [])
  else (.none, if c = '(' then p.name else [])

/-- More characters, and the names that they call. -/
def read (p : Pending) : List Char → Pending × List String
  | [] => (p, [])
  | c :: cs => ((p.step c).1.read cs |>.1, (p.step c).2 ++ ((p.step c).1.read cs).2)

theorem read_append (p : Pending) (xs ys : List Char) :
    p.read (xs ++ ys) = (((p.read xs).1.read ys).1, (p.read xs).2 ++ ((p.read xs).1.read ys).2) := by
  induction xs generalizing p with
  | nil => rfl
  | cons c xs ih => simp only [List.cons_append, read, ih, List.append_assoc]

/-- The names that a pending word calls in front of a text. -/
def ahead (p : Pending) (cs : List Char) : List String :=
  match p with
  | .none => []
  | .word w true => nameOfWord w cs
  | .word w false => nameOfWord (w ++ cs.takeWhile isWord) (cs.dropWhile isWord)

/-- A word runs up to here. -/
def inside : Pending → Bool
  | .word _ false => true
  | _ => false

end Pending

theorem words_go_eq (cs : List Char) (inside : Bool) (found : List (List Char × List Char)) :
    words.go cs inside found = found.reverse ++ words.go cs inside [] := by
  induction cs generalizing inside found with
  | nil => simp [words.go]
  | cons c cs ih =>
    unfold words.go
    split
    · split
      · exact ih true found
      · rw [ih true (_ :: found), ih true [_]]
        simp
    · exact ih false found

theorem exists_of_mem_words {cs w behind : List Char} {inside : Bool}
    (h : (w, behind) ∈ words.go cs inside []) :
    ∃ before, cs = before ++ (w ++ behind) ∧ ∀ c ∈ w, isWord c = true := by
  induction cs generalizing inside with
  | nil => cases h
  | cons c cs ih =>
    have hmore : ∀ {inside}, (w, behind) ∈ words.go cs inside [] →
        ∃ before, c :: cs = before ++ (w ++ behind) ∧ ∀ c ∈ w, isWord c = true := by
      intro inside h
      obtain ⟨before, rfl, hw⟩ := ih h
      exact ⟨c :: before, rfl, hw⟩
    rw [words.go] at h
    split at h
    · next hc =>
      split at h
      · exact hmore h
      · rw [words_go_eq] at h
        rcases List.mem_append.1 h with h | h
        · cases List.mem_singleton.1 (List.mem_reverse.1 h)
          refine ⟨[], ?_, ?_⟩
          · exact congrArg (c :: ·) List.takeWhile_append_dropWhile.symm
          · rw [List.forall_mem_cons]
            exact ⟨hc, fun d => List.mem_takeWhile_imp⟩
        · exact hmore h
    · exact hmore h

theorem nameOfWord_eq_nil {w cs : List Char} (h : afterBlanks? '(' cs = none) :
    nameOfWord w cs = [] := by
  unfold nameOfWord callOfWord?
  split
  · rfl
  · rw [h]
    rfl

theorem nameOfWord_congr {w cs cs' : List Char}
    (h : (afterBlanks? '(' cs).isSome = (afterBlanks? '(' cs').isSome) :
    nameOfWord w cs = nameOfWord w cs' := by
  unfold nameOfWord callOfWord?
  split
  · rfl
  · cases hcs : afterBlanks? '(' cs <;> cases hcs' : afterBlanks? '(' cs' <;>
      rw [hcs, hcs'] at h <;> first | rfl | cases h

theorem afterBlanks?_of_isBlank {c d : Char} {cs : List Char} (h : isBlank d = true) :
    afterBlanks? c (d :: cs) = afterBlanks? c cs := by
  unfold afterBlanks? trimStart
  rw [List.dropWhile_cons_of_pos h]

theorem afterBlanks?_cons {c d : Char} {cs : List Char} (h : isBlank d = false) :
    afterBlanks? c (d :: cs) = if d = c then some cs else none := by
  unfold afterBlanks? trimStart
  rw [List.dropWhile_cons_of_neg (by simp [h])]

/-- The names of a text are those that a word before it calls, and those of the words in it. -/
theorem Pending.names_read (p : Pending) (cs : List Char) :
    (p.read cs).2 = p.ahead cs ++ namesOfWords (words.go cs p.inside []) := by
  induction cs generalizing p with
  | nil =>
    have hnone : ∀ w, nameOfWord w [] = [] := fun w => nameOfWord_eq_nil rfl
    cases p with
    | none => rfl
    | word w ended => cases ended <;> simp [read, ahead, words.go, namesOfWords, hnone]
  | cons c cs ih =>
    rw [read, ih, words.go]
    unfold step
    by_cases hword : isWord c = true
    · have hblank := isBlank_of_isWord hword
      have hparen : c ≠ '(' := by
        rintro rfl
        exact absurd hword (by decide)
      have hnone : ∀ w, nameOfWord w (c :: cs) = [] := by
        intro w
        apply nameOfWord_eq_nil
        rw [afterBlanks?_cons hblank, if_neg hparen]
      rw [if_pos hword, if_pos hword]
      cases p with
      | none => simp [ahead, inside, words_go_eq cs true [_], namesOfWords]
      | word w ended =>
        cases ended
        · simp [ahead, inside, hword]
        · simp [ahead, inside, hnone, words_go_eq cs true [_], namesOfWords]
    · rw [if_neg hword, if_neg hword]
      have hword := (Bool.not_eq_true _).mp hword
      by_cases hblank : isBlank c = true
      · have hskip : ∀ w, nameOfWord w (c :: cs) = nameOfWord w cs := fun w =>
          nameOfWord_congr (by rw [afterBlanks?_of_isBlank hblank])
        rw [if_pos hblank]
        cases p with
        | none => simp [ahead, inside]
        | word w ended => cases ended <;> simp [ahead, inside, hword, hskip]
      · rw [if_neg hblank]
        have hblank := (Bool.not_eq_true _).mp hblank
        have hnow : ∀ w, nameOfWord w (c :: cs) = if c = '(' then nameOfWord w ['('] else [] := by
          intro w
          split
          · next hc =>
            subst hc
            exact nameOfWord_congr rfl
          · next hc =>
            apply nameOfWord_eq_nil
            rw [afterBlanks?_cons hblank, if_neg hc]
        cases p with
        | none => simp [ahead, inside, name]
        | word w ended => cases ended <;> simp [ahead, inside, hword, hnow, name]

/-- Both searches find the same names. -/
theorem namesCalled_eq (cs : List Char) : namesCalled cs = (Pending.none.read cs).2 := by
  rw [Pending.names_read]
  rfl

/-! ## Names in a part of a text -/

namespace Pending

theorem read_blanks {g : List Char} (hg : ∀ c ∈ g, isBlank c = true) :
    Pending.none.read g = (.none, []) := by
  induction g with
  | nil => rfl
  | cons c g ih =>
    rw [List.forall_mem_cons] at hg
    have hword : isWord c = false := by
      by_contra hword
      rw [Bool.not_eq_false] at hword
      rw [isBlank_of_isWord hword] at hg
      cases hg.1
    rw [read, step, if_neg (by simp [hword]), if_pos hg.1, ih hg.2]
    rfl

/-- A character that is neither of a word nor blank leaves nothing pending. -/
theorem step_separator (p : Pending) {c : Char} (hword : isWord c = false)
    (hblank : isBlank c = false) : (p.step c).1 = .none := by
  unfold step
  rw [if_neg (by simp [hword]), if_neg (by simp [hblank])]

end Pending

theorem namesCalled_blanks_append {g cs : List Char} (hg : ∀ c ∈ g, isBlank c = true) :
    namesCalled (g ++ cs) = namesCalled cs := by
  rw [namesCalled_eq, namesCalled_eq, Pending.read_append, Pending.read_blanks hg]
  rfl

/-- A text calls what its beginning calls. -/
theorem namesCalled_isPrefix {xs cs : List Char} (h : xs <+: cs) :
    namesCalled xs ⊆ namesCalled cs := by
  obtain ⟨ys, rfl⟩ := h
  rw [namesCalled_eq, namesCalled_eq, Pending.read_append]
  exact List.subset_append_left _ _

/-- A text calls what is called behind one of its separators. -/
theorem namesCalled_behind {c : Char} (hword : isWord c = false) (hblank : isBlank c = false)
    (before behind : List Char) : namesCalled behind ⊆ namesCalled (before ++ c :: behind) := by
  rw [namesCalled_eq, namesCalled_eq, Pending.read_append, Pending.read,
    Pending.step_separator _ hword hblank]
  intro name hname
  exact List.mem_append_right _ (List.mem_append_right _ hname)

/-! ### Trimming -/

theorem exists_trim (cs : List Char) :
    ∃ g g', (∀ c ∈ g, isBlank c = true) ∧ (∀ c ∈ g', isBlank c = true) ∧ cs = g ++ (trim cs ++ g') := by
  have hstart := List.takeWhile_append_dropWhile (p := isBlank) (l := cs)
  have hend := List.takeWhile_append_dropWhile (p := isBlank) (l := (trimStart cs).reverse)
  refine ⟨cs.takeWhile isBlank, ((trimStart cs).reverse.takeWhile isBlank).reverse,
    fun c => List.mem_takeWhile_imp, fun c hc => List.mem_takeWhile_imp (List.mem_reverse.1 hc), ?_⟩
  unfold trim trimEnd
  rw [← List.reverse_append, hend, List.reverse_reverse]
  exact hstart.symm

theorem trim_isInfix (cs : List Char) : trim cs <:+: cs := by
  obtain ⟨g, g', -, -, hcs⟩ := exists_trim cs
  exact ⟨g, g', by rw [List.append_assoc]; exact hcs.symm⟩

theorem namesCalled_trim (cs : List Char) : namesCalled (trim cs) ⊆ namesCalled cs := by
  obtain ⟨g, g', hg, -, hcs⟩ := exists_trim cs
  conv => arg 2; rw [hcs, namesCalled_blanks_append hg]
  exact namesCalled_isPrefix (List.prefix_append _ _)

theorem namesCalled_trimStart (cs : List Char) : namesCalled (trimStart cs) = namesCalled cs := by
  have hstart := List.takeWhile_append_dropWhile (p := isBlank) (l := cs)
  have hblanks : namesCalled (cs.takeWhile isBlank ++ trimStart cs) = namesCalled (trimStart cs) :=
    namesCalled_blanks_append fun c => List.mem_takeWhile_imp
  rw [← hblanks]
  exact congrArg namesCalled hstart

theorem dropSuffix_starts (c : Char) (cs : List Char) : dropSuffix c cs <+: cs := by
  unfold dropSuffix
  split
  · exact List.dropLast_prefix cs
  · exact List.prefix_rfl

/-- What the validator reads of a line calls only what the line calls before its comment. -/
theorem namesCalled_normalizeLine (cs : List Char) :
    namesCalled (normalizeLine cs) ⊆ namesCalled (beforeComment (dropSuffix '\r' cs)) := by
  intro name hname
  exact namesCalled_isPrefix (dropSuffix_starts _ _) (namesCalled_trim _ hname)

/-! ### Values -/

theorem exists_of_afterBlanks? {c : Char} {cs rest : List Char} (h : afterBlanks? c cs = some rest) :
    ∃ g, (∀ d ∈ g, isBlank d = true) ∧ cs = g ++ c :: rest := by
  unfold afterBlanks? at h
  split at h
  · cases h
  · next d tail htail =>
    split at h
    · next hd =>
      cases h
      refine ⟨cs.takeWhile isBlank, fun d => List.mem_takeWhile_imp, ?_⟩
      rw [← hd, ← htail]
      exact List.takeWhile_append_dropWhile.symm
    · cases h

theorem isWord_of_mem_mentionedNames {name : String} {cs : List Char} (h : name ∈ mentionedNames cs) :
    name.toList ≠ [] ∧ ∀ c ∈ name.toList, isWord c = true := by
  obtain ⟨⟨word, behind⟩, hword, hname⟩ := List.mem_filterMap.1 h
  dsimp only at hname
  split at hname
  · next hstart =>
    cases hname
    rw [String.toList_ofList]
    obtain ⟨_, -, hall⟩ := exists_of_mem_words hword
    refine ⟨?_, hall⟩
    rintro rfl
    cases hstart
  · cases hname

/-- A call stands in front of a parenthesis, behind which its arguments begin. -/
theorem exists_of_mem_calls [Build] {cs : List Char} {call : CallText} (h : call ∈ (calls cs).1) :
    ∃ before w g rest, cs = before ++ (w ++ (g ++ '(' :: rest)) ∧ (∀ c ∈ w, isWord c = true) ∧
      (∀ c ∈ g, isBlank c = true) ∧ call.name.toList <:+ w ∧ call.name.toList ≠ [] ∧
      call.args = splitArgs (callInside rest) := by
  obtain ⟨w, behind, hmem, hcall⟩ := (exists_of_mem_callsOfWords h).resolve_left List.not_mem_nil
  obtain ⟨before, rfl, hw⟩ := exists_of_mem_words hmem
  unfold callOfWord? at hcall
  split at hcall
  · cases hcall
  · next hname =>
    obtain ⟨rest, hrest, rfl⟩ := Option.map_eq_some_iff.1 hcall
    obtain ⟨g, hg, rfl⟩ := exists_of_afterBlanks? hrest
    refine ⟨before, w, g, rest, rfl, hw, hg, ?_, ?_, rfl⟩
    · rw [String.toList_ofList]
      exact List.dropWhile_suffix _
    · rw [String.toList_ofList]
      exact hname

theorem suffix_of_after? {taken : String} {cs rest : List Char} (h : after? taken cs = some rest) :
    rest <:+ cs :=
  ⟨_, List.append_eq_of_isPrefixOf?_eq_some h⟩

theorem suffix_of_skipBlanks? {cs rest : List Char} (h : skipBlanks? cs = some rest) :
    rest <:+ cs := by
  cases cs with
  | nil => cases h
  | cons c cs =>
    rw [skipBlanks?] at h
    split at h
    · cases h
      exact (List.dropWhile_suffix _).trans (List.suffix_cons c cs)
    · cases h

theorem suffix_of_type? {cs rest : List Char} {type : ValueType} (h : type? cs = some (type, rest)) :
    rest <:+ cs := by
  unfold type? at h
  obtain ⟨t, -, ht⟩ := List.exists_of_findSome?_eq_some h
  obtain ⟨behind, hbehind, heq⟩ := Option.map_eq_some_iff.1 ht
  cases heq
  exact suffix_of_after? hbehind

theorem suffix_of_declarationHead? {cs rest : List Char} {constant : Bool} {type : ValueType}
    (h : declarationHead? cs = some (constant, type, rest)) : rest <:+ cs := by
  unfold declarationHead? at h
  split at h
  · next t r hr =>
    cases h
    obtain ⟨behind, hbehind, htype⟩ := Option.bind_eq_some_iff.1 hr
    obtain ⟨word, hword, hskip⟩ := Option.bind_eq_some_iff.1 hbehind
    exact (suffix_of_type? htype).trans ((suffix_of_skipBlanks? hskip).trans (suffix_of_after? hword))
  · obtain ⟨⟨t, r⟩, htype, heq⟩ := Option.map_eq_some_iff.1 h
    cases heq
    exact suffix_of_type? htype

/-- The value of a declaration stands behind an equals sign. -/
theorem exists_of_declaration? {cs : List Char} {d : Declaration} (h : declaration? cs = some d) :
    ∃ before rest, cs = before ++ '=' :: rest ∧ d.value = trimStart rest := by
  unfold declaration? at h
  simp only [Option.bind_eq_bind, Option.bind_eq_some_iff] at h
  obtain ⟨⟨constant, type, name, rest⟩, hhead, behind, hequals, -, -, hd⟩ := h
  obtain ⟨g, -, hrest⟩ := exists_of_afterBlanks? hequals
  unfold namedHead? at hhead
  simp only [Option.bind_eq_bind, Option.bind_eq_some_iff] at hhead
  obtain ⟨⟨constant', type', rest'⟩, hdeclaration, skipped, hskip, ⟨w, r⟩, hword, heq⟩ := hhead
  cases heq
  have hname : r <:+ skipped := ⟨w, append_of_word? hword⟩
  have hrest : r = g ++ '=' :: behind := hrest
  obtain ⟨before, hbefore⟩ :=
    hname.trans ((suffix_of_skipBlanks? hskip).trans (suffix_of_declarationHead? hdeclaration))
  cases hd
  exact ⟨before ++ g, behind, by rw [← hbefore, hrest, List.append_assoc], rfl⟩

theorem exists_of_splitAssigned? {cs before v : List Char} (h : splitAssigned? cs = some (before, v)) :
    ∃ front rest, cs = front ++ '=' :: rest ∧ value? rest = some v := by
  suffices hgo : ∀ seen, splitAssigned?.go cs seen = some (before, v) →
      ∃ front rest, cs = front ++ '=' :: rest ∧ value? rest = some v from hgo [] h
  clear h
  induction cs with
  | nil => intro seen h; cases h
  | cons c cs ih =>
    intro seen h
    rw [splitAssigned?.go] at h
    split at h
    · next w hw =>
      cases h
      split at hw
      · next hc => exact ⟨[], cs, by rw [hc]; rfl, hw⟩
      · cases hw
    · obtain ⟨front, rest, rfl, hv⟩ := ih _ h
      exact ⟨c :: front, rest, rfl, hv⟩

theorem suffix_of_assignedValue? {cs value : List Char} (h : assignedValue? cs = some value) :
    value <:+ cs := by
  obtain ⟨⟨before, v⟩, hsplit, rfl⟩ := Option.map_eq_some_iff.1 h
  obtain ⟨front, rest, rfl, hv⟩ := exists_of_splitAssigned? hsplit
  have hvalue : v <:+ rest := by
    unfold value? at hv
    repeat' split at hv
    all_goals cases hv
    · next hlast _ =>
      obtain ⟨front, rfl⟩ := List.getLast?_eq_some_iff.1 hlast
      exact List.suffix_append _ _
    · exact List.dropWhile_suffix _
  exact hvalue.trans ((List.suffix_cons '=' rest).trans (List.suffix_append _ _))

/-- An assigned value stands behind an equals sign, and calls nothing else. -/
theorem exists_of_assignedValue? {cs value : List Char} (h : assignedValue? cs = some value) :
    ∃ before rest, cs = before ++ '=' :: rest ∧ namesCalled value ⊆ namesCalled rest := by
  obtain ⟨⟨before, v⟩, hsplit, rfl⟩ := Option.map_eq_some_iff.1 h
  obtain ⟨front, rest, hcs, hvalue⟩ := exists_of_splitAssigned? hsplit
  refine ⟨front, rest, hcs, ?_⟩
  unfold value? at hvalue
  split at hvalue
  · -- A text of blanks stands for its last character.
    split at hvalue
    · cases hvalue
    · next hblanks _ c hlast =>
      split at hvalue
      · cases hvalue
      · cases hvalue
        have hc : isBlank c = true := 
          List.dropWhile_eq_nil_iff.1 hblanks c (List.mem_of_getLast? hlast)
        intro name hname
        have hnone : namesCalled ([c] ++ []) = namesCalled [] :=
          namesCalled_blanks_append (by simpa using hc)
        rw [List.append_nil] at hnone
        rw [hnone] at hname
        cases hname
  · split at hvalue
    · cases hvalue
    · cases hvalue
      rw [namesCalled_trimStart]
      exact List.Subset.refl _

end EvlCheck.Check
