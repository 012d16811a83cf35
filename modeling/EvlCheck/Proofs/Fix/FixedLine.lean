/-
What validation makes of a line that a fix changed, where the fix puts a value, a type or a name into a
declaration. A fix changes the raw line, and validation reads the line without its comment and its
semicolon (`statementOf`), so each lemma goes from the raw line to that text. In each case the line has
no complaint on the topic of the fix any more, wherever it stands (`Silent`).
-/
import EvlCheck.Fix.LineChange
import EvlCheck.Proofs.Check.DeclarationText
import EvlCheck.Proofs.Check.Sources
import EvlCheck.Proofs.Check.TypedText

namespace EvlCheck

open Text Check

/-! ## Lines without a terminator -/

namespace Text

theorem trimStart_isPrefix {xs ys : List Char} (h : xs <+: ys) : trimStart xs <+: trimStart ys := by
  obtain ⟨more, rfl⟩ := h
  unfold trimStart
  rw [List.dropWhile_append]
  split
  · next hnil =>
    rw [List.isEmpty_iff.1 hnil]
    exact List.nil_prefix
  · exact List.prefix_append _ _

theorem trimEnd_isPrefix (cs : List Char) : trimEnd cs <+: cs := by
  rw [← List.reverse_suffix]
  unfold trimEnd
  rw [List.reverse_reverse]
  exact List.dropWhile_suffix _

theorem exists_trimStart (cs : List Char) :
    ∃ g, (∀ c ∈ g, isBlank c = true) ∧ cs = g ++ trimStart cs :=
  ⟨cs.takeWhile isBlank, fun _ => List.mem_takeWhile_imp, List.takeWhile_append_dropWhile.symm⟩

theorem mem_trim {cs : List Char} {c : Char} (h : c ∈ cs) (hc : isBlank c = false) : c ∈ trim cs := by
  obtain ⟨g, g', hg, hg', hcs⟩ := exists_trim cs
  rw [hcs, List.mem_append, List.mem_append] at h
  rcases h with h | h | h
  · rw [hg c h] at hc; cases hc
  · exact h
  · rw [hg' c h] at hc; cases hc

end Text

namespace Check

/-- What validation reads of a line that has no terminator any more. -/
def statementOf (line : List Char) : List Char := trim (dropSuffix ';' (beforeComment line))

section

variable {line ending : List Char}

/-- Without its carriage return a line is what stood in front of that. -/
theorem dropSuffix_ended (hending : ending = [] ∨ ending = ['\r'])
    (hbare : ending = [] → line.getLast? ≠ some '\r') : dropSuffix '\r' (line ++ ending) = line := by
  unfold dropSuffix
  rcases hending with rfl | rfl
  · rw [List.append_nil, if_neg (hbare rfl)]
  · rw [if_pos List.getLast?_concat, List.dropLast_concat]

theorem normalizeLine_ended (hending : ending = [] ∨ ending = ['\r'])
    (hbare : ending = [] → line.getLast? ≠ some '\r') :
    normalizeLine (line ++ ending) = statementOf line := by
  rw [normalizeLine, dropSuffix_ended hending hbare]
  rfl

theorem statementOf_isPrefix (line : List Char) : statementOf line <+: trimStart line :=
  (trimEnd_isPrefix _).trans
    (trimStart_isPrefix ((dropSuffix_starts _ _).trans (beforeComment_starts line)))

theorem trim_blanks_append {g : List Char} (hg : ∀ c ∈ g, isBlank c = true) (cs : List Char) :
    trim (g ++ cs) = trim cs := by
  rw [trim, trimStart_blanks_append hg]
  rfl

theorem statementOf_blanks_append {g : List Char} (hg : ∀ c ∈ g, isBlank c = true) (line : List Char) :
    statementOf (g ++ line) = statementOf line := by
  have hslash : '/' ∉ g := fun hmem => absurd (hg _ hmem) (by decide)
  have hlast : g.getLast? ≠ some ';' := fun h => absurd (hg _ (List.mem_of_getLast? h)) (by decide)
  rw [statementOf, Commentless.of_not_mem hslash, dropSuffix_append hlast, trim_blanks_append hg]
  rfl

/-- The beginning of a line stays, up to a character that is neither blank nor a semicolon. -/
theorem statementOf_behind {g p : List Char} {v : Char} (hg : ∀ c ∈ g, isBlank c = true)
    (hfirst : ∀ c ∈ (p ++ [v]).head?, isBlank c = false) (hcomment : Commentless (p ++ [v]))
    (hv : isBlank v = false) (hsemicolon : v ≠ ';') (tail : List Char) :
    p ++ [v] <+: statementOf (g ++ (p ++ v :: tail)) := by
  have hline := normalizeLine_behind hg hfirst hcomment hv hsemicolon (tail ++ ['\r'])
  have hended : normalizeLine (g ++ (p ++ v :: tail) ++ ['\r']) = statementOf (g ++ (p ++ v :: tail)) :=
    normalizeLine_ended (.inr rfl) fun h => absurd h (by decide)
  simp only [List.append_assoc, List.cons_append] at hended
  rw [← hended, hline]
  exact ⟨_, List.append_assoc p [v] _⟩

end

/-! ## Silence -/

/-- The line has no complaint on the topic, wherever it stands. -/
def Silent [Build] (t : Topic) (symbols : Symbols) (line : List Char) : Prop :=
  ∀ w number, ∀ c ∈ Walk.complaints symbols w number line, c.topic ≠ t

section

variable [Build] {t : Topic} {symbols : Symbols} {line : List Char}

theorem Silent.told_eq_zero (h : Silent t symbols line) {m : String} (hm : IsAbout m t) (w : Walk) :
    w.told m symbols line = 0 := by
  refine List.countP_eq_zero.2 fun c hc hmessage => ?_
  exact h w 0 c hc (hm c (Walk.named_of_mem_complaints hc) (of_decide_eq_true hmessage))

/-- A topic of complaints about the value of a declaration or about calls. -/
theorem silent_of_checks (ht : t.ofNumber = true ∨ t.ofCall = true)
    (hnumber : ∀ d, lineForm line = .declaration d →
      ∀ c ∈ numberComplaints symbols d (trim d.value), c.topic ≠ t)
    (hcall : ∀ declared cs, Walk.Expression line declared cs →
      ∀ number, ∀ c ∈ expressionComplaints ⟨number, declared, symbols⟩ cs, c.topic ≠ t) :
    Silent t symbols line := by
  rintro w number c hc rfl
  cases Walk.arises_of_mem_complaints hc with
  | number form _ mem => exact hnumber _ form c mem rfl
  | expression checked mem => exact hcall _ _ checked number c mem rfl
  | _ => rcases ht with ht | ht <;> cases ht

/-- A topic of complaints about the form of a line. -/
theorem silent_of_form (ht : t = .nameless ∨ t = .valueless)
    (hnameless : t = .nameless → lineForm line ≠ .nameless)
    (hvalueless : t = .valueless → ∀ name, lineForm line ≠ .valueless name) :
    Silent t symbols line := by
  rintro w number c hc rfl
  cases Walk.arises_of_mem_complaints hc with
  | number _ _ mem => rcases ht with ht | ht <;> exact absurd ht (topic_ne_of_number mem rfl)
  | expression _ mem => rcases ht with ht | ht <;> exact absurd ht (topic_ne_of_call mem rfl)
  | nameless form => exact hnameless rfl form
  | valueless form => exact hvalueless rfl _ form
  | _ => rcases ht with ht | ht <;> cases ht

end

/-! ## Texts without a comment -/

section

variable {xs ys : List Char}

theorem beforeComment_append_of_head (hxs : beforeComment xs = xs) (hys : ys.head? ≠ some '/') :
    beforeComment (xs ++ ys) = xs ++ beforeComment ys := by
  induction xs with
  | nil => rfl
  | cons c xs ih =>
    rw [beforeComment_cons] at hxs
    split at hxs
    · cases hxs
    · next hslash =>
      rw [List.cons.injEq] at hxs
      have hhead : ¬(c = '/' ∧ (xs ++ ys).head? = some '/') := by
        rintro ⟨hc, hhead⟩
        cases xs with
        | nil => exact hys hhead
        | cons d xs => exact hslash ⟨hc, hhead⟩
      rw [List.cons_append, beforeComment_cons, if_neg hhead, ih hxs.2]
      rfl

theorem beforeComment_of_append (h : beforeComment (xs ++ ys) = xs ++ ys) : beforeComment xs = xs := by
  induction xs with
  | nil => rfl
  | cons c xs ih =>
    rw [List.cons_append, beforeComment_cons] at h
    split at h
    · cases h
    · next hslash =>
      rw [List.cons.injEq] at h
      have hhead : ¬(c = '/' ∧ xs.head? = some '/') := by
        rintro ⟨hc, hhead⟩
        exact hslash ⟨hc, by rw [List.head?_append, hhead]; rfl⟩
      rw [beforeComment_cons, if_neg hhead, ih h.2]

end

/-- What stands behind the last blank in front of a character. -/
theorem exists_trimStart_append {v : Char} (hv : isBlank v = false) (xs ys : List Char) :
    ∃ zs, trimStart (xs ++ v :: ys) = zs ++ v :: ys := by
  unfold trimStart
  rw [List.dropWhile_append]
  split
  · exact ⟨[], by rw [List.dropWhile_cons_of_neg (by simp [hv])]; rfl⟩
  · exact ⟨_, rfl⟩

/-- A line without a comment that does not end in a semicolon or a blank loses blanks in front. -/
theorem statementOf_eq_trimStart {cs : List Char} {v : Char} (hcomment : beforeComment cs = cs)
    (hlast : cs.getLast? = some v) (hv : isBlank v = false) (hsemicolon : v ≠ ';') :
    statementOf cs = trimStart cs := by
  have hkeep : dropSuffix ';' cs = cs := by
    unfold dropSuffix
    rw [if_neg]
    rw [hlast]
    simpa using hsemicolon
  unfold statementOf trim
  rw [hcomment, hkeep]
  obtain ⟨front, rfl⟩ := List.getLast?_eq_some_iff.1 hlast
  obtain ⟨zs, hzs⟩ := exists_trimStart_append hv front []
  rw [hzs]
  have hend : ∀ c ∈ (zs ++ [v]).getLast?, isBlank c = false := by simpa using hv
  have htrim := trimEnd_append hend []
  rw [List.append_nil] at htrim
  rw [htrim]
  exact List.append_nil _

/-! ## Values -/

/-- A declaration without a value has no equals sign. -/
theorem not_mem_of_valueless? {cs : List Char} {name : String} (h : valueless? cs = some name) :
    '=' ∉ cs := by
  unfold valueless? at h
  simp only [Option.bind_eq_bind, Option.bind_eq_some_iff, Prod.exists] at h
  obtain ⟨_, _, _, rest, hhead, h⟩ := h
  obtain ⟨front, hfront, rfl, -⟩ := exists_namedText hhead
  split at h
  · next hblank =>
    rw [List.mem_append, not_or]
    refine ⟨hfront.not_mem (by decide) (by decide), fun hmem => ?_⟩
    have hall := List.dropWhile_eq_nil_iff.1 hblank _ hmem
    exact absurd hall (by decide)
  · cases h

/-- Behind a declaration without a comment a value can be put. -/
theorem silent_valueless [Build] {line value : List Char} {v : Char}
    (hcomment : beforeComment line = line) (hvalue : '/' ∉ value) (hlast : value.getLast? = some v)
    (hv : isBlank v = false) (hsemicolon : v ≠ ';') (symbols : Symbols) :
    Silent .valueless symbols (statementOf (trimEnd line ++ " = ".toList ++ value)) := by
  have hline : beforeComment (trimEnd line) = trimEnd line := by
    obtain ⟨more, hmore⟩ := trimEnd_isPrefix line
    rw [← hmore] at hcomment
    exact beforeComment_of_append hcomment
  have hnew : beforeComment (trimEnd line ++ " = ".toList ++ value) =
      trimEnd line ++ " = ".toList ++ value := by
    rw [List.append_assoc, beforeComment_append_of_head hline (fun h => by cases h),
      beforeComment_of_not_mem]
    rw [List.mem_append, not_or]
    exact ⟨by decide, hvalue⟩
  have hequals : '=' ∈ statementOf (trimEnd line ++ " = ".toList ++ value) := by
    rw [statementOf_eq_trimStart hnew (by rw [List.getLast?_append, hlast]; rfl) hv hsemicolon]
    obtain ⟨zs, hzs⟩ := exists_trimStart_append (v := '=') (by decide) (trimEnd line ++ [' ']) (' ' :: value)
    have hsplit : trimEnd line ++ " = ".toList ++ value =
        (trimEnd line ++ [' ']) ++ '=' :: (' ' :: value) := by simp
    rw [hsplit, hzs]
    exact List.mem_append_right _ List.mem_cons_self
  refine silent_of_form (.inr rfl) (fun h => by cases h) fun _ name hform => ?_
  exact not_mem_of_valueless? (valueless?_of_lineForm hform) hequals

/-- A line that ends in a decimal has no integer as its value. -/
theorem silent_intLiteral [Build] {kept fraction : List Char} {v : Char}
    (hcomment : beforeComment (kept ++ '.' :: fraction) = kept ++ '.' :: fraction)
    (hdigits : ∀ c ∈ fraction, isDecimal c = true) (hlast : fraction.getLast? = some v)
    (symbols : Symbols) : Silent .intLiteral symbols (statementOf (kept ++ '.' :: fraction)) := by
  have hdigit : isDecimal v = true := hdigits v (List.mem_of_getLast? hlast)
  have hend : (kept ++ '.' :: fraction).getLast? = some v := by
    rw [List.getLast?_append, List.getLast?_cons, hlast]
    rfl
  have hstatement : statementOf (kept ++ '.' :: fraction) = trimStart (kept ++ '.' :: fraction) :=
    statementOf_eq_trimStart hcomment hend (isBlank_of_isWord (isWord_of_isDecimal hdigit)) (by
      rintro rfl
      exact absurd hdigit (by decide))
  obtain ⟨zs, hzs⟩ := exists_trimStart_append (v := '.') (by decide) kept fraction
  rw [hstatement, hzs]
  refine silent_of_checks (.inl rfl) (fun d hform c hc htopic => ?_) fun _ cs _ number c hc htopic => ?_
  · rcases mem_numberComplaints_cases hc with ⟨rfl, hint⟩ | ⟨-, ⟨rfl, -⟩ | ⟨rfl, -⟩ | ⟨rfl, -⟩⟩ |
      ⟨inner, target, -, htarget⟩
    · -- the value runs from the equals sign to the end, so the point is in it
      obtain ⟨front, g, rest, -, -, htext, hvalue, -⟩ :=
        exists_declarationText (declaration?_of_lineForm hform)
      have hpoint : '.' ∈ rest := by
        have hequals : '=' ∉ '.' :: fraction := by
          rw [List.mem_cons, not_or]
          exact ⟨by decide, fun hmem => absurd (hdigits _ hmem) (by decide)⟩
        rw [← List.append_assoc] at htext
        rcases List.append_eq_append_iff.1 htext with ⟨more, -, hmore⟩ | ⟨more, -, hmore⟩
        · exact absurd (hmore ▸ List.mem_append_right _ List.mem_cons_self) hequals
        · cases more with
          | nil => cases hmore
          | cons c more =>
            cases hmore
            exact List.mem_append_right _ List.mem_cons_self
      have hmem : '.' ∈ trim d.value := by
        obtain ⟨g', hg', hrest⟩ := exists_trimStart rest
        rw [hrest, List.mem_append, ← hvalue] at hpoint
        rcases hpoint with hpoint | hpoint
        · exact absurd (hg' _ hpoint) (by decide)
        · exact mem_trim hpoint (by decide)
      exact absurd (isDecimal_of_isIntLiteral hint _ hmem) (by decide)
    · cases htopic
    · cases htopic
    · cases htopic
    · rcases targetComplaint?_cases htarget with ⟨rfl, -⟩ | ⟨_, rfl, -⟩ <;> cases htopic
  · exact topic_ne_of_call hc rfl htopic

/-- A line that validation takes for a declaration is one from its first character on. -/
theorem exists_rawDeclaration {line : List Char} {d : Declaration}
    (h : declaration? (statementOf line) = some d) :
    ∃ ws front g rest, (∀ c ∈ ws, isBlank c = true) ∧
      NamedText d.constant d.type d.name.toList front ∧ (∀ c ∈ g, isBlank c = true) ∧
      line = ws ++ (front ++ (g ++ '=' :: rest)) ∧ trimStart rest ≠ [] := by
  obtain ⟨front, g, rest, hfront, hg, htext, -, hne⟩ := exists_declarationText h
  obtain ⟨ws, hws, hline⟩ := exists_trimStart line
  obtain ⟨tail, htail⟩ := statementOf_isPrefix line
  refine ⟨ws, front, g, rest ++ tail, hws, hfront, hg, ?_, ?_⟩
  · rw [hline, ← htail, htext]
    simp only [List.append_assoc, List.cons_append]
  · intro hnil
    obtain ⟨zs, hzs⟩ := trimStart_isPrefix (List.prefix_append rest tail)
    rw [hnil] at hzs
    exact hne (List.append_eq_nil_iff.1 hzs).1

theorem splitAssigned?_append {before rest v : List Char} (hbefore : '=' ∉ before)
    (hv : value? rest = some v) : splitAssigned? (before ++ '=' :: rest) = some (before, v) := by
  suffices h : ∀ seen, splitAssigned?.go (before ++ '=' :: rest) seen =
      some (seen.reverse ++ before, v) from h []
  induction before with
  | nil =>
    intro seen
    rw [List.nil_append, splitAssigned?.go, if_pos rfl, hv, List.append_nil]
  | cons c before ih =>
    rw [List.mem_cons, not_or] at hbefore
    intro seen
    rw [List.cons_append, splitAssigned?.go, if_neg (Ne.symm hbefore.1), ih hbefore.2,
      List.reverse_cons, List.append_assoc]
    rfl

theorem exists_value? {rest : List Char} (hne : trimStart rest ≠ []) (hfree : '\n' ∉ rest) :
    ∃ v, value? rest = some v := by
  unfold value?
  split
  · next hnil => exact absurd hnil hne
  · rw [if_neg]
    · exact ⟨_, rfl⟩
    · intro hmem
      exact hfree ((List.dropWhile_sublist isBlank).subset (List.contains_iff_mem.1 hmem))

/-- The names of variables are no calls. -/
def PlainNames (symbols : Symbols) : Prop := ∀ name type, symbols.get? name = some type → '(' ∉ name.toList

/-- A value that is a cast is no number, no variable and no expression of which the type is told. -/
theorem silent_cast [Build] {constant : Bool} {type : ValueType} {name ws front g : List Char}
    {symbols : Symbols} (hws : ∀ c ∈ ws, isBlank c = true)
    (hfront : NamedText constant type name front) (hg : ∀ c ∈ g, isBlank c = true)
    (hsymbols : PlainNames symbols) (more : List Char) {t : Topic}
    (ht : t = .floatLiteral ∨ t = .floatVariable ∨ t = .conversion) :
    Silent t symbols (statementOf (ws ++ (front ++ (g ++ "= cast(".toList ++ more)))) ∧
      Script.declares? (statementOf (ws ++ (front ++ (g ++ "= cast(".toList ++ more)))) =
        some (String.ofList name, type) := by
  have hslash : '/' ∉ front ++ (g ++ "= cast".toList) ++ ['('] := by
    simp only [List.mem_append, not_or]
    exact ⟨⟨hfront.not_mem (by decide) (by decide), fun h => absurd (hg _ h) (by decide), by decide⟩,
      by decide⟩
  have hopening := statementOf_behind (p := front ++ (g ++ "= cast".toList)) (v := '(') hws ?_
    (Commentless.of_not_mem hslash) (by decide) (by decide) more
  · obtain ⟨tail, htail⟩ := hopening
    have htext : statementOf (ws ++ (front ++ (g ++ "= cast(".toList ++ more))) =
        front ++ (g ++ '=' :: (' ' :: ("cast".toList ++ '(' :: tail))) := by
      simpa using htail.symm
    have hvalue : trimStart (' ' :: ("cast".toList ++ '(' :: tail)) = "cast".toList ++ '(' :: tail := rfl
    have hsome : trimStart (' ' :: ("cast".toList ++ '(' :: tail)) ≠ [] := List.cons_ne_nil _ _
    have hdeclaration := hfront.declaration?_append hg hsome
    rw [hvalue, ← htext] at hdeclaration
    have htrim : trim ("cast".toList ++ '(' :: tail) = "cast".toList ++ '(' :: trimEnd tail :=
      have hend : ∀ c ∈ "cast(".toList.getLast?, isBlank c = false := by rintro c ⟨⟩; decide
      trimEnd_append hend tail
    refine ⟨silent_of_checks ?_ (fun d hform c hc htopic => ?_) fun _ cs _ number c hc htopic => ?_, ?_⟩
    · rcases ht with rfl | rfl | rfl <;> exact .inl rfl
    · have hd := declaration?_of_lineForm hform
      rw [hdeclaration] at hd
      cases hd
      rw [htrim] at hc
      rcases mem_numberComplaints_cases hc with ⟨rfl, -⟩ |
        ⟨-, ⟨rfl, hfloat⟩ | ⟨rfl, hvariable⟩ | ⟨rfl, hcall⟩⟩ | ⟨inner, target, -, htarget⟩
      · rcases ht with rfl | rfl | rfl <;> cases htopic
      · cases hfloat
      · refine hsymbols _ _ hvariable ?_
        rw [String.toList_ofList]
        exact List.mem_append_right _ List.mem_cons_self
      · cases hcall
      · rcases targetComplaint?_cases htarget with ⟨rfl, -⟩ | ⟨_, rfl, -⟩ <;>
          rcases ht with rfl | rfl | rfl <;> cases htopic
    · rcases ht with rfl | rfl | rfl <;> exact topic_ne_of_call hc rfl htopic
    · unfold Script.declares?
      rw [hdeclaration]
      rfl
  · obtain ⟨c, front, rfl, hc⟩ := hfront.exists_cons
    rintro d hd
    cases hd
    exact hc

/-! ## Types and names -/

theorem HeadText.exists_front {constant : Bool} {type : ValueType} {head : List Char}
    (h : HeadText constant type head) :
    ∃ front, head = front ++ type.text.toList ∧
      ∀ other : ValueType, HeadText constant other (front ++ other.text.toList) := by
  cases h with
  | plain => exact ⟨[], rfl, fun other => .plain other⟩
  | @const _ g blank ne =>
    refine ⟨"const".toList ++ g, (List.append_assoc ..).symm, fun other => ?_⟩
    rw [List.append_assoc]
    exact .const other blank ne

/-- What stands around the type of a declaration in a raw line. -/
theorem exists_of_declaredType? {line before rest : List Char} {type : ValueType}
    (h : LineChange.declaredType? line = some (before, type, rest)) :
    ∃ ws front constant, (∀ c ∈ ws, isBlank c = true) ∧ before = ws ++ front ∧
      line = before ++ (type.text.toList ++ rest) ∧
      ∀ other : ValueType, HeadText constant other (front ++ other.text.toList) := by
  obtain ⟨⟨constant, type', rest'⟩, hhead, heq⟩ := Option.map_eq_some_iff.1 h
  simp only [Prod.mk.injEq] at heq
  obtain ⟨rfl, rfl, rfl⟩ := heq
  obtain ⟨head, hheadText, hstart⟩ := exists_headText hhead
  obtain ⟨front, rfl, hfront⟩ := hheadText.exists_front
  obtain ⟨ws, hws, hline⟩ := exists_trimStart line
  rw [hstart] at hline
  have htake : line.take (line.length - (type'.text.length + rest'.length)) = ws ++ front := by
    have hlength : line.length - (type'.text.length + rest'.length) = (ws ++ front).length := by
      rw [hline]
      simp only [List.length_append, String.length_toList]
      omega
    rw [hlength, hline]
    simp only [← List.append_assoc]
    rw [List.append_assoc, List.take_left]
  refine ⟨ws, front, constant, hws, htake, ?_, hfront⟩
  rw [htake, hline]
  simp only [List.append_assoc]

/-- The head of a line stays the head of what validation reads. -/
theorem head_of_statementOf {constant constant' : Bool} {type type' : ValueType}
    {ws head rest head' rest' : List Char} (hws : ∀ c ∈ ws, isBlank c = true)
    (hhead : HeadText constant type head) (hhead' : HeadText constant' type' head')
    (h : statementOf (ws ++ (head ++ rest)) = head' ++ rest') :
    type' = type ∧ rest' <+: rest := by
  obtain ⟨tail, htail⟩ := statementOf_isPrefix (ws ++ (head ++ rest))
  have hstart : trimStart (ws ++ (head ++ rest)) = head ++ rest := by
    obtain ⟨c, more, rfl, hc⟩ := hhead.exists_cons
    rw [trimStart_blanks_append hws]
    exact trimStart_cons hc _
  rw [h, hstart, List.append_assoc] at htail
  obtain ⟨-, htype, hrest⟩ := hhead'.unique hhead htail
  exact ⟨htype, tail, hrest⟩

theorem isNameless_of_lineForm {cs : List Char} (h : lineForm cs = .nameless) :
    isNameless cs = true := by
  unfold lineForm at h
  split at h
  · cases h
  · split at h
    · next hnameless => exact hnameless
    · repeat' split at h
      all_goals cases h

/-- A declaration with a name behind its type has one. -/
theorem silent_nameless [Build] {constant : Bool} {type : ValueType} {ws head rest : List Char}
    {c : Char} (hws : ∀ c ∈ ws, isBlank c = true) (hhead : HeadText constant type head)
    (hc : isBlank c = false) (hequals : c ≠ '=') (symbols : Symbols) :
    Silent .nameless symbols (statementOf (ws ++ (head ++ ' ' :: c :: rest))) := by
  refine silent_of_form (.inl rfl) (fun _ hform => ?_) fun h => by cases h
  have hnameless := isNameless_of_lineForm hform
  unfold isNameless at hnameless
  obtain ⟨behind, hbehind⟩ := Option.isSome_iff_exists.1 hnameless
  obtain ⟨⟨constant', type', rest'⟩, hhead', hassigned⟩ := Option.bind_eq_some_iff.1 hbehind
  obtain ⟨head', hheadText, htext⟩ := exists_headText hhead'
  obtain ⟨-, hrest⟩ := head_of_statementOf hws hhead hheadText htext
  obtain ⟨g, hg, rfl⟩ := exists_of_afterBlanks? hassigned
  cases g with
  | nil => cases (List.cons_prefix_cons.1 hrest).1
  | cons d g =>
    have hrest := (List.cons_prefix_cons.1 hrest).2
    cases g with
    | nil => exact hequals (List.cons_prefix_cons.1 hrest).1.symm
    | cons e g =>
      obtain rfl := (List.cons_prefix_cons.1 hrest).1
      rw [hg e (List.mem_cons_of_mem _ List.mem_cons_self)] at hc
      cases hc

/-- The type of a result is held against `int` only. -/
theorem declared_of_mem [Build] {declared : Option ValueType} {symbols : Symbols} {number : Nat}
    {cs : List Char} {c : Complaint}
    (h : c ∈ expressionComplaints ⟨number, declared, symbols⟩ cs)
    (ht : c.topic = .alwaysFloat ∨ c.topic = .floatFromArguments) : declared = some .int := by
  obtain ⟨call, -, declared', complaint, rfl, hdeclared, hground⟩ := exists_ground_of_mem h
  refine hdeclared _ ?_
  cases hground with
  | unknown => rcases ht with ht | ht <;> cases ht
  | arity _ wrong =>
    rcases arityComplaint?_cases wrong with ⟨rfl, -⟩ | ⟨_, rfl, -⟩ <;> rcases ht with ht | ht <;> cases ht
  | target _ _ wrong =>
    rcases castComplaint?_cases wrong with ⟨rfl, -⟩ | ⟨_, _, rfl, -⟩ <;> rcases ht with ht | ht <;> cases ht
  | args _ _ mem =>
    obtain ⟨_, _, -, ⟨rfl, -⟩ | ⟨-, hint, -⟩⟩ := argsComplaint?_cases (Option.mem_toList.1 mem)
    · rcases ht with ht | ht <;> cases ht
    · exact hint
  | result _ _ declared => exact declared

theorem silent_retyped [Build] {constant : Bool} {ws head : List Char} {t : Topic}
    (hws : ∀ c ∈ ws, isBlank c = true) (hhead : HeadText constant .float head) (rest : List Char)
    (ht : t = .alwaysFloat ∨ t = .floatFromArguments) (symbols : Symbols) :
    Silent t symbols (statementOf (ws ++ (head ++ rest))) := by
  refine silent_of_checks (.inr (by rcases ht with rfl | rfl <;> rfl)) (fun d _ c hc htopic => ?_)
    fun declared cs hchecked number c hc htopic => ?_
  · rcases ht with rfl | rfl <;> exact topic_ne_of_number hc rfl htopic
  · have hint := declared_of_mem hc (htopic ▸ ht)
    cases hchecked with
    | @value d form =>
      obtain ⟨front, g, rest', hfront, -, htext, -, -⟩ :=
        exists_declarationText (declaration?_of_lineForm form)
      cases hfront with
      | mk head_text =>
        simp only [List.append_assoc] at htext
        obtain ⟨htype, -⟩ := head_of_statementOf hws hhead head_text htext
        rw [htype] at hint
        cases hint
    | call => cases hint
    | assigned => cases hint

end Check

end EvlCheck
