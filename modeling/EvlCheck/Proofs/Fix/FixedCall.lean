/-
What validation makes of a line in which a fix changed a call: another target for a cast, or casts around
all arguments. Such a fix searches the raw line for the call, without a look at nesting. On a line with
one pair of parentheses it can only find the call that validation told of.
-/
import EvlCheck.Proofs.Fix.FixedLine

namespace EvlCheck

open Text Check

/-! ## Parts of texts -/

namespace Text

section

variable {α : Type} {c : α} {p xs ys : List α}

/-- A beginning does not reach a character that it does not have. -/
theorem prefix_of_prefix_append (h : p <+: xs ++ ys) (hys : ∀ d ∈ ys.head?, d ∉ p) : p <+: xs := by
  obtain ⟨rest, hrest⟩ := h
  rcases List.append_eq_append_iff.1 hrest with ⟨more, rfl, -⟩ | ⟨more, rfl, hmore⟩
  · exact List.prefix_append _ _
  · cases more with
    | nil => rw [List.append_nil]
    | cons d more =>
      subst hmore
      exact absurd (List.mem_append_right _ List.mem_cons_self) (hys d rfl)

/-- A beginning does not end in a character that the rest does not have. -/
theorem prefix_of_concat_isPrefix (h : p ++ [c] <+: xs ++ ys) (hys : c ∉ ys) : p ++ [c] <+: xs := by
  obtain ⟨rest, hrest⟩ := h
  rcases List.append_eq_append_iff.1 hrest with ⟨more, rfl, -⟩ | ⟨more, hmore, rfl⟩
  · exact List.prefix_append _ _
  · rcases List.eq_nil_or_concat more with rfl | ⟨front, d, rfl⟩
    · rw [hmore, List.append_nil]
    · rw [List.concat_eq_append, ← List.append_assoc] at hmore
      obtain ⟨-, hd⟩ := List.append_inj' hmore rfl
      cases hd
      exact absurd (by simp) hys

/-- Where a character occurs at most once, it is not around one of its places. -/
theorem not_mem_of_count_le [DecidableEq α] (h : (xs ++ c :: ys).count c ≤ 1) : c ∉ xs ∧ c ∉ ys := by
  rw [List.count_append, List.count_cons_self] at h
  exact ⟨List.count_eq_zero.1 (by omega), List.count_eq_zero.1 (by omega)⟩

end

theorem infix_of_mem_splitOn {sep : Char} {cs piece : List Char} (h : piece ∈ splitOn sep cs) :
    piece <:+: cs := by
  obtain ⟨k, hk⟩ := List.getElem?_of_mem h
  obtain ⟨before, after, rfl, -⟩ := exists_of_getElem?_splitOn hk
  exact ⟨before, after, by rw [List.append_assoc]⟩

theorem not_mem_intercalate {c : Char} {sep : List Char} {pieces : List (List Char)} (hsep : c ∉ sep)
    (h : ∀ piece ∈ pieces, c ∉ piece) : c ∉ sep.intercalate pieces := by
  induction pieces with
  | nil => exact List.not_mem_nil
  | cons piece rest ih =>
    obtain ⟨hpiece, hrest⟩ := List.forall_mem_cons.1 h
    cases rest with
    | nil => rwa [List.intercalate_singleton]
    | cons next rest =>
      rw [List.intercalate_cons_cons, List.mem_append, List.mem_append, not_or, not_or]
      exact ⟨⟨hpiece, hsep⟩, ih hrest⟩

/-- A replacement changes nothing, or one part of the text that the step matches. -/
theorem replaceFirst_cases (step : List Char → Option (List Char × List Char)) (cs : List Char) :
    replaceFirst step cs = cs ∨ ∃ before part new behind, cs = before ++ part ∧
      step part = some (new, behind) ∧ replaceFirst step cs = before ++ (new ++ behind) := by
  suffices h : ∀ seen, replaceFirst.go step cs seen = seen.reverse ++ cs ∨
      ∃ before part new behind, cs = before ++ part ∧ step part = some (new, behind) ∧
        replaceFirst.go step cs seen = seen.reverse ++ (before ++ (new ++ behind)) from h []
  induction cs with
  | nil =>
    intro seen
    rw [replaceFirst.go]
    split
    · next new behind hstep =>
      exact .inr ⟨[], [], new, behind, rfl, hstep, List.append_assoc ..⟩
    · exact .inl (List.append_nil _).symm
  | cons c rest ih =>
    intro seen
    rw [replaceFirst.go]
    split
    · next new behind hstep =>
      exact .inr ⟨[], c :: rest, new, behind, rfl, hstep, List.append_assoc ..⟩
    · rcases ih (c :: seen) with h | ⟨before, part, new, behind, rfl, hstep, h⟩
      · left
        rw [h, List.reverse_cons, List.append_assoc]
        rfl
      · right
        refine ⟨c :: before, part, new, behind, rfl, hstep, ?_⟩
        rw [h, List.reverse_cons, List.append_assoc]
        rfl

/-- What is found first is what is replaced. -/
theorem replaceFirst_of_findFirst? {α : Type} {step : List Char → Option α} (new : α → List Char × List Char)
    {cs : List Char} {a : α} (h : findFirst? step cs = some a) :
    ∃ before part, cs = before ++ part ∧ step part = some a ∧
      replaceFirst (fun cs => (step cs).map new) cs = before ++ ((new a).1 ++ (new a).2) := by
  suffices hgo : ∀ seen, ∃ before part, cs = before ++ part ∧ step part = some a ∧
      replaceFirst.go (fun cs => (step cs).map new) cs seen = seen.reverse ++ (before ++ ((new a).1 ++ (new a).2)) from
    hgo []
  induction cs with
  | nil =>
    intro seen
    rw [findFirst?] at h
    refine ⟨[], [], rfl, h, ?_⟩
    rw [replaceFirst.go, h]
    exact List.append_assoc ..
  | cons c rest ih =>
    intro seen
    rw [findFirst?] at h
    rw [replaceFirst.go]
    cases hstep : step (c :: rest) with
    | some b =>
      rw [hstep] at h
      cases h
      exact ⟨[], c :: rest, rfl, hstep, List.append_assoc ..⟩
    | none =>
      rw [hstep] at h
      obtain ⟨before, part, rfl, hpart, hgo⟩ := ih h (c :: seen)
      refine ⟨c :: before, part, rfl, hpart, ?_⟩
      rw [Option.map_none]
      dsimp only
      rw [hgo, List.reverse_cons, List.append_assoc]
      rfl

theorem exists_of_findFirst? {α : Type} {step : List Char → Option α} {cs : List Char} {a : α}
    (h : findFirst? step cs = some a) : ∃ before part, cs = before ++ part ∧ step part = some a := by
  induction cs with
  | nil => exact ⟨[], [], rfl, h⟩
  | cons c rest ih =>
    rw [findFirst?] at h
    split at h
    · next b hstep =>
      cases h
      exact ⟨[], c :: rest, rfl, hstep⟩
    · obtain ⟨before, part, rfl, hstep⟩ := ih h
      exact ⟨c :: before, part, rfl, hstep⟩

end Text

namespace LineChange

theorem exists_of_upTo? {c : Char} {cs before rest : List Char} (h : upTo? c cs = some (before, rest)) :
    ∃ behind, cs = before ++ c :: behind ∧ rest = c :: behind ∧ c ∉ before := by
  unfold upTo? at h
  split at h
  · cases h
  · cases h
  · next hnil hrest =>
    cases h
    have hfree : c ∉ cs.takeWhile (· != c) := by
      intro hmem
      simpa using List.mem_takeWhile_imp hmem
    cases hd : cs.dropWhile (· != c) with
    | nil => exact absurd hd hrest
    | cons d behind =>
      have hfirst := List.head?_dropWhile_not (· != c) cs
      rw [hd] at hfirst
      obtain rfl : d = c := by simpa using hfirst
      refine ⟨behind, ?_, rfl, hfree⟩
      rw [← hd, List.takeWhile_append_dropWhile]

/-- Where a cast gets another target, this stands between the comma and the parenthesis. -/
theorem exists_of_retarget {old new line : List Char} (h : retarget old new line ≠ line) :
    ∃ front piece g g' behind,
      (∃ lead gap, (∀ c ∈ gap, isBlank c = true) ∧ front = lead ++ ("cast".toList ++ gap)) ∧
      ',' ∉ piece ∧ (∀ c ∈ g, isBlank c = true) ∧
      (∀ c ∈ g', isBlank c = true) ∧
      line = front ++ '(' :: (piece ++ ',' :: (g ++ (old ++ (g' ++ ')' :: behind)))) ∧
      retarget old new line = front ++ '(' :: (piece ++ ',' :: (g ++ (new ++ (g' ++ ')' :: behind)))) := by
  unfold retarget at h ⊢
  rcases replaceFirst_cases _ line with hsame | ⟨before, part, text, behind, rfl, hstep, hnew⟩
  · exact absurd hsame h
  · rw [hnew]
    simp only [Option.bind_eq_bind, Option.bind_eq_some_iff, Option.pure_def, Option.some.injEq,
      Prod.mk.injEq, Prod.exists] at hstep
    obtain ⟨r, hcast, inside, hopen, piece, rest, hpiece, kept, hold, closed, hclosed, rfl, rfl⟩ := hstep
    obtain rfl := (List.append_eq_of_isPrefixOf?_eq_some hcast).symm
    obtain ⟨g₀, hg₀, rfl⟩ := exists_of_afterBlanks? hopen
    obtain ⟨target, rfl, rfl, hfree⟩ := exists_of_upTo? hpiece
    rw [List.drop_one, List.tail_cons] at hold
    obtain ⟨g, hg, htarget⟩ := exists_trimStart target
    obtain htext := (List.append_eq_of_isPrefixOf?_eq_some hold).symm
    obtain ⟨g', hg', rfl⟩ := exists_of_afterBlanks? hclosed
    rw [List.drop_one, List.tail_cons]
    generalize trimStart target = t at *
    subst htarget htext
    have htake : ∀ xs t : List Char, (xs ++ t).take ((xs ++ t).length - t.length) = xs := by
      intro xs t
      rw [List.length_append, Nat.add_sub_cancel, List.take_left]
    have hregroup : "cast".toList ++ (g₀ ++ '(' :: (piece ++ ',' :: (g ++ (old ++ (g' ++ ')' :: closed))))) =
        ("cast".toList ++ (g₀ ++ '(' :: (piece ++ ',' :: g))) ++ (old ++ (g' ++ ')' :: closed)) := by
      simp only [List.append_assoc, List.cons_append]
    refine ⟨before ++ ("cast".toList ++ g₀), piece, g, g', closed, ⟨before, g₀, hg₀, rfl⟩, hfree, hg, hg', ?_, ?_⟩
    · simp only [List.append_assoc]
    · rw [hregroup, htake]
      simp only [List.append_assoc, List.cons_append]

end LineChange

namespace Check

/-! ## The statement in a raw line -/

theorem exists_comment (cs : List Char) :
    ∃ comment, cs = beforeComment cs ++ comment ∧ ∀ c ∈ comment.head?, c = '/' := by
  induction cs with
  | nil => exact ⟨[], rfl, nofun⟩
  | cons c cs ih =>
    rw [beforeComment_cons]
    split
    · next hslash =>
      refine ⟨c :: cs, rfl, ?_⟩
      rintro d hd
      cases hd
      exact hslash.1
    · obtain ⟨comment, hcomment, hhead⟩ := ih
      exact ⟨comment, congrArg (c :: ·) hcomment, hhead⟩

theorem exists_dropSuffix (c : Char) (cs : List Char) :
    ∃ ending, cs = dropSuffix c cs ++ ending ∧ ∀ d ∈ ending, d = c := by
  unfold dropSuffix
  split
  · next hlast =>
    obtain ⟨front, rfl⟩ := List.getLast?_eq_some_iff.1 hlast
    exact ⟨[c], by rw [List.dropLast_concat], fun d hd => List.mem_singleton.1 hd⟩
  · exact ⟨[], (List.append_nil cs).symm, nofun⟩

/-- Around the statement of a line stand blanks, a semicolon and a comment. -/
theorem exists_around_statementOf (line : List Char) :
    ∃ g stripped comment, line = g ++ (statementOf line ++ (stripped ++ comment)) ∧
      (∀ c ∈ g, isBlank c = true) ∧ (∀ c ∈ stripped, isBlank c = true ∨ c = ';') ∧
      ∀ c ∈ comment.head?, c = '/' := by
  obtain ⟨comment, hline, hcomment⟩ := exists_comment line
  obtain ⟨ending, hcode, hending⟩ := exists_dropSuffix ';' (beforeComment line)
  obtain ⟨g, g', hg, hg', htrim⟩ := exists_trim (dropSuffix ';' (beforeComment line))
  refine ⟨g, g' ++ ending, comment, ?_, hg, fun c hc => ?_, hcomment⟩
  · have hparts : beforeComment line = g ++ (statementOf line ++ g') ++ ending := by
      rw [statementOf, ← htrim, ← hcode]
    calc line = beforeComment line ++ comment := hline
      _ = g ++ (statementOf line ++ g') ++ ending ++ comment := by rw [← hparts]
      _ = g ++ (statementOf line ++ (g' ++ ending ++ comment)) := by simp only [List.append_assoc]
  · rcases List.mem_append.1 hc with hc | hc
    · exact .inl (hg' c hc)
    · exact .inr (hending c hc)

theorem getLast?_trim (cs : List Char) : ∀ c ∈ (trim cs).getLast?, isBlank c = false := by
  intro c hc
  unfold trim trimEnd at hc
  rw [List.getLast?_reverse] at hc
  have hfirst := List.head?_dropWhile_not isBlank (trimStart cs).reverse
  rw [Option.mem_def.1 hc] at hfirst
  exact hfirst

theorem head?_trim (cs : List Char) : ∀ c ∈ (trim cs).head?, isBlank c = false := by
  intro c hc
  have hfirst := List.head?_dropWhile_not isBlank cs
  obtain ⟨more, hmore⟩ := trimEnd_isPrefix (trimStart cs)
  rw [show cs.dropWhile isBlank = trim cs ++ more from hmore.symm, List.head?_append,
    Option.mem_def.1 hc] at hfirst
  exact hfirst

/-- The last character of a statement is no blank. -/
theorem getLast?_statementOf (line : List Char) :
    ∀ c ∈ (statementOf line).getLast?, isBlank c = false := getLast?_trim _

/-- The first character of a statement is no blank. -/
theorem head?_statementOf (line : List Char) :
    ∀ c ∈ (statementOf line).head?, isBlank c = false := head?_trim _

/-- What is checked for calls runs to the end of the statement. -/
theorem suffix_of_expression {statement cs : List Char} {declared : Option ValueType}
    (h : Walk.Expression statement declared cs)
    (hend : ∀ c ∈ statement.getLast?, isBlank c = false) : cs <:+ statement := by
  cases h with
  | @value d form =>
    obtain ⟨front, g, rest, -, -, rfl, hvalue, hne⟩ :=
      exists_declarationText (declaration?_of_lineForm form)
    have hsuffix : trimStart rest <:+ front ++ (g ++ '=' :: rest) := by
      refine (List.dropWhile_suffix isBlank).trans ?_
      rw [← List.append_assoc]
      exact (List.suffix_cons '=' rest).trans (List.suffix_append _ _)
    have hlast : ∀ c ∈ (trimStart rest).getLast?, isBlank c = false := by
      obtain ⟨before, hbefore⟩ := hsuffix
      intro c hc
      refine hend c ?_
      rw [← hbefore, List.getLast?_append, Option.mem_def.1 hc]
      rfl
    have htrim : trim d.value = trimStart rest := by
      have hstart : trimStart (trimStart rest) = trimStart rest := by
        obtain ⟨c, more, hmore⟩ := List.exists_cons_of_ne_nil hne
        have hfirst := List.head?_dropWhile_not isBlank rest
        rw [show rest.dropWhile isBlank = c :: more from hmore] at hfirst
        rw [hmore]
        exact trimStart_cons hfirst more
      have hkeep := trimEnd_append hlast []
      rw [List.append_nil] at hkeep
      rw [hvalue, trim, hstart, hkeep]
      exact List.append_nil _
    rw [htrim]
    exact hsuffix
  | call => exact List.suffix_rfl
  | assigned form => exact suffix_of_assignedValue? (assignedValue?_of_lineForm form)

/-! ## The text in front of a call -/

theorem beforeComment_beforeComment (cs : List Char) :
    beforeComment (beforeComment cs) = beforeComment cs := by
  induction cs with
  | nil => rfl
  | cons c cs ih =>
    rw [beforeComment_cons]
    split
    · rfl
    · next hslash =>
      have hhead : ¬(c = '/' ∧ (beforeComment cs).head? = some '/') := by
        rintro ⟨hc, hhead⟩
        obtain ⟨more, hmore⟩ := beforeComment_starts cs
        refine hslash ⟨hc, ?_⟩
        rw [← hmore, List.head?_append, hhead]
        rfl
      rw [beforeComment_cons, if_neg hhead, ih]

/-- A part of a text without a comment has none. -/
theorem beforeComment_of_isInfix {cs part : List Char} (hpart : part <:+: cs)
    (h : beforeComment cs = cs) : beforeComment part = part := by
  obtain ⟨front, back, rfl⟩ := hpart
  replace h := beforeComment_of_append h
  induction front with
  | nil => exact h
  | cons c front ih =>
    rw [List.cons_append, beforeComment_cons] at h
    split at h
    · cases h
    · exact ih (List.cons.inj h).2

/-- No comment begins in what validation reads of a line. -/
theorem beforeComment_of_statementOf {line part : List Char} (hpart : part <:+: statementOf line) :
    beforeComment part = part :=
  beforeComment_of_isInfix (hpart.trans ((trim_isInfix _).trans (dropSuffix_starts _ _).isInfix))
    (beforeComment_beforeComment line)

theorem commentless_concat {p : List Char} {v : Char} (h : beforeComment p = p) (hv : v ≠ '/') :
    Commentless (p ++ [v]) := by
  intro cs
  rw [List.append_assoc, List.singleton_append,
    beforeComment_append_of_head h (by simpa using hv), beforeComment_cons, if_neg fun hslash => hv hslash.1,
    List.append_assoc]
  rfl

/-- A declaration with a character that is of its value only is one by what stands in front of it. -/
theorem declares?_behind_iff {p rest : List Char} {c : Char} (hword : isWord c = false)
    (hblank : isBlank c = false) (hequals : c ≠ '=') {name : String} {type : ValueType} :
    Script.declares? (p ++ c :: rest) = some (name, type) ↔
      ∃ constant front g, NamedText constant type name.toList front ∧ (∀ c ∈ g, isBlank c = true) ∧
        front ++ (g ++ ['=']) <+: p := by
  constructor
  · intro h
    obtain ⟨d, hd, heq⟩ := Option.map_eq_some_iff.1 h
    cases heq
    obtain ⟨front, g, value, hfront, hg, htext, -, -⟩ := exists_declarationText hd
    refine ⟨d.constant, front, g, hfront, hg, ?_⟩
    have hwhole : front ++ (g ++ ['=']) <+: p ++ c :: rest :=
      ⟨value, by rw [htext]; simp only [List.append_assoc, List.cons_append, List.nil_append]⟩
    refine prefix_of_prefix_append hwhole fun d hd => ?_
    cases hd
    simp only [List.mem_append, List.mem_singleton, not_or]
    refine ⟨hfront.not_mem hword hblank, fun h => ?_, hequals⟩
    rw [hg _ h] at hblank
    cases hblank
  · rintro ⟨constant, front, g, hfront, hg, more, rfl⟩
    have hvalue : trimStart (more ++ c :: rest) ≠ [] := by
      obtain ⟨zs, hzs⟩ := exists_trimStart_append (v := c) hblank more rest
      rw [hzs]
      simp
    have hdeclaration := hfront.declaration?_append hg hvalue
    rw [Script.declares?]
    simp only [List.append_assoc, List.cons_append, List.nil_append, hdeclaration, Option.map_some,
      String.ofList_toList]

/-- Blanks in front of a parenthesis and what stands behind it declare nothing. -/
theorem declares?_gap {p gap rest rest' : List Char} (hgap : ∀ c ∈ gap, isBlank c = true) :
    Script.declares? (p ++ (gap ++ '(' :: rest)) = Script.declares? (p ++ '(' :: rest') := by
  refine Option.ext fun ⟨name, type⟩ => ?_
  rw [← List.append_assoc, declares?_behind_iff (by decide) (by decide) (by decide),
    declares?_behind_iff (by decide) (by decide) (by decide)]
  refine exists_congr fun constant => exists_congr fun front => exists_congr fun g =>
    and_congr_right fun _ => and_congr_right fun _ => ⟨fun h => ?_, fun h => ?_⟩
  · rw [← List.append_assoc] at h ⊢
    exact prefix_of_concat_isPrefix h fun hmem => absurd (hgap _ hmem) (by decide)
  · exact h.trans (List.prefix_append _ _)

/-- The beginning of a line stays up to a parenthesis, where no comment begins in front of it. -/
theorem statementOf_opening {ws p : List Char} (hws : ∀ c ∈ ws, isBlank c = true)
    (hfirst : ∀ c ∈ p.head?, isBlank c = false) (hcomment : beforeComment p = p) (rest : List Char) :
    ∃ tail, statementOf (ws ++ (p ++ '(' :: rest)) = p ++ '(' :: tail := by
  have hopening : ∀ c ∈ (p ++ ['(']).head?, isBlank c = false := by
    cases p with
    | nil =>
      rintro c hc
      cases hc
      decide
    | cons d p => exact hfirst
  obtain ⟨tail, htail⟩ := statementOf_behind hws hopening (commentless_concat hcomment (by decide))
    (by decide) (by decide) rest
  exact ⟨tail, by rw [← htail, List.append_assoc]; rfl⟩

/-! ## Arguments of a call -/

section

variable {cs ys : List Char}

theorem callInside_append (hopening : '(' ∉ cs) (hclosing : ')' ∉ cs) :
    callInside (cs ++ ')' :: ys) = cs := by
  suffices h : ∀ seen, callInside.go (cs ++ ')' :: ys) 0 seen = seen.reverse ++ cs from h []
  induction cs with
  | nil => exact fun seen => (List.append_nil _).symm
  | cons c cs ih =>
    rw [List.mem_cons, not_or] at hopening hclosing
    intro seen
    rw [List.cons_append, callInside.go, if_neg (Ne.symm hopening.1), if_neg (Ne.symm hclosing.1),
      ih hopening.2 hclosing.2, List.reverse_cons, List.append_assoc]
    rfl

/-- Of a text without parentheses the last character is left out. -/
theorem callInside_eq_dropLast (hopening : '(' ∉ cs) (hclosing : ')' ∉ cs) :
    callInside cs = cs.dropLast := by
  suffices h : ∀ seen, callInside.go cs 0 seen = ((cs.reverse ++ seen).drop 1).reverse by
    have hempty := h []
    rw [List.append_nil, List.drop_one, List.tail_reverse, List.reverse_reverse] at hempty
    exact hempty
  induction cs with
  | nil => exact fun seen => rfl
  | cons c cs ih =>
    rw [List.mem_cons, not_or] at hopening hclosing
    intro seen
    rw [callInside.go, if_neg (Ne.symm hopening.1), if_neg (Ne.symm hclosing.1),
      ih hopening.2 hclosing.2, List.reverse_cons, List.append_assoc]
    rfl

/-- A text without a comma is part of one argument. -/
theorem argPieces_go_append (h : ',' ∉ cs) (rest : List Char) (depth : Int) (piece : List Char)
    (done : List (List Char)) : argPieces.go (cs ++ rest) depth piece done =
      argPieces.go rest (cs.foldl bracketDepth depth) (cs.reverse ++ piece) done := by
  induction cs generalizing depth piece with
  | nil => rfl
  | cons c cs ih =>
    rw [List.mem_cons, not_or] at h
    rw [List.cons_append, argPieces.go, if_neg fun hcomma => h.1 hcomma.1.symm, ih h.2,
      List.reverse_cons, List.append_assoc]
    rfl

theorem argPieces_of_not_mem (h : ',' ∉ cs) : argPieces cs = [cs] := by
  have hgo := argPieces_go_append h [] 0 [] []
  rw [List.append_nil, List.append_nil] at hgo
  rw [argPieces, hgo, argPieces.go, List.reverse_reverse]
  rfl

/-- A single comma separates two arguments, or stands in brackets. -/
theorem argPieces_append_cons (hcs : ',' ∉ cs) (hys : ',' ∉ ys) :
    argPieces (cs ++ ',' :: ys) = [cs, ys] ∨ argPieces (cs ++ ',' :: ys) = [cs ++ ',' :: ys] := by
  rw [argPieces, argPieces_go_append hcs, argPieces.go, List.append_nil]
  split
  · left
    have hgo := argPieces_go_append hys [] (cs.foldl bracketDepth 0) [] [cs]
    rw [List.append_nil, List.append_nil] at hgo
    rw [List.reverse_reverse, hgo, argPieces.go, List.reverse_reverse]
    rfl
  · right
    have hgo := argPieces_go_append hys [] (bracketDepth (cs.foldl bracketDepth 0) ',')
      (',' :: cs.reverse) []
    rw [List.append_nil] at hgo
    rw [hgo, argPieces.go]
    simp

theorem splitArgs_isPrefix (cs : List Char) : splitArgs cs <+: (argPieces cs).map trim := by
  unfold splitArgs
  dsimp only
  split
  · exact List.dropLast_prefix _
  · exact List.prefix_rfl

theorem getElem?_of_isPrefix {α : Type} {xs ys : List α} (h : xs <+: ys) {k : Nat} {a : α}
    (ha : xs[k]? = some a) : ys[k]? = some a := by
  obtain ⟨more, rfl⟩ := h
  rw [List.getElem?_append_left (List.getElem?_eq_some_iff.1 ha).1, ha]

end

/-- A cast as a value has its target behind its last comma. -/
theorem exists_of_castParts? {cs inner : List Char} {t : String}
    (h : castParts? cs = some (inner, t)) :
    ∃ g inside last piece pieces word behind, (∀ c ∈ g, isBlank c = true) ∧
      cs = "cast".toList ++ (g ++ '(' :: (inside ++ [')'])) ∧
      (splitOn ',' inside).reverse = last :: piece :: pieces ∧
      word? (trimStart last) = some (word, behind) ∧ t = String.ofList word ∧
      inner = [','].intercalate (piece :: pieces).reverse := by
  unfold castParts? at h
  obtain ⟨behindParen, hopen, h⟩ := Option.bind_eq_some_iff.1 h
  obtain ⟨behindName, hname, hparen⟩ := Option.bind_eq_some_iff.1 hopen
  obtain ⟨rest, hcast, rfl⟩ := Option.map_eq_some_iff.1 hname
  obtain ⟨⟨⟩, hlast, h⟩ := Option.bind_eq_some_iff.1 h
  split at h
  · next last piece pieces hpieces =>
    simp only [Option.bind_eq_bind, Option.bind_eq_some_iff, Option.pure_def, Option.some.injEq,
      Prod.mk.injEq, Prod.exists] at h
    obtain ⟨-, -, word, behind, hword, -, -, rfl, rfl⟩ := h
    obtain ⟨g, hg, hrest⟩ := exists_trimStart rest
    have hinside : behindParen = behindParen.dropLast ++ [')'] :=
      (List.dropLast_append_getLast? ')' (by simpa using hlast)).symm
    refine ⟨g, behindParen.dropLast, last, piece, pieces, word, behind, hg, ?_, hpieces, hword, rfl, rfl⟩
    rw [← List.append_eq_of_isPrefixOf?_eq_some hcast, ← hinside, hrest,
      ← List.append_eq_of_isPrefixOf?_eq_some hparen]
    simp
  · cases h

theorem not_mem_of_castParts? {cs inner : List Char} {t : String} {c : Char} (hcs : c ∉ cs)
    (hcomma : c ≠ ',') (h : castParts? cs = some (inner, t)) : c ∉ inner := by
  obtain ⟨g, inside, last, piece, pieces, _, _, -, rfl, hpieces, -, -, rfl⟩ := exists_of_castParts? h
  refine not_mem_intercalate (by simpa using hcomma) fun p hp hc => hcs ?_
  have hmem : p ∈ splitOn ',' inside := by
    rw [← List.mem_reverse, hpieces]
    exact List.mem_cons_of_mem _ (List.mem_reverse.1 hp)
  have hinside := (infix_of_mem_splitOn hmem).subset hc
  simp [hinside]

/-! ## The target of a cast -/

/-- Behind a parenthesis stands no comma, or one, and the target between it and the closing
parenthesis. -/
inductive SecondIs (target : List Char) : List Char → Prop
  | none {rest : List Char} (comma : ',' ∉ rest) (opening : '(' ∉ rest) (closing : ')' ∉ rest) :
      SecondIs target rest
  | one {piece g g' behind : List Char} (comma : ',' ∉ piece) (blank : ∀ c ∈ g, isBlank c = true)
      (blank' : ∀ c ∈ g', isBlank c = true) (opening : '(' ∉ piece) (closing : ')' ∉ piece)
      (closing' : ')' ∉ behind) :
      SecondIs target (piece ++ ',' :: (g ++ (target ++ (g' ++ ')' :: behind))))

theorem secondIs_of_statement {front piece g target g' behind x rest : List Char}
    (hfront : '(' ∉ front) (hopening : '(' ∉ piece ++ ',' :: (g ++ (target ++ (g' ++ ')' :: behind))))
    (hcomma : ',' ∉ piece) (hpiece : ')' ∉ piece) (hbehind : ')' ∉ behind) (hslash : '/' ∉ target)
    (hg : ∀ c ∈ g, isBlank c = true) (hg' : ∀ c ∈ g', isBlank c = true)
    (h : statementOf (front ++ '(' :: (piece ++ ',' :: (g ++ (target ++ (g' ++ ')' :: behind))))) =
      x ++ '(' :: rest) : SecondIs target rest := by
  obtain ⟨ws, stripped, comment, hline, -, hstripped, hcomment⟩ := exists_around_statementOf
    (front ++ '(' :: (piece ++ ',' :: (g ++ (target ++ (g' ++ ')' :: behind)))))
  rw [h, List.append_assoc, ← List.append_assoc ws, List.cons_append] at hline
  obtain ⟨-, -, hrest⟩ := (List.append_cons_inj_of_notMem hfront hopening).1 hline
  have hnone : ∀ more, piece = rest ++ more → SecondIs target rest := by
    rintro more rfl
    exact .none (fun h => hcomma (List.mem_append_left _ h))
      (fun h => hopening (by simp [h])) (fun h => hpiece (List.mem_append_left _ h))
  rcases List.append_eq_append_iff.1 hrest with ⟨more, rfl, hmore⟩ | ⟨more, hmore, -⟩
  · cases more with
    | nil => exact hnone [] (by simp)
    | cons c t =>
      rw [List.cons_append, List.cons.injEq] at hmore
      obtain ⟨rfl, hmore⟩ := hmore
      -- neither a comment nor what is trimmed begins before the closing parenthesis
      have hkeep : g ++ (target ++ g') ++ [')'] <+: t := by
        have hwhole : g ++ (target ++ g') ++ [')'] <+: t ++ stripped ++ comment := by
          refine ⟨behind, ?_⟩
          rw [List.append_assoc t, ← hmore]
          simp only [List.append_assoc, List.singleton_append]
        refine prefix_of_concat_isPrefix (prefix_of_prefix_append hwhole fun d hd => ?_) fun hmem => ?_
        · obtain rfl := hcomment d hd
          simp only [List.mem_append, not_or]
          exact ⟨⟨fun h => absurd (hg _ h) (by decide), hslash,
            fun h => absurd (hg' _ h) (by decide)⟩, by decide⟩
        · rcases hstripped _ hmem with h | h
          · exact absurd h (by decide)
          · cases h
      obtain ⟨behind', rfl⟩ := hkeep
      have hclosing : ')' ∉ behind' := by
        simp only [List.append_assoc, List.cons_append, List.nil_append, List.append_cancel_left_eq,
          List.cons.injEq, true_and] at hmore
        rw [hmore] at hbehind
        exact fun h => hbehind (List.mem_append_left _ h)
      have hone : SecondIs target (piece ++ ',' :: (g ++ (target ++ (g' ++ ')' :: behind')))) :=
        .one hcomma hg hg' (fun h => hopening (List.mem_append_left _ h)) hpiece hclosing
      simpa only [List.append_assoc, List.singleton_append] using hone
  · exact hnone more hmore

theorem trim_of_word {g target g' : List Char} (hg : ∀ c ∈ g, isBlank c = true)
    (hg' : ∀ c ∈ g', isBlank c = true) (hword : ∀ c ∈ target, isWord c = true) (hne : target ≠ []) :
    trim (g ++ (target ++ g')) = target := by
  obtain ⟨c, rest, hcons⟩ := List.exists_cons_of_ne_nil hne
  have hlast : ∀ d ∈ target.getLast?, isBlank d = false :=
    fun d hd => isBlank_of_isWord (hword d (List.mem_of_getLast? hd))
  have hstart : trimStart (target ++ g') = target ++ g' := by
    rw [hcons, List.cons_append]
    exact trimStart_cons (isBlank_of_isWord (hword c (by rw [hcons]; exact List.mem_cons_self))) _
  rw [trim, trimStart_blanks_append hg, hstart, trimEnd_append hlast, trimEnd_blanks hg',
    List.append_nil]

section

variable {target rest : List Char} (h : SecondIs target rest) (hword : ∀ c ∈ target, isWord c = true)
  (hne : target ≠ [])
include h hword hne

/-- A call that begins there has the target as its second argument, if it has one. -/
theorem SecondIs.second {arg : List Char} (harg : (splitArgs (callInside rest))[1]? = some arg) :
    arg = target := by
  have hpieces := getElem?_of_isPrefix (splitArgs_isPrefix _) harg
  cases h with
  | none comma opening closing =>
    rw [callInside_eq_dropLast opening closing,
      argPieces_of_not_mem fun h => comma (List.dropLast_subset _ h)] at hpieces
    cases hpieces
  | @one piece g g' behind comma blank blank' opening closing closing' =>
    have hfree : ∀ {c : Char}, isWord c = false → isBlank c = false → c ∉ g ++ (target ++ g') := by
      intro c hc hblank
      simp only [List.mem_append, not_or]
      refine ⟨fun h => ?_, fun h => ?_, fun h => ?_⟩
      · rw [blank c h] at hblank; cases hblank
      · rw [hword c h] at hc; cases hc
      · rw [blank' c h] at hblank; cases hblank
    have hinside : callInside (piece ++ ',' :: (g ++ (target ++ (g' ++ ')' :: behind)))) =
        piece ++ ',' :: (g ++ (target ++ g')) := by
      have hopening : '(' ∉ piece ++ ',' :: (g ++ (target ++ g')) := by
        simp only [List.mem_append, List.mem_cons, not_or]
        exact ⟨opening, by decide, by simpa using hfree (c := '(') (by decide) (by decide)⟩
      have hclosing : ')' ∉ piece ++ ',' :: (g ++ (target ++ g')) := by
        simp only [List.mem_append, List.mem_cons, not_or]
        exact ⟨closing, by decide, by simpa using hfree (c := ')') (by decide) (by decide)⟩
      simpa only [List.append_assoc, List.cons_append] using callInside_append hopening hclosing
    rw [hinside] at hpieces
    rcases argPieces_append_cons comma (hfree (c := ',') (by decide) (by decide)) with hargs | hargs
    · rw [hargs] at hpieces
      cases hpieces
      exact trim_of_word blank blank' hword hne
    · rw [hargs] at hpieces
      cases hpieces

/-- Up to a closing parenthesis at the end, the target is the word behind the last comma. -/
theorem SecondIs.last {inside last piece word behind : List Char} {pieces : List (List Char)}
    (hrest : rest = inside ++ [')']) (hpieces : (splitOn ',' inside).reverse = last :: piece :: pieces)
    (hlast : word? (trimStart last) = some (word, behind)) : word = target := by
  cases h with
  | none comma opening closing =>
    rw [hrest] at closing
    exact absurd (List.mem_append_right _ List.mem_cons_self) closing
  | @one piece' g g' behind' comma blank blank' opening closing closing' =>
    have hnil : behind' = [] := by
      rcases List.eq_nil_or_concat behind' with hnil | ⟨b, d, rfl⟩
      · exact hnil
      · have hend := congrArg List.getLast? hrest
        simp only [List.getLast?_append, List.concat_eq_append, List.getLast?_cons,
          Option.some_or, Option.getD_some, Option.some.injEq] at hend
        subst hend
        exact absurd (by simp) closing'
    subst hnil
    have hinside : inside = piece' ++ ',' :: (g ++ (target ++ g')) := by
      have hsplit : piece' ++ ',' :: (g ++ (target ++ g')) ++ [')'] = inside ++ [')'] := by
        rw [← hrest]
        simp only [List.append_assoc, List.cons_append]
      exact (List.append_left_inj _).1 hsplit.symm
    have hfree : ',' ∉ g ++ (target ++ g') := by
      simp only [List.mem_append, not_or]
      exact ⟨fun h => absurd (blank _ h) (by decide), fun h => absurd (hword _ h) (by decide),
        fun h => absurd (blank' _ h) (by decide)⟩
    rw [hinside, splitOn_append_cons comma, splitOn_of_not_mem hfree] at hpieces
    cases hpieces
    obtain ⟨c, w, hcons⟩ := List.exists_cons_of_ne_nil hne
    have hstart : trimStart (g ++ (target ++ g')) = target ++ g' := by
      rw [trimStart_blanks_append blank, hcons]
      exact trimStart_cons (isBlank_of_isWord (hword c (by rw [hcons]; exact List.mem_cons_self))) _
    have hends : ∀ c ∈ g'.head?, isWord c = false :=
      fun c hc => isWord_of_isBlank (blank' c (List.mem_of_head? hc))
    rw [hstart, word?_append hword hends hne] at hlast
    cases hlast
    rfl

end

/-- All casts of a statement are to a type. Then none is to a name that is no type; and none is to
another type than the declared one, if this is the type. -/
theorem silent_target [Build] {t : Topic} {statement : List Char} {type : ValueType}
    (hend : ∀ c ∈ statement.getLast?, isBlank c = false)
    (hsecond : ∀ x rest, statement = x ++ '(' :: rest → SecondIs type.text.toList rest)
    (ht : t = .invalidTarget ∨
      t = .castMismatch ∧ ∀ d, declaration? statement = some d → d.type = type)
    (symbols : Symbols) : Silent t symbols statement := by
  obtain ⟨hword, hne⟩ := isWord_text type
  have hopening : ∀ {declared cs}, Walk.Expression statement declared cs →
      ∀ x rest, cs = x ++ '(' :: rest → SecondIs type.text.toList rest := by
    rintro declared cs hchecked x rest rfl
    obtain ⟨before, hbefore⟩ := suffix_of_expression hchecked hend
    exact hsecond (before ++ x) rest (by rw [← hbefore, List.append_assoc])
  have htype : String.ofList type.text.toList = type.text := String.ofList_toList
  refine silent_of_checks (.inr ?_) (fun d hform c hc htopic => ?_)
    fun declared cs hchecked number c hc htopic => ?_
  · rcases ht with rfl | ⟨rfl, -⟩ <;> rfl
  · rcases mem_numberComplaints_cases hc with ⟨rfl, -⟩ | ⟨-, ⟨rfl, -⟩ | ⟨rfl, -⟩ | ⟨rfl, -⟩⟩ |
      ⟨inner, target, hparts, htarget⟩
    · rcases ht with rfl | ⟨rfl, -⟩ <;> cases htopic
    · rcases ht with rfl | ⟨rfl, -⟩ <;> cases htopic
    · rcases ht with rfl | ⟨rfl, -⟩ <;> cases htopic
    · rcases ht with rfl | ⟨rfl, -⟩ <;> cases htopic
    · obtain ⟨g, inside, last, piece, pieces, word, behind, -, hvalue, hpieces, hlast, rfl, -⟩ :=
        exists_of_castParts? hparts
      rw [← List.append_assoc] at hvalue
      rw [(hopening (.value hform) _ _ hvalue).last hword hne rfl hpieces hlast, htype] at htarget
      obtain ⟨-, hnone⟩ | ⟨_, rfl, htype, hother⟩ := targetComplaint?_cases htarget
      · rw [ValueType.ofText?_text] at hnone
        cases hnone
      · cases (ValueType.ofText?_text type).symm.trans htype
        rcases ht with rfl | ⟨rfl, hdeclared⟩
        · cases htopic
        · exact hother (hdeclared d (declaration?_of_lineForm hform)).symm
  · obtain ⟨call, hcall, declared', complaint, rfl, hdeclared', hground⟩ := exists_ground_of_mem hc
    cases hground with
    | unknown => rcases ht with rfl | ⟨rfl, -⟩ <;> cases htopic
    | arity _ wrong =>
      rcases arityComplaint?_cases wrong with ⟨rfl, -⟩ | ⟨_, rfl, -⟩ <;>
        rcases ht with rfl | ⟨rfl, -⟩ <;> cases htopic
    | target name second wrong =>
      obtain ⟨before, w, g, rest, hcs, -, -, -, -, hargs⟩ := exists_of_mem_calls hcall
      rw [hargs] at second
      rw [← List.append_assoc w, ← List.append_assoc before] at hcs
      rw [(hopening hchecked _ _ hcs).second hword hne second, htype] at wrong
      obtain ⟨-, hnone⟩ | ⟨_, expected, rfl, htype, hexpected, -, hother⟩ := castComplaint?_cases wrong
      · rw [ValueType.ofText?_text] at hnone
        cases hnone
      · cases (ValueType.ofText?_text type).symm.trans htype
        rcases ht with rfl | ⟨rfl, hdeclared⟩
        · cases htopic
        · have hvalue := hdeclared' _ hexpected
          cases hchecked with
          | @value d form =>
            cases hvalue
            exact hother (hdeclared d (declaration?_of_lineForm form)).symm
          | call => cases hvalue
          | assigned => cases hvalue
    | args _ _ mem =>
      obtain ⟨_, _, -, ⟨rfl, -⟩ | ⟨rfl, -⟩⟩ := argsComplaint?_cases (Option.mem_toList.1 mem) <;>
        rcases ht with rfl | ⟨rfl, -⟩ <;> cases htopic
    | result => rcases ht with rfl | ⟨rfl, -⟩ <;> cases htopic

/-- A change behind a parenthesis leaves the declared type. -/
theorem type_eq_of_declaration? {front rest rest' : List Char} {d d' : Declaration}
    (hd : declaration? (statementOf (front ++ '(' :: rest)) = some d)
    (hd' : declaration? (statementOf (front ++ '(' :: rest')) = some d') : d'.type = d.type := by
  obtain ⟨ws, named, g, value, hws, hnamed, hg, hline, -⟩ := exists_rawDeclaration hd
  have hopening : '(' ∉ ws ++ named := by
    rw [List.mem_append, not_or]
    exact ⟨fun h => absurd (hws _ h) (by decide), hnamed.not_mem (by decide) (by decide)⟩
  have hprefix : ws ++ named <+: front := by
    have hwhole : ws ++ named <+: front ++ '(' :: rest :=
      ⟨g ++ '=' :: value, by rw [hline, List.append_assoc]⟩
    refine prefix_of_prefix_append hwhole fun c hc => ?_
    cases hc
    exact hopening
  obtain ⟨more, rfl⟩ := hprefix
  obtain ⟨named', _, _, hnamed', -, htext, -⟩ := exists_declarationText hd'
  cases hnamed with
  | mk head_text =>
    cases hnamed' with
    | mk head_text' =>
      simp only [List.append_assoc] at htext
      exact (head_of_statementOf hws head_text head_text' htext).1

/-- A line with one pair of parentheses whose cast gets another target. -/
theorem silent_retarget [Build] {t : Topic} {old line : List Char} {type : ValueType}
    (hopening : line.count '(' ≤ 1) (hclosing : line.count ')' ≤ 1)
    (hchanged : LineChange.retarget old type.text.toList line ≠ line)
    (ht : t = .invalidTarget ∨
      t = .castMismatch ∧ ∃ d, declaration? (statementOf line) = some d ∧ d.type = type)
    (symbols : Symbols) : Silent t symbols (statementOf (LineChange.retarget old type.text.toList line)) := by
  obtain ⟨front, piece, g, g', behind, -, hcomma, hg, hg', hline, hnew⟩ :=
    LineChange.exists_of_retarget hchanged
  rw [hline] at hopening hclosing ht
  have hcut : front ++ '(' :: (piece ++ ',' :: (g ++ (old ++ (g' ++ ')' :: behind)))) =
      (front ++ '(' :: (piece ++ ',' :: (g ++ (old ++ g')))) ++ ')' :: behind := by
    simp only [List.append_assoc, List.cons_append]
  obtain ⟨hfront, hrest⟩ := not_mem_of_count_le hopening
  rw [hcut] at hclosing
  obtain ⟨hinside, hbehind⟩ := not_mem_of_count_le hclosing
  obtain ⟨hword, -⟩ := isWord_text type
  rw [hnew]
  have hsecond : ∀ x rest, statementOf (front ++ '(' :: (piece ++ ',' :: (g ++ (type.text.toList ++
      (g' ++ ')' :: behind))))) = x ++ '(' :: rest → SecondIs type.text.toList rest := by
    intro x rest h
    refine secondIs_of_statement hfront ?_ hcomma (fun h => hinside (by simp [h])) hbehind
      (fun h => absurd (hword _ h) (by decide)) hg hg' h
    simp only [List.mem_append, List.mem_cons, not_or] at hrest ⊢
    exact ⟨hrest.1, hrest.2.1, hrest.2.2.1, fun h => absurd (hword _ h) (by decide),
      hrest.2.2.2.2⟩
  refine silent_target (getLast?_statementOf _) hsecond ?_ symbols
  rcases ht with ht | ⟨ht, d, hd, rfl⟩
  · exact .inl ht
  · exact .inr ⟨ht, fun d' hd' => type_eq_of_declaration? hd hd'⟩

end Check

end EvlCheck
