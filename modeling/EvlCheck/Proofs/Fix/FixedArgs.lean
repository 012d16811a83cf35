/-
What validation makes of a line in which a fix cast all arguments of a call. The message on mixed types
quotes the arguments. On a line with one pair of parentheses the first of them has no parenthesis, while
behind the fix the first argument of every call but the casts is a cast. So no finding has the message any
more, whatever the casts do to the types.
-/
import EvlCheck.Proofs.Check.TypesUsed
import EvlCheck.Proofs.Fix.FixedCall
import EvlCheck.Proofs.Fix.Spot

namespace EvlCheck

open Text Check

/-! ## Casts as arguments -/

theorem Text.forall_getLast?_append {p : Char → Prop} {xs ys : List Char}
    (hxs : ∀ d ∈ xs.getLast?, p d) (hys : ∀ d ∈ ys.getLast?, p d) : ∀ d ∈ (xs ++ ys).getLast?, p d := by
  intro d hd
  rw [List.getLast?_append, Option.mem_def, Option.or_eq_some_iff] at hd
  rcases hd with hd | ⟨-, hd⟩
  · exact hys d hd
  · exact hxs d hd

namespace LineChange

theorem exists_of_argsAfter? {name cs args rest : List Char}
    (h : argsAfter? name cs = some (args, rest)) :
    ∃ g, (∀ c ∈ g, isBlank c = true) ∧ ')' ∉ args ∧ cs = name ++ (g ++ '(' :: (args ++ ')' :: rest)) := by
  unfold argsAfter? at h
  simp only [Option.bind_eq_bind, Option.bind_eq_some_iff, Option.pure_def, Option.some.injEq,
    Prod.mk.injEq, Prod.exists] at h
  obtain ⟨behind, hname, inside, hopen, _, closed, hclosed, rfl, rfl⟩ := h
  obtain ⟨rest, rfl, rfl, hfree⟩ := exists_of_upTo? hclosed
  obtain ⟨g, hg, rfl⟩ := exists_of_afterBlanks? hopen
  exact ⟨g, hg, hfree, (List.append_eq_of_isPrefixOf?_eq_some hname).symm⟩

/-- An argument without a parenthesis is no cast yet. -/
theorem castArg_of_not_mem {arg : List Char} (h : '(' ∉ arg) (target : String) :
    castArg target arg = castText (trim arg) target := by
  unfold castArg
  dsimp only
  rw [if_neg]
  intro hcast
  obtain ⟨behind, hbehind⟩ := Option.isSome_iff_exists.1 hcast
  obtain ⟨rest, hword, hopen⟩ := Option.bind_eq_some_iff.1 hbehind
  obtain ⟨g, -, rfl⟩ := exists_of_afterBlanks? hopen
  have hmem : '(' ∈ trim arg := by
    rw [← List.append_eq_of_isPrefixOf?_eq_some hword]
    simp
  obtain ⟨_, _, -, -, harg⟩ := exists_trim arg
  exact h (harg ▸ List.mem_append_right _ (List.mem_append_left _ hmem))

/-- The casts of arguments, with commas between. -/
def casts (target : String) (args : List (List Char)) : List Char :=
  ", ".toList.intercalate (args.map (castText · target))

section

variable {target : String} {args : List (List Char)}

theorem castText_eq (arg : List Char) (target : String) : castText arg target =
    "cast".toList ++ '(' :: (arg ++ (", ".toList ++ (target.toList ++ [')']))) := by
  have hcast : "cast(".toList = "cast".toList ++ ['('] := rfl
  unfold castText
  rw [hcast]
  simp only [List.append_assoc, List.cons_append, List.nil_append]

theorem casts_singleton (arg : List Char) : casts target [arg] = castText arg target := by
  rw [casts, List.map_singleton, List.intercalate_singleton]

theorem casts_cons (arg other : List Char) (args : List (List Char)) :
    casts target (arg :: other :: args) =
      castText arg target ++ (", ".toList ++ casts target (other :: args)) := by
  rw [casts, casts, List.map_cons, List.map_cons, List.intercalate_cons_cons, List.append_assoc]

theorem exists_casts (target : String) (arg : List Char) (args : List (List Char)) :
    ∃ rest, casts target (arg :: args) = "cast".toList ++ '(' :: rest := by
  cases args with
  | nil =>
    rw [casts_singleton, castText_eq]
    exact ⟨_, rfl⟩
  | cons other args =>
    rw [casts_cons, castText_eq, List.append_assoc, List.cons_append]
    exact ⟨_, rfl⟩

/-- In casts of texts without a parenthesis, every parenthesis stands behind the word `cast`. -/
theorem cast_before_paren (htarget : '(' ∉ target.toList) (hargs : ∀ arg ∈ args, '(' ∉ arg)
    {x y : List Char} (h : casts target args = x ++ '(' :: y) :
    ∃ u, x = u ++ "cast".toList ∧ ∀ d ∈ u.getLast?, isWord d = false := by
  have hcast : '(' ∉ "cast".toList := by decide
  have hcomma : '(' ∉ ", ".toList := by decide
  induction args generalizing x with
  | nil =>
    have hlength := congrArg List.length h
    rw [List.length_append, List.length_cons] at hlength
    exact absurd hlength.symm (Nat.succ_ne_zero _)
  | cons arg args ih =>
    obtain ⟨harg, hargs⟩ := List.forall_mem_cons.1 hargs
    have hrest : '(' ∉ arg ++ (", ".toList ++ (target.toList ++ [')'])) := by
      simp only [List.mem_append, not_or]
      exact ⟨harg, hcomma, htarget, by decide⟩
    cases args with
    | nil =>
      rw [casts_singleton, castText_eq] at h
      obtain ⟨rfl, -, -⟩ := (List.append_cons_inj_of_notMem hcast hrest).1 h
      exact ⟨[], rfl, nofun⟩
    | cons other args =>
      rw [casts_cons, castText_eq, List.append_assoc, List.cons_append] at h
      rcases List.append_eq_append_iff.1 h with ⟨more, rfl, hmore⟩ | ⟨more, hmore, hparen⟩
      · cases more with
        | nil => exact ⟨[], List.append_nil _, nofun⟩
        | cons e more =>
          rw [List.cons_append, List.cons.injEq] at hmore
          obtain ⟨rfl, hmore⟩ := hmore
          have hkeep : arg ++ (", ".toList ++ (target.toList ++ [')'])) ++ ", ".toList <+: more := by
            have hwhole : arg ++ (", ".toList ++ (target.toList ++ [')'])) ++ ", ".toList <+: more ++ '(' :: y :=
              ⟨casts target (other :: args), by rw [← hmore, List.append_assoc]⟩
            refine prefix_of_prefix_append hwhole fun d hd => ?_
            cases hd
            rw [List.mem_append, not_or]
            exact ⟨hrest, hcomma⟩
          obtain ⟨more, rfl⟩ := hkeep
          rw [← List.append_assoc, List.append_assoc _ more] at hmore
          obtain ⟨u, rfl, hu⟩ := ih hargs (List.append_cancel_left hmore)
          refine ⟨"cast".toList ++ '(' :: (arg ++ (", ".toList ++ (target.toList ++ [')']))) ++
            ", ".toList ++ u, ?_, ?_⟩
          · simp only [List.append_assoc, List.cons_append]
          · refine forall_getLast?_append (fun d hd => ?_) hu
            rw [List.getLast?_append, show ", ".toList.getLast? = some ' ' from rfl] at hd
            cases hd
            decide
      · -- the parenthesis of this cast, or one in its word
        cases more with
        | nil =>
          rw [List.append_nil] at hmore
          exact ⟨[], hmore.symm, nofun⟩
        | cons e more =>
          cases hparen
          exact absurd (hmore ▸ List.mem_append_right _ List.mem_cons_self) hcast

end

/-- The call whose arguments get casts; its parentheses end at the first that closes. -/
theorem exists_call_of_castArgs? {name line text : List Char} {target : String}
    (h : castArgs? name target line = some text) :
    ∃ before gap inside behind, (∀ c ∈ gap, isBlank c = true) ∧ ')' ∉ inside ∧
      line = before ++ name ++ (gap ++ '(' :: (inside ++ ')' :: behind)) ∧
      text = before ++ name ++
        '(' :: (", ".toList.intercalate ((splitOn ',' inside).map (castArg target)) ++ ')' :: behind) := by
  obtain ⟨⟨args, rest⟩, hfind, rfl⟩ := Option.map_eq_some_iff.1 h
  dsimp only
  obtain ⟨before, part, rfl, hpart, hnew⟩ := replaceFirst_of_findFirst?
    (fun found => (name ++ '(' :: ", ".toList.intercalate ((splitOn ',' args).map (castArg target)) ++ [')'],
      found.2)) hfind
  obtain ⟨g, hg, hclosed, rfl⟩ := exists_of_argsAfter? hpart
  refine ⟨before, g, args, rest, hg, hclosed, (List.append_assoc ..).symm, hnew.trans ?_⟩
  simp only [List.append_assoc, List.cons_append, List.nil_append]

/-- A line with one pair of parentheses in which a call got casts as arguments. -/
theorem exists_of_castArgs? {name line text : List Char} {target : String}
    (h : castArgs? name target line = some text) (hopening : line.count '(' ≤ 1) :
    ∃ before gap inside behind arg args, (∀ c ∈ gap, isBlank c = true) ∧
      line = before ++ name ++ (gap ++ '(' :: (inside ++ ')' :: behind)) ∧
      text = before ++ name ++ '(' :: (casts target (arg :: args) ++ ')' :: behind) ∧
      ∀ a ∈ arg :: args, a <:+: line ∧ '(' ∉ a := by
  obtain ⟨before, gap, inside, behind, hgap, -, rfl, rfl⟩ := exists_call_of_castArgs? h
  have hinside : '(' ∉ inside := by
    rw [← List.append_assoc] at hopening
    exact fun hmem => (not_mem_of_count_le hopening).2 (List.mem_append_left _ hmem)
  have hpieces : ∀ piece ∈ splitOn ',' inside, piece <:+: inside := fun _ => infix_of_mem_splitOn
  have hcasts : (splitOn ',' inside).map (castArg target) =
      ((splitOn ',' inside).map trim).map (castText · target) := by
    rw [List.map_map]
    exact List.map_congr_left fun piece hpiece =>
      castArg_of_not_mem (fun h => hinside ((hpieces piece hpiece).subset h)) target
  obtain ⟨arg, others, hsplit⟩ : ∃ arg others, (splitOn ',' inside).map trim = arg :: others := by
    refine List.exists_cons_of_length_pos ?_
    rw [List.length_map, length_splitOn]
    exact Nat.succ_pos _
  rw [hcasts, hsplit]
  refine ⟨before, gap, inside, behind, arg, others, hgap, rfl, rfl, ?_⟩
  rw [← hsplit, List.forall_mem_map]
  intro piece hpiece
  have hpart := (trim_isInfix piece).trans (hpieces piece hpiece)
  refine ⟨hpart.trans ⟨before ++ name ++ (gap ++ ['(']), ')' :: behind, ?_⟩, fun h => hinside (hpart.subset h)⟩
  simp only [List.append_assoc, List.cons_append, List.nil_append]

end LineChange

namespace Check

/-! ## The first argument -/

section

variable {cs arg : List Char}

/-- What stands up to the closing parenthesis begins with what was passed. -/
theorem callInside_go_isPrefix (depth : Nat) (seen : List Char) (hne : cs ≠ []) :
    seen.reverse <+: callInside.go cs depth seen := by
  induction cs generalizing depth seen with
  | nil => exact absurd rfl hne
  | cons c cs ih =>
    have hpass : ∀ depth, seen.reverse <+: callInside.go cs depth (c :: seen) := by
      intro depth
      cases cs with
      | nil => exact List.prefix_rfl
      | cons d cs =>
        have hstart := ih depth (c :: seen) (List.cons_ne_nil _ _)
        rw [List.reverse_cons] at hstart
        exact (List.prefix_append _ _).trans hstart
    unfold callInside.go
    split
    · exact hpass _
    · split
      · split
        · exact List.prefix_rfl
        · exact hpass _
      · exact hpass _

/-- The first piece begins with what was passed. -/
theorem argPieces_go_eq (cs : List Char) (depth : Int) (piece : List Char) (done : List (List Char)) :
    ∃ more tail, argPieces.go cs depth piece done = done.reverse ++ (piece.reverse ++ more) :: tail := by
  induction cs generalizing depth piece done with
  | nil => exact ⟨[], [], by rw [argPieces.go, List.reverse_cons, List.append_nil]⟩
  | cons c cs ih =>
    rw [argPieces.go]
    split
    · obtain ⟨more, tail, h⟩ := ih depth [] (piece.reverse :: done)
      exact ⟨[], more :: tail, by
        rw [h, List.reverse_cons, List.append_assoc, List.append_nil]
        rfl⟩
    · obtain ⟨more, tail, h⟩ := ih (bracketDepth depth c) (c :: piece) done
      exact ⟨c :: more, tail, by
        rw [h, List.reverse_cons, List.append_assoc]
        rfl⟩

/-- Of arguments that begin with a cast the first one does, if there are two. -/
theorem exists_cast_of_args {rest tail other : List Char} {more : List (List Char)}
    (h : "cast".toList ++ ['('] <+: rest ++ tail)
    (hargs : splitArgs (callInside rest) = arg :: other :: more) :
    ∃ behind, arg = "cast".toList ++ '(' :: behind := by
  obtain ⟨r, hr⟩ : "cast".toList ++ ['('] <+: rest := by
    refine (List.prefix_or_prefix_of_prefix h (List.prefix_append rest tail)).resolve_right fun hshort => ?_
    -- too short for two arguments
    have hall : ∀ p ∈ ("cast".toList ++ ['(']).inits, (splitArgs (callInside p)).length ≤ 1 := by
      decide +kernel
    have hlength := hall rest ((List.mem_inits _ _).2 hshort)
    rw [hargs] at hlength
    simp at hlength
  have hne : r ≠ [] := by
    rintro rfl
    rw [← hr] at hargs
    have hnone : (splitArgs (callInside ("cast".toList ++ ['('] ++ []))).length = 1 := by
      decide +kernel
    rw [hargs] at hnone
    simp at hnone
  obtain ⟨inside, hinside⟩ : "cast".toList ++ ['('] <+: callInside rest := by
    rw [← hr]
    exact callInside_go_isPrefix 1 ("cast".toList ++ ['(']).reverse hne
  have hcast : ',' ∉ "cast".toList ++ ['('] := by decide
  have hpieces := argPieces_go_append hcast inside 0 [] []
  obtain ⟨piece, others, hgo⟩ := argPieces_go_eq inside
    (("cast".toList ++ ['(']).foldl bracketDepth 0) (("cast".toList ++ ['(']).reverse ++ []) []
  rw [hgo, hinside, List.append_nil, List.reverse_reverse] at hpieces
  have hfirst := splitArgs_isPrefix (callInside rest)
  rw [hargs, argPieces, hpieces, List.reverse_nil, List.nil_append, List.map_cons,
    List.cons_prefix_cons] at hfirst
  refine ⟨trimEnd piece, ?_⟩
  have hlast : ∀ c ∈ ("cast".toList ++ ['(']).getLast?, isBlank c = false := by rintro c ⟨⟩; decide
  rw [hfirst.1, trim, List.append_assoc]
  exact trimEnd_append hlast piece

end

/-- A call with two arguments or more stands in the text. -/
structure CallWith (cs : List Char) (name : String) (before g rest : List Char) (arg : List Char) :
    Prop where
  text_eq : cs = before ++ (g ++ '(' :: rest)
  blank : ∀ c ∈ g, isBlank c = true
  name_suffix : name.toList <:+ before
  name_word : ∀ c ∈ name.toList, isWord c = true
  name_ne : name.toList ≠ []
  args_eq : ∃ other more, splitArgs (callInside rest) = arg :: other :: more

/-- A complaint on mixed types is about a function other than `cast` that is called with two arguments
or more. -/
theorem exists_of_mixedTypes [Build] {symbols : Symbols} {w : Walk} {number : Nat}
    {statement : List Char} {name : String} {args : List (String × Option ValueType)}
    (hend : ∀ c ∈ statement.getLast?, isBlank c = false)
    (h : .call (.mixedTypes name args) ∈ w.complaints symbols number statement) :
    ∃ before g rest arg type others, CallWith statement name before g rest arg ∧
      args = (String.ofList arg, type) :: others ∧ (Signature.find? name).isSome = true ∧
      name ≠ "cast" := by
  obtain ⟨declared, cs, checked, mem⟩ := Walk.exists_expression h rfl rfl
  obtain ⟨x, hx⟩ := suffix_of_expression checked hend
  obtain ⟨call, hcall, _, _, ⟨⟩, -, hground⟩ := exists_ground_of_mem mem
  cases hground with
  | arity _ wrong => obtain ⟨⟨⟩, -⟩ | ⟨_, ⟨⟩, -⟩ := arityComplaint?_cases wrong
  | target _ _ wrong => obtain ⟨⟨⟩, -⟩ | ⟨_, _, ⟨⟩, -⟩ := castComplaint?_cases wrong
  | args find no_cast mem =>
    obtain ⟨before, word, g, rest, hcs, hword, hg, hname, hne, hargs⟩ := exists_of_mem_calls hcall
    obtain ⟨htwo, rfl⟩ := two_le_of_mixedTypes mem
    obtain ⟨_, _, -, ⟨⟨⟩, -⟩ | ⟨⟨⟩, -⟩⟩ := argsComplaint?_cases (Option.mem_toList.1 mem)
    rw [← Signature.find?_name find] at hname hne no_cast
    obtain ⟨arg, other, more, hcallArgs⟩ : ∃ arg other more, call.args = arg :: other :: more := by
      rcases hlist : call.args with - | ⟨arg, - | ⟨other, more⟩⟩
      · rw [hlist] at htwo
        cases htwo
      · rw [hlist] at htwo
        exact absurd htwo (Nat.lt_irrefl 1)
      · exact ⟨arg, other, more, rfl⟩
    refine ⟨x ++ (before ++ word), g, rest, arg, (infer symbols arg).1,
      ((other :: more).map String.ofList).zip (((other :: more).map (infer symbols)).map (·.1)),
      ⟨?_, hg, ?_, fun c hc => hword c (hname.subset hc), hne, ⟨other, more, hargs ▸ hcallArgs⟩⟩, ?_, ?_,
      no_cast⟩
    · rw [← hx, hcs]
      simp only [List.append_assoc]
    · rw [← List.append_assoc]
      exact hname.trans (List.suffix_append _ _)
    · rw [hcallArgs]
      rfl
    · rw [Signature.find?_name find, find]
      rfl

/-! ## The message -/

theorem exists_argsText (arg : String) (type : Option ValueType)
    (others : List (String × Option ValueType)) :
    ∃ rest, (CallComplaint.argsText ((arg, type) :: others)).toList =
      '\'' :: (arg.toList ++ "' ".toList ++ '(' :: rest) := by
  unfold CallComplaint.argsText
  rw [String.toList_intercalate, List.map_cons, List.map_cons]
  cases others with
  | nil =>
    rw [List.map_nil, List.map_nil, List.intercalate_singleton]
    simp only [String.toList_append, List.append_assoc]
    exact ⟨_, rfl⟩
  | cons other others =>
    rw [List.map_cons, List.map_cons, List.intercalate_cons_cons]
    simp only [String.toList_append, List.append_assoc]
    exact ⟨_, rfl⟩

/-- The message on mixed types tells whether the first argument is a cast. -/
theorem message_mixedTypes_ne {name name' : String} {arg behind : List Char}
    {type type' : Option ValueType} {others others' : List (String × Option ValueType)}
    (hname : '\'' ∉ name.toList) (hname' : '\'' ∉ name'.toList) (harg : '(' ∉ arg) :
    (CallComplaint.mixedTypes name' ((String.ofList ("cast".toList ++ '(' :: behind), type') :: others')).message ≠
      (CallComplaint.mixedTypes name ((String.ofList arg, type) :: others)).message := by
  have hmessage : ∀ {name : String} (args : List (String × Option ValueType)), '\'' ∉ name.toList →
      ∃ tail, fromSecondQuote (CallComplaint.mixedTypes name args).message.toList =
        "' requires all arguments to be the same type, but received mixed types: ".toList ++
          ((CallComplaint.argsText args).toList ++ tail) := by
    intro name args hname
    unfold CallComplaint.message
    simp only [String.toList_append, List.append_assoc]
    exact ⟨_, fromSecondQuote_append (a := "Function ".toList) (by decide) hname rfl⟩
  intro heq
  obtain ⟨tail, htail⟩ := hmessage ((String.ofList arg, type) :: others) hname
  obtain ⟨tail', htail'⟩ := hmessage ((String.ofList ("cast".toList ++ '(' :: behind), type') :: others') hname'
  obtain ⟨rest, hrest⟩ := exists_argsText (String.ofList arg) type others
  obtain ⟨rest', hrest'⟩ := exists_argsText (String.ofList ("cast".toList ++ '(' :: behind)) type' others'
  rw [heq, htail, hrest, hrest'] at htail'
  have hboth := List.append_cancel_left htail'
  rw [List.cons_append, List.cons_append, List.cons.injEq] at hboth
  have hparen : arg ++ "' ".toList ++ '(' :: (rest ++ tail) =
      "cast".toList ++ '(' :: (behind ++ ("' ".toList ++ '(' :: (rest' ++ tail'))) := by
    have hsame := hboth.2
    simp only [String.toList_ofList, List.append_assoc] at hsame
    rw [List.append_assoc]
    exact hsame
  -- up to the first parenthesis one text ends in a blank, the other one in a letter
  have hfree : '(' ∉ arg ++ "' ".toList := by
    rw [List.mem_append, not_or]
    exact ⟨harg, by decide⟩
  have hword := congrArg (splitOn '(') hparen
  rw [splitOn_append_cons hfree, splitOn_append_cons (by decide : '(' ∉ "cast".toList),
    List.cons.injEq] at hword
  have hlast := congrArg List.getLast? hword.1
  rw [List.getLast?_append] at hlast
  cases hlast

/-! ## The line -/

theorem suffix_of_word {name word : List Char} (front : List Char) (h : name <:+ front ++ word)
    (hname : ∀ c ∈ name, isWord c = true) (hfront : ∀ c ∈ front.getLast?, isWord c = false) :
    name <:+ word := by
  rcases List.suffix_or_suffix_of_suffix h (List.suffix_append front word) with hword | ⟨more, rfl⟩
  · exact hword
  · obtain ⟨pre, hpre⟩ := h
    rw [← List.append_assoc, List.append_left_inj] at hpre
    rcases List.eq_nil_or_concat more with rfl | ⟨more, c, rfl⟩
    · exact List.suffix_rfl
    · rw [List.concat_eq_append] at hpre hname
      have hlast : front.getLast? = some c := by
        rw [← hpre, ← List.append_assoc, List.getLast?_append, List.getLast?_singleton, Option.some_or]
      have hc := hname c (by simp)
      rw [hfront c hlast] at hc
      cases hc

/-- No function but `cast` is named like the end of this word. -/
theorem eq_cast_of_suffix {name : String} (h : name.toList <:+ "cast".toList) (hne : name.toList ≠ [])
    (hfind : (Signature.find? name).isSome = true) : name = "cast" := by
  have hall : ∀ p ∈ "cast".toList.tails, p ≠ [] → (Signature.find? (String.ofList p)).isSome = true →
      String.ofList p = "cast" := by
    decide +kernel
  have hname := hall name.toList ((List.mem_tails _ _).2 h) hne
  rw [String.ofList_toList] at hname
  exact hname hfind

/-- The function that is called behind the word `cast` is `cast`. -/
theorem CallWith.eq_cast {cs before g rest arg ws front : List Char} {name : String}
    (h : CallWith cs name before g rest arg) (hbefore : ws ++ (before ++ g) = front ++ "cast".toList)
    (hfront : ∀ c ∈ front.getLast?, isWord c = false) (hfind : (Signature.find? name).isSome = true) :
    name = "cast" := by
  have hnone : g = [] := by
    rcases List.eq_nil_or_concat g with hnil | ⟨g, c, rfl⟩
    · exact hnil
    · have hlast := congrArg List.getLast? hbefore
      rw [List.concat_eq_append, ← List.append_assoc, ← List.append_assoc, List.getLast?_concat,
        List.getLast?_append, show "cast".toList.getLast? = some 't' from rfl, Option.some_or,
        Option.some.injEq] at hlast
      have hblank := h.blank c (by simp)
      rw [hlast] at hblank
      exact absurd hblank (by decide)
  subst hnone
  rw [List.append_nil] at hbefore
  refine eq_cast_of_suffix (suffix_of_word front ?_ h.name_word hfront) h.name_ne hfind
  rw [← hbefore]
  exact h.name_suffix.trans (List.suffix_append _ _)

/-- Where the casts of all arguments follow a parenthesis, the first argument is one. -/
theorem exists_cast_of_casts {target : String} {first arg rest tail behind : List Char}
    {args : List (List Char)} (h : LineChange.casts target (first :: args) ++ ')' :: behind = rest ++ tail)
    (hsplit : ∃ other more, splitArgs (callInside rest) = arg :: other :: more) :
    ∃ behind, arg = "cast".toList ++ '(' :: behind := by
  obtain ⟨other, more, hsplit⟩ := hsplit
  obtain ⟨casts, hcasts⟩ := LineChange.exists_casts target first args
  refine exists_cast_of_args (?_ : "cast".toList ++ ['('] <+: rest ++ tail) hsplit
  rw [← h, hcasts]
  exact ⟨casts ++ ')' :: behind, by simp only [List.append_assoc, List.cons_append, List.nil_append]⟩

/-- Behind a fix that casts all arguments, a call of a function other than `cast` with two arguments or
more has a cast as the first. -/
theorem exists_cast_of_castArgs? {fname line text : List Char} {target name : String}
    {before g rest arg : List Char} (hcasts : LineChange.castArgs? fname target line = some text)
    (hopening : line.count '(' ≤ 1) (htarget : '(' ∉ target.toList)
    (hcall : CallWith (statementOf text) name before g rest arg)
    (hfind : (Signature.find? name).isSome = true) (hname : name ≠ "cast") :
    ∃ behind, arg = "cast".toList ++ '(' :: behind := by
  obtain ⟨before', gap, inside, behind, first, args, -, hline, htext, hargs⟩ :=
    LineChange.exists_of_castArgs? hcasts hopening
  obtain ⟨hfront, hbehind⟩ : '(' ∉ before' ++ fname ∧ '(' ∉ behind := by
    rw [hline, ← List.append_assoc] at hopening
    obtain ⟨hfront, hrest⟩ := not_mem_of_count_le hopening
    exact ⟨fun h => hfront (List.mem_append_left _ h), fun h => hrest (by simp [h])⟩
  generalize before' ++ fname = front at htext hfront
  obtain ⟨ws, stripped, comment, hstatement, -, -, -⟩ := exists_around_statementOf text
  have hcut : front ++ '(' :: (LineChange.casts target (first :: args) ++ ')' :: behind) =
      ws ++ (before ++ g) ++ '(' :: (rest ++ (stripped ++ comment)) := by
    rw [← htext, hstatement, hcall.text_eq]
    simp only [List.append_assoc, List.cons_append]
  -- The parenthesis of the call is that of the function, or that of a cast behind it.
  rcases List.append_eq_append_iff.1 hcut with ⟨between, hbetween, hparen⟩ | ⟨between, rfl, hparen⟩
  · cases between with
    | nil => exact exists_cast_of_casts (List.cons.inj hparen).2 hcall.args_eq
    | cons c between =>
      rw [List.cons_append, List.cons.injEq] at hparen
      obtain ⟨rfl, hparen⟩ := hparen
      obtain ⟨inside, hinside⟩ : ∃ inside,
          LineChange.casts target (first :: args) = between ++ '(' :: inside := by
        rcases List.append_eq_append_iff.1 hparen with ⟨more, -, hmore⟩ | ⟨more, hmore, hrest⟩
        · have hmem : '(' ∈ ')' :: behind := hmore ▸ List.mem_append_right _ List.mem_cons_self
          exact absurd ((List.mem_cons.1 hmem).resolve_left (by decide)) hbehind
        · cases more with
          | nil => cases hrest
          | cons c more =>
            rw [(List.cons.inj hrest).1]
            exact ⟨more, hmore⟩
      obtain ⟨u, rfl, hu⟩ := LineChange.cast_before_paren htarget (fun a ha => (hargs a ha).2) hinside
      have hfree : ∀ c ∈ (front ++ '(' :: u).getLast?, isWord c = false := by
        rw [← List.singleton_append, ← List.append_assoc]
        refine forall_getLast?_append (fun c hc => ?_) hu
        rw [List.getLast?_concat] at hc
        cases hc
        decide
      have hbefore : ws ++ (before ++ g) = front ++ '(' :: u ++ "cast".toList := by
        rw [hbetween]
        simp only [List.append_assoc, List.cons_append]
      exact absurd (hcall.eq_cast hbefore hfree hfind) hname
  · cases between with
    | nil => exact exists_cast_of_casts (List.cons.inj hparen).2.symm hcall.args_eq
    | cons c between =>
      rw [← (List.cons.inj hparen).1] at hfront
      exact absurd (List.mem_append_right _ List.mem_cons_self) hfront

/-- What is declared stands in front of the call, so it stays. -/
theorem declares?_castArgs? {fname line text : List Char} {target : String}
    (hcasts : LineChange.castArgs? fname target line = some text) (hopening : line.count '(' ≤ 1)
    (hname : ∀ c ∈ fname, isWord c = true) (hne : fname ≠ []) (hcall : '(' ∈ statementOf line) :
    Script.declares? (statementOf text) = Script.declares? (statementOf line) := by
  obtain ⟨before, gap, inside, behind, arg, args, hgap, hline, htext, -⟩ :=
    LineChange.exists_of_castArgs? hcasts hopening
  obtain ⟨ws, stripped, comment, hstatement, hws, -, -⟩ := exists_around_statementOf line
  obtain ⟨x, y, hxy⟩ := List.append_of_mem hcall
  have hcut : ws ++ x ++ '(' :: (y ++ (stripped ++ comment)) =
      before ++ fname ++ gap ++ '(' :: (inside ++ ')' :: behind) := by
    rw [List.append_assoc _ gap, ← hline]
    conv_rhs => rw [hstatement, hxy]
    simp only [List.append_assoc, List.cons_append]
  obtain ⟨p, hp, rfl⟩ : ∃ p, before ++ fname = ws ++ p ∧ x = p ++ gap := by
    rw [hline, ← List.append_assoc] at hopening
    obtain ⟨hfront, hrest⟩ := not_mem_of_count_le hopening
    obtain ⟨hx, -, -⟩ := (List.append_cons_inj_of_notMem hfront hrest).1 hcut.symm
    rcases List.append_eq_append_iff.1 hx with ⟨more, hmore, -⟩ | ⟨more, hmore, hgap⟩
    · obtain ⟨c, hc⟩ := List.exists_mem_of_ne_nil fname hne
      have hblank := hws c (by rw [hmore]; simp [hc])
      rw [isBlank_of_isWord (hname c hc)] at hblank
      cases hblank
    · exact ⟨more, hmore, hgap⟩
  have hfirst : ∀ c ∈ p.head?, isBlank c = false := by
    intro c hc
    refine head?_statementOf line c ?_
    rw [hxy, List.append_assoc, List.head?_append, Option.mem_def.1 hc]
    rfl
  have hcomment : beforeComment p = p :=
    beforeComment_of_statementOf (hxy ▸ (List.prefix_append p _).trans (List.prefix_append _ _)).isInfix
  obtain ⟨tail, htail⟩ := statementOf_opening hws hfirst hcomment
    (LineChange.casts target (arg :: args) ++ ')' :: behind)
  rw [htext, hp, List.append_assoc, htail, hxy, List.append_assoc]
  exact (declares?_gap hgap).symm

/-- No finding on the changed line has the message. -/
theorem told_castArgs [Build] {fname line text : List Char} {target name : String}
    {symbols : Symbols} {w : Walk} {number : Nat} {args : List (String × Option ValueType)}
    (hold : .call (.mixedTypes name args) ∈ w.complaints symbols number (statementOf line))
    (hcasts : LineChange.castArgs? fname target line = some text)
    (htarget : '(' ∉ target.toList) (hopening : line.count '(' ≤ 1) (symbols' : Symbols) (w' : Walk) :
    w'.told (Complaint.call (.mixedTypes name args)).message symbols' (statementOf text) = 0 := by
  refine List.countP_eq_zero.2 fun c hc hmessage => ?_
  have hmessage := of_decide_eq_true hmessage
  have hnamed := Walk.named_of_mem_complaints hold
  have hnamed' := Walk.named_of_mem_complaints hc
  have htopic := Complaint.topic_eq hnamed' hnamed hmessage
  obtain ⟨name', args', rfl⟩ : ∃ name' args', c = .call (.mixedTypes name' args') := by
    cases c with
    | call c => cases c <;> first | exact ⟨_, _, rfl⟩ | cases htopic
    | _ => cases htopic
  obtain ⟨before, g, rest, arg, type, others, hcall, rfl, -, -⟩ :=
    exists_of_mixedTypes (getLast?_statementOf line) hold
  obtain ⟨before', g', rest', arg', type', others', hcall', rfl, hfind, hcast⟩ :=
    exists_of_mixedTypes (getLast?_statementOf text) hc
  obtain ⟨behind, rfl⟩ :=
    exists_cast_of_castArgs? hcasts hopening htarget hcall' hfind hcast
  have harg : '(' ∉ arg := by
    obtain ⟨other, more, hsplit⟩ := hcall.args_eq
    obtain ⟨ws, stripped, comment, hline, -, -, -⟩ := exists_around_statementOf line
    have hcut : line = ws ++ (before ++ g) ++ '(' :: (rest ++ (stripped ++ comment)) := by
      rw [hcall.text_eq] at hline
      rw [hline]
      simp only [List.append_assoc, List.cons_append]
    rw [hcut] at hopening
    intro hmem
    have hpart : arg <:+: rest :=
      (splitArgs_isInfix (by rw [hsplit]; exact List.mem_cons_self)).trans (callInside_isInfix rest)
    exact (not_mem_of_count_le hopening).2 (List.mem_append_left _ (hpart.subset hmem))
  exact message_mixedTypes_ne hnamed hnamed' harg hmessage

end Check

/-! ## The text -/

namespace LineChange

/-- Casts of parts of a line are text on one line. -/
theorem not_mem_casts {target : String} {args : List (List Char)} (htarget : '\n' ∉ target.toList)
    (hargs : ∀ arg ∈ args, '\n' ∉ arg) : '\n' ∉ casts target args := by
  refine not_mem_intercalate (by decide) (List.forall_mem_map.2 fun arg harg => ?_)
  rw [castText_eq]
  simp only [List.mem_append, List.mem_cons, not_or]
  exact ⟨by decide, by decide, hargs arg harg, (by decide : '\n' ∉ ", ".toList), htarget, by decide⟩

end LineChange

namespace Spot

variable [Build] {source : List Char} {d : Diagnostic} {line : List Char} (s : Spot source d line)

/-- With all arguments of the call cast there are fewer findings on mixed types. -/
theorem tally_castArgs {fname text : List Char} {target : String}
    (ht : s.complaint.topic = .mixedTypes) (hcasts : LineChange.castArgs? fname target line = some text)
    (htarget : ∀ c ∈ target.toList, isWord c = true) (hname : ∀ c ∈ fname, isWord c = true)
    (hne : fname ≠ []) (hopening : line.count '(' ≤ 1)
    (hshort : text.length < Limit.lineChars) :
    (Script.ofSource (s.before ++ text ++ s.terminator ++ s.after)).tally d.message <
      (Script.ofSource source).tally d.message := by
  obtain ⟨name, args, hcomplaint⟩ : ∃ name args, s.complaint = .call (.mixedTypes name args) := by
    cases hc : s.complaint with
    | call c => cases c <;> first | exact ⟨_, _, rfl⟩ | (rw [hc] at ht; cases ht)
    | _ => rw [hc] at ht; cases ht
  have hmem := s.mem
  rw [hcomplaint] at hmem
  have hcall : '(' ∈ statementOf line := by
    obtain ⟨before, g, rest, _, _, _, hcall, -⟩ :=
      exists_of_mixedTypes (getLast?_statementOf line) hmem
    rw [hcall.text_eq]
    simp
  obtain ⟨before, gap, inside, behind, arg, others, -, hline, htext, hargs⟩ :=
    LineChange.exists_of_castArgs? hcasts hopening
  have hfits : Fits line text := by
    have hfree := s.lineAt.unbroken
    have hargs : '\n' ∉ LineChange.casts target (arg :: others) :=
      LineChange.not_mem_casts (fun h => absurd (htarget _ h) (by decide))
        fun a ha h => hfree ((hargs a ha).1.subset h)
    have hline' : line = before ++ fname ++ (gap ++ '(' :: inside) ++ ')' :: behind := by
      rw [hline]
      simp only [List.append_assoc, List.cons_append]
    have htext' : text = before ++ fname ++ '(' :: LineChange.casts target (arg :: others) ++
        ')' :: behind := by
      rw [htext]
      simp only [List.append_assoc, List.cons_append]
    rw [hline'] at hfree ⊢
    rw [htext']
    refine .of_suffix (List.cons_ne_nil _ _) hfree ?_
    simp only [List.mem_append, List.mem_cons, not_or] at hfree ⊢
    exact ⟨hfree.1.1, by decide, hargs⟩
  refine s.tally_replaced hfits hshort (by rw [ht]; decide)
    (fun _ => declares?_castArgs? hcasts hopening hname hne hcall) fun w script => ?_
  have htold := told_castArgs hmem hcasts
    (fun h => absurd (htarget _ h) (by decide)) hopening script.symbols w
  rwa [← hcomplaint, s.message] at htold

end Spot

end EvlCheck
