/-
Fixes that remove a line, put lines around it or one in front of it. A line that declares a name once more
may go without any effect on what the lines behind it are told. A line without braces may stand in the
body of a `try`: the walk is behind the handler where it was behind the line. And a declaration in front
of a line makes the name known everywhere.
-/
import EvlCheck.Proofs.Check.Protection
import EvlCheck.Proofs.Check.Repetitions
import EvlCheck.Proofs.Fix.FixedCall
import EvlCheck.Proofs.Fix.Spot
import EvlCheck.Fix.QuickFix

namespace EvlCheck

open Text Check

namespace Walk

variable {m : String} {symbols : Symbols} {w : Walk}

theorem complaints_of_structural [Build] {line : List Char} (h : (w.tracker.observe line).2 = true)
    (number : Nat) : w.complaints symbols number line = [] := by
  unfold complaints
  rw [h, Bool.or_true, if_pos rfl]

theorem told_of_structural [Build] {line : List Char} (h : (w.tracker.observe line).2 = true) :
    w.told m symbols line = 0 := by
  rw [told, complaints_of_structural h]
  rfl

theorem tally_eq_zero [Build] (h : ∀ w line, Walk.told m symbols w line = 0)
    (lines : List (List Char)) :
    w.tally m symbols lines = 0 := by
  induction lines generalizing w with
  | nil => rfl
  | cons line rest ih => rw [tally, h, ih]

variable {number : Nat} {line : List Char} {c : Complaint}

theorem not_protects_of_division [Build] (h : c ∈ w.complaints symbols number line)
    (ht : c.topic = .division) : (w.tracker.observe line).1.protects = false := by
  cases arises_of_mem_complaints h with
  | division unprotected => exact unprotected
  | number _ _ mem => exact absurd ht (topic_ne_of_number mem rfl)
  | expression _ mem => exact absurd ht (topic_ne_of_call mem rfl)
  | _ => cases ht

/-- A protected line has no finding about a division. -/
theorem told_of_protected [Build] (hm : IsAbout m .division)
    (h : (w.tracker.observe line).1.protects = true) : w.told m symbols line = 0 := by
  refine List.countP_eq_zero.2 fun c hc hmessage => ?_
  have htopic := hm c (named_of_mem_complaints hc) (of_decide_eq_true hmessage)
  rw [not_protects_of_division hc htopic] at h
  cases h

theorem tracker_pass (hne : line ≠ []) : (w.pass line).tracker = (w.tracker.observe line).1 := by
  unfold pass
  rw [if_neg (by simpa using hne)]

/-- A line without braces in the body of a `try`: the `try` stays open, and of a division nothing is told. -/
theorem pass_in_try [Build] {depth : Int} (symbols : Symbols) (hm : IsAbout m .division)
    (hw : w.tracker = ⟨depth + 1, some depth⟩) (hopen : '\x7b' ∉ line) (hclose : '\x7d' ∉ line) :
    (w.pass line).tracker = ⟨depth + 1, some depth⟩ ∧ w.told m symbols line = 0 := by
  have hobserve : w.tracker.observe line = (w.tracker, TryTracker.catches line) := by
    refine TryTracker.observe_plain hopen hclose fun below hbelow => ?_
    rw [hw] at hbelow ⊢
    cases hbelow
    exact Int.lt_succ _
  constructor
  · unfold pass
    rw [hobserve, ite_self, hw]
  · refine told_of_protected hm ?_
    rw [hobserve, hw]
    rfl

/-- The lines of a `try` with one line in its body and one in its handler. -/
def tryLines (body handler : List Char) : List (List Char) :=
  ["try \x7b".toList, body, Bracing.catchLine ['e'], handler, ['\x7d']]

theorem observe_turn (t : TryTracker) : t.observe (Bracing.catchLine ['e']) = (t, true) :=
  TryTracker.observe_catchLine _ (List.cons_ne_nil _ _) (List.forall_mem_singleton.2 (by decide))

/-- The place in the body of a `try`. -/
theorem tracker_in_try (w : Walk) :
    (w.pass "try \x7b".toList).tracker = ⟨w.tracker.depth + 1, some w.tracker.depth⟩ := by
  rw [tracker_pass (by decide), TryTracker.observe_tryLine]

/-- Behind a `try` of such lines nothing is protected. -/
theorem try_lines [Build] {body handler : List Char} (symbols : Symbols) (hm : IsAbout m .division)
    (hopen : '\x7b' ∉ body ∧ '\x7b' ∉ handler) (hclose : '\x7d' ∉ body ∧ '\x7d' ∉ handler) (w : Walk) :
    ((tryLines body handler).foldl pass w).tracker = ⟨w.tracker.depth, none⟩ ∧
      w.tally m symbols (tryLines body handler) = 0 := by
  obtain ⟨hbehind, htold⟩ := pass_in_try symbols hm w.tracker_in_try hopen.1 hclose.1
  have hhandler : (((w.pass "try \x7b".toList).pass body).pass (Bracing.catchLine ['e'])).tracker =
      ⟨w.tracker.depth + 1, some w.tracker.depth⟩ := by
    rw [tracker_pass (by decide), observe_turn, hbehind]
  obtain ⟨hlast, htold'⟩ := pass_in_try symbols hm hhandler hopen.2 hclose.2
  unfold tryLines
  constructor
  · simp only [List.foldl_cons, List.foldl_nil]
    have hbalance : TryTracker.braceBalance ['\x7d'] = -1 := by decide
    rw [tracker_pass (List.cons_ne_nil _ _), hlast, TryTracker.observe_brace _ (.inr rfl), hbalance]
    dsimp only
    rw [Int.add_neg_cancel_right, Option.filter_some, if_neg (by simp)]
  · simp only [tally]
    rw [htold, htold', told_of_structural (by rw [TryTracker.observe_tryLine]),
      told_of_structural (by rw [observe_turn]), told_of_structural (by rw [TryTracker.observe_brace _ (.inr rfl)])]

end Walk

/-! ## Declared names -/

/-- A known name is not told to be undeclared. -/
theorem Walk.ne_undeclared_of_contains [Build] {symbols : Symbols} {w : Walk} {number : Nat}
    {line : List Char} {name : String} (hknown : symbols.contains name = true) {c : Complaint}
    (hc : c ∈ w.complaints symbols number line) : c ≠ .undeclared name := by
  rintro rfl
  obtain ⟨d, _, mem, -, ⟨⟩⟩ := exists_undeclared hc rfl
  have hunknown := (List.mem_filter.1 mem).2
  rw [isKnownName, hknown] at hunknown
  cases hunknown

namespace Script

/-- A script knows every name that a line of it declares. -/
theorem contains_symbols {s : Script} {line : List Char} {name : String} {type : ValueType}
    (hline : line ∈ s.lines) (hdeclares : declares? line = some (name, type)) :
    s.symbols.contains name = true := by
  unfold Symbols.contains
  rw [get?_symbols, Option.isSome_map, List.find?_isSome]
  exact ⟨(name, type), List.mem_reverse.2 (List.mem_filterMap.2 ⟨line, hline, hdeclares⟩), decide_eq_true rfl⟩

end Script

namespace Check

/-- A declaration of a name with a value. -/
def declarationText (type : ValueType) (name value : List Char) : List Char :=
  type.text.toList ++ ' ' :: (name ++ (" = ".toList ++ value))

section

variable (type : ValueType) {name value : List Char} {c v : Char}

theorem mem_declarationText (hword : ∀ c ∈ name, isWord c = true)
    (h : c ∈ declarationText type name value) : isWord c = true ∨ c ∈ " =".toList ∨ c ∈ value := by
  unfold declarationText at h
  simp only [List.mem_append, List.mem_cons] at h
  rcases h with h | rfl | h | h | h
  · exact .inl ((isWord_text type).1 c h)
  · exact .inr (.inl (by decide))
  · exact .inl (hword c h)
  · have hsubset : " = ".toList ⊆ " =".toList := by decide
    exact .inr (.inl (hsubset h))
  · exact .inr (.inr h)

theorem getLast?_declarationText (hlast : value.getLast? = some v) :
    (declarationText type name value).getLast? = some v := by
  unfold declarationText
  rw [List.getLast?_append, List.getLast?_cons, List.getLast?_append, List.getLast?_append, hlast]
  rfl

theorem declares?_declarationText (hne : name ≠ []) (hword : ∀ c ∈ name, isWord c = true)
    (hslash : '/' ∉ value) (hlast : value.getLast? = some v) (hv : isBlank v = false) (hsemicolon : v ≠ ';') :
    Script.declares? (statementOf (declarationText type name value)) = some (String.ofList name, type) := by
  have hnone : '/' ∉ declarationText type name value := by
    intro hmem
    rcases mem_declarationText type hword hmem with h | h | h
    · exact absurd h (by decide)
    · exact absurd h (by decide)
    · exact hslash h
  have hnamed : NamedText false type name (type.text.toList ++ ([' '] ++ name)) :=
    .mk (.plain type) (List.forall_mem_singleton.2 (by decide)) (List.cons_ne_nil _ _) hword hne
  have hvalue : trimStart (' ' :: value) ≠ [] := by
    obtain ⟨front, rfl⟩ := List.getLast?_eq_some_iff.1 hlast
    obtain ⟨zs, hzs⟩ := exists_trimStart_append hv (' ' :: front) []
    rw [List.cons_append] at hzs
    rw [hzs]
    simp
  have hstatement : statementOf (declarationText type name value) =
      (type.text.toList ++ ([' '] ++ name)) ++ ([' '] ++ '=' :: ' ' :: value) := by
    rw [statementOf_eq_trimStart (beforeComment_of_not_mem hnone) (getLast?_declarationText type hlast) hv
      hsemicolon, declarationText]
    obtain ⟨c, w, hc⟩ := List.exists_cons_of_ne_nil (isWord_text type).2
    have hfirst := isBlank_of_isWord ((isWord_text type).1 c (hc ▸ List.mem_cons_self))
    rw [hc, List.cons_append, trimStart_cons hfirst]
    simp
  unfold Script.declares?
  rw [hstatement, hnamed.declaration?_append (List.forall_mem_singleton.2 (by decide)) hvalue]
  rfl

/-- The declaration of a number is a line of its own and is read as what it is. -/
theorem declarationText_number (hne : name ≠ []) (hword : ∀ c ∈ name, isWord c = true)
    (hvalue : value = "0".toList ∨ value = "0.0".toList) :
    '\n' ∉ declarationText type name value ∧ (declarationText type name value).getLast? ≠ some '\r' ∧
      Script.declares? (statementOf (declarationText type name value)) = some (String.ofList name, type) := by
  have hlast : value.getLast? = some '0' := by rcases hvalue with rfl | rfl <;> rfl
  have hnone : '\n' ∉ value ∧ '/' ∉ value := by rcases hvalue with rfl | rfl <;> decide
  refine ⟨fun hmem => ?_, ?_, declares?_declarationText type hne hword hnone.2 hlast (by decide) (by decide)⟩
  · rcases mem_declarationText type hword hmem with h | h | h
    · exact absurd h (by decide)
    · exact absurd h (by decide)
    · exact hnone.1 h
  · rw [getLast?_declarationText type hlast]
    decide

end

end Check

namespace Spot

variable [Build] {source : List Char} {d : Diagnostic} {line : List Char} (s : Spot source d line)

/-! ## A line removed -/

/-- Without the line, the other lines follow each other; an empty one stands in the place of the last. -/
theorem exists_script_removed : ∃ others, (others = [] ∨ others = [[]]) ∧
    (Script.ofSource (s.before ++ s.after)).lines =
      s.front.map Script.lineOf ++ (others ++ s.back.map Script.lineOf) := by
  have hlines := s.around.lines_before s.after
  rcases s.around.lines_after with hafter | ⟨hafter, hback⟩
  · rw [hafter] at hlines
    refine ⟨[], .inl rfl, ?_⟩
    rw [Script.lines_ofSource hlines, List.map_append]
    rfl
  · rw [hafter] at hlines
    refine ⟨[[]], .inr rfl, ?_⟩
    rw [hafter, Script.lines_ofSource hlines, List.map_append, hback]
    rfl

/-- Behind a line that declares a name once more the same names are declared as in front of it. -/
theorem declared_of_repeated (ht : s.complaint.topic = .repeated) (name : String) :
    name ∈ s.walk.declared ↔ name ∈ (s.walk.pass (statementOf line)).declared := by
  obtain ⟨e, he, habove⟩ : ∃ e, declaration? (statementOf line) = some e ∧ e.name ∈ s.walk.declared :=
    Walk.mem_declared_of_repeated s.mem ht
  unfold Walk.pass
  rw [he, List.mem_cons]
  constructor
  · exact .inr
  · rintro (rfl | h)
    · exact habove
    · exact h

/-- Without a line that declares a name once more there are fewer findings on that. -/
theorem tally_removed (ht : s.complaint.topic = .repeated) :
    (Script.ofSource (s.before ++ s.after)).tally d.message < (Script.ofSource source).tally d.message := by
  have hagree : Walk.Agree s.complaint.topic (s.walk.pass (statementOf line)) s.walk := by
    refine ⟨fun h => ?_, fun _ name => s.declared_of_repeated ht name⟩
    rw [ht] at h
    rcases h with h | h <;> cases h
  have htypes : s.complaint.topic.usesTypes = true → False := fun h => by
    rw [ht] at h
    cases h
  obtain ⟨others, hothers, hout⟩ := s.exists_script_removed
  rcases hothers with rfl | rfl
  · exact s.tally_lt hout (fun h => (htypes h).elim) hagree rfl
  · exact s.tally_lt hout (fun h => (htypes h).elim) hagree rfl

/-! ## Lines around a line -/

/-- The line in the body of a `try`. -/
def wrapped (line : List Char) : List Char :=
  "try \x7b\n".toList ++ FixSite.wrapIndent.toList ++ trim line ++
    "\n\x7d catch (e) \x7b\n".toList ++ FixSite.wrapIndent.toList ++
    "print(\"Error: Division by zero!\")\n\x7d".toList

/-- The line of the handler. -/
def handlerLine : List Char :=
  FixSite.wrapIndent.toList ++ "print(\"Error: Division by zero!\")".toList

omit [Build] in
theorem wrapped_append (line rest : List Char) : wrapped line ++ rest =
    "try \x7b".toList ++ '\n' :: ((FixSite.wrapIndent.toList ++ trim line) ++ '\n' ::
      (Bracing.catchLine ['e'] ++ '\n' :: (handlerLine ++ '\n' :: (['\x7d'] ++ rest)))) := by
  have htry : "try \x7b\n".toList = "try \x7b".toList ++ ['\n'] := by
    rw [String.toList_ofList, String.toList_ofList]
    rfl
  have hturn : "\n\x7d catch (e) \x7b\n".toList = '\n' :: (Bracing.catchLine ['e'] ++ ['\n']) := by
    unfold Bracing.catchLine
    repeat rw [String.toList_ofList]
    rfl
  have hprint : "print(\"Error: Division by zero!\")\n\x7d".toList =
      "print(\"Error: Division by zero!\")".toList ++ '\n' :: ['\x7d'] := by
    rw [String.toList_ofList, String.toList_ofList]
    rfl
  unfold wrapped handlerLine
  rw [htry, hturn, hprint]
  simp only [List.append_assoc, List.cons_append, List.nil_append]

theorem lines_wrapped (hline : '\n' ∉ line) :
    Text.lines (s.before ++ wrapped line ++ s.terminator ++ s.after) = s.front ++
      ("try \x7b".toList :: (FixSite.wrapIndent.toList ++ trim line) :: Bracing.catchLine ['e'] ::
        handlerLine :: (['\x7d'] ++ s.ending) :: s.back) := by
  have hbody : '\n' ∉ FixSite.wrapIndent.toList ++ trim line := by
    obtain ⟨_, _, -, -, htrim⟩ := exists_trim line
    rw [List.mem_append, not_or]
    exact ⟨by decide, fun h => hline (htrim ▸ List.mem_append_right _ (List.mem_append_left _ h))⟩
  rw [List.append_assoc, List.append_assoc, s.around.lines_before, wrapped_append, lines_append_feed,
    lines_append_feed, lines_append_feed, lines_append_feed, lines_of_not_mem (by decide),
    lines_of_not_mem hbody, lines_of_not_mem (by decide), lines_of_not_mem (by decide),
    s.around.lines_line ['\x7d'] (by decide)]
  rfl

/-- What validation reads of the line in the body. -/
def bodyOf (line : List Char) : List Char := Script.lineOf (FixSite.wrapIndent.toList ++ trim line)

theorem not_mem_bodyOf {c : Char} (hc : isBlank c = false) (h : c ∉ line) : c ∉ bodyOf line := by
  intro hmem
  rcases List.mem_append.1 ((Script.lineOf_isInfix _).subset hmem) with hindent | htrim
  · have hblank : ∀ c ∈ FixSite.wrapIndent.toList, isBlank c = true := List.all_eq_true.1 (by decide)
    rw [hblank c hindent] at hc
    cases hc
  · exact h ((trim_isInfix line).subset htrim)

theorem not_mem_handler {c : Char} (h : c ∉ handlerLine) : c ∉ Script.lineOf handlerLine :=
  fun hmem => h ((Script.lineOf_isInfix _).subset hmem)

/-- The lines with the `try` in the place of the line. -/
theorem script_wrapped : (Script.ofSource (s.before ++ wrapped line ++ s.terminator ++ s.after)).lines =
    s.front.map Script.lineOf ++
      (Walk.tryLines (bodyOf line) (Script.lineOf handlerLine) ++ s.back.map Script.lineOf) := by
  have htry : Script.lineOf "try \x7b".toList = "try \x7b".toList :=
    (Script.lineOf_of_short (by decide)).trans (by decide)
  have hturn : Script.lineOf (Bracing.catchLine ['e']) = Bracing.catchLine ['e'] :=
    (Script.lineOf_of_short (by decide)).trans (by decide)
  have hend : Script.lineOf (['\x7d'] ++ s.ending) = ['\x7d'] := by
    rcases s.around.ending_eq with h | h <;> rw [h, Script.lineOf_of_short (by decide)] <;> decide
  rw [Script.lines_ofSource (s.lines_wrapped s.lineAt.unbroken), List.map_append, List.map_cons,
    List.map_cons, List.map_cons, List.map_cons, List.map_cons, htry, hturn, hend]
  rfl

/-- Behind an unprotected line without braces no `try` is remembered. -/
theorem tracker_of_division (ht : s.complaint.topic = .division) (hopen : '\x7b' ∉ line)
    (hclose : '\x7d' ∉ line) :
    (s.walk.pass (statementOf line)).tracker = ⟨s.walk.tracker.depth, none⟩ := by
  have hstatement : ∀ {c : Char}, c ∉ line → c ∉ statementOf line := by
    intro c hnone hmem
    exact hnone ((List.dropWhile_sublist isBlank).subset ((statementOf_isPrefix line).subset hmem))
  have hmem : s.complaint ∈ s.walk.complaints (Script.ofSource source).symbols 0 (statementOf line) := s.mem
  have hunprotected := Walk.not_protects_of_division hmem ht
  obtain ⟨hne, hchecked⟩ : (statementOf line).isEmpty = false ∧
      (s.walk.tracker.observe (statementOf line)).2 = false := by
    unfold Walk.complaints at hmem
    split at hmem
    · cases hmem
    · next hchecked => rwa [Bool.or_eq_true, not_or, Bool.not_eq_true, Bool.not_eq_true] at hchecked
  rw [Walk.tracker_pass (by simpa using hne)]
  rw [TryTracker.observe_unbraced _ (hstatement hopen) (hstatement hclose)] at hunprotected hchecked ⊢
  split at hunprotected
  · next hcatch =>
    rw [if_pos hcatch] at hchecked
    cases hchecked
  · next hcatch =>
    rw [if_neg hcatch]
    unfold TryTracker.protects at hunprotected
    rw [Option.isSome_eq_false_iff, Option.isNone_iff_eq_none] at hunprotected
    dsimp only at hunprotected ⊢
    rw [hunprotected]

/-- Behind the handler the walk stands where it stood behind the line. -/
theorem tally_wrapped (ht : s.complaint.topic = .division) (hopen : '\x7b' ∉ line)
    (hclose : '\x7d' ∉ line) :
    (Script.ofSource (s.before ++ wrapped line ++ s.terminator ++ s.after)).tally d.message <
      (Script.ofSource source).tally d.message := by
  obtain ⟨htracker, hsilent⟩ := Walk.try_lines ((Script.ofSource
    (s.before ++ wrapped line ++ s.terminator ++ s.after)).symbols) (ht ▸ s.isAbout)
    ⟨not_mem_bodyOf (by decide) hopen, not_mem_handler (by decide)⟩
    ⟨not_mem_bodyOf (by decide) hclose, not_mem_handler (by decide)⟩ s.walk
  refine s.tally_lt s.script_wrapped (fun h => ?_) ⟨fun _ => ?_, fun h => ?_⟩ hsilent
  · rw [ht] at h
    cases h
  · rw [htracker, s.tracker_of_division ht hopen hclose]
  · rw [ht] at h
    cases h

/-! ## A line in front of a line -/

include s in
theorem tally_pos : 0 < (Script.ofSource source).tally d.message := by
  have hpos := s.told_pos
  unfold Script.tally
  rw [s.lines_eq, Walk.tally_append, Walk.tally]
  unfold walk at hpos
  omega

theorem lines_preceded {text : List Char} (hfeed : '\n' ∉ text) :
    Text.lines (s.before ++ (text ++ ['\n']) ++ line ++ s.terminator ++ s.after) =
      s.front ++ (text :: (line ++ s.ending) :: s.back) := by
  have hregroup : s.before ++ (text ++ ['\n']) ++ line ++ s.terminator ++ s.after =
      s.before ++ (text ++ '\n' :: (line ++ (s.terminator ++ s.after))) := by
    simp only [List.append_assoc, List.cons_append, List.nil_append]
  rw [hregroup, s.around.lines_before, lines_append_feed, lines_of_not_mem hfeed,
    s.around.lines_line line s.lineAt.unbroken]
  rfl

theorem isWord_of_undeclared {name : String} (hcomplaint : s.complaint = .undeclared name) :
    name.toList ≠ [] ∧ ∀ c ∈ name.toList, isWord c = true := by
  obtain ⟨d, _, mem, -, heq⟩ := Walk.exists_undeclared s.mem (by rw [hcomplaint]; rfl)
  cases hcomplaint.symm.trans heq
  exact isWord_of_mem_mentionedNames (List.mem_of_mem_filter mem)

/-- A declaration of a name above makes it known. -/
theorem contains_of_preceded {name : String} {type : ValueType} {text : List Char} (hfeed : '\n' ∉ text)
    (hend : text.getLast? ≠ some '\r') (hshort : text.length ≤ Limit.lineChars)
    (hdeclares : Script.declares? (statementOf text) = some (name, type)) :
    (Script.ofSource (s.before ++ (text ++ ['\n']) ++ line ++ s.terminator ++ s.after)).symbols.contains
      name = true := by
  refine Script.contains_symbols (?_ : Script.lineOf text ∈ _) (?_ : _ = some (name, type))
  · rw [Script.lines_ofSource (s.lines_preceded hfeed)]
    exact List.mem_map_of_mem (by simp)
  · have hline := Script.lineOf_ended (.inl rfl) (fun _ => hend) (by rwa [List.append_nil])
    rw [List.append_nil] at hline
    rw [hline, hdeclares]

/-- A declaration of a name above leaves no finding that it is not declared. -/
theorem tally_declared {name : String} (hcomplaint : s.complaint = .undeclared name) {text : List Char}
    (htext : text = declarationText .int name.toList "0".toList) (hshort : text.length ≤ Limit.lineChars) :
    (Script.ofSource (s.before ++ (text ++ ['\n']) ++ line ++ s.terminator ++ s.after)).tally d.message <
      (Script.ofSource source).tally d.message := by
  obtain ⟨hne, hword⟩ := s.isWord_of_undeclared hcomplaint
  obtain ⟨hfeed, hend, hdeclares⟩ := declarationText_number .int hne hword (.inl rfl)
  rw [← htext] at hfeed hend hdeclares
  rw [String.ofList_toList] at hdeclares
  have hknown := s.contains_of_preceded hfeed hend hshort hdeclares
  refine lt_of_eq_of_lt (Walk.tally_eq_zero (fun w line => ?_) _) s.tally_pos
  refine List.countP_eq_zero.2 fun c hc hmessage => ?_
  have hmessage := (of_decide_eq_true hmessage).trans s.message.symm
  rw [hcomplaint] at hmessage
  exact Walk.ne_undeclared_of_contains hknown hc (Complaint.eq_undeclared hmessage)

end Spot

end EvlCheck
