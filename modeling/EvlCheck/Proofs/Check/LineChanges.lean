/-
What a change to one line does to the findings on the others. The walk over the lines keeps three things
from line to line: the names that some line declares, those that an earlier line declares, and the
braces that are open. A line that is empty to the validator leaves all three as they are, and so do
two lines alike that neither declare a value, nor have a brace, nor begin with a `catch`. So an empty line
moves the findings behind it (`analyze_insert_silent`), and one of the other kind can be changed into
another with no effect elsewhere (`analyze_change_ordinary`).
-/
import EvlCheck.Proofs.Check.Complaints
import EvlCheck.Proofs.Check.LineEnds
import EvlCheck.Proofs.Check.LineOrder
import EvlCheck.Proofs.Check.Protection

namespace EvlCheck

open Text Check

/-! ## Where findings stand -/

/-- The finding where it stands after one more line was put in behind the first `k`. -/
def Diagnostic.pushed (k : Nat) (d : Diagnostic) : Diagnostic :=
  if k < d.line then { d with line := d.line + 1 } else d

namespace Check

/-- What is wrong with the calls of an expression does not depend on the number of the line. -/
theorem expressionComplaints_line [Build] (line line' : Nat) (declared : Option ValueType)
    (symbols : Symbols) (cs : List Char) :
    expressionComplaints ⟨line, declared, symbols⟩ cs =
      expressionComplaints ⟨line', declared, symbols⟩ cs := by
  unfold expressionComplaints
  cases (calls cs).1 with
  | nil => rfl
  | cons first rest =>
    refine List.flatMap_congr fun call _ => ?_
    split <;> rfl

/-- The findings of the same complaints on the next line. -/
theorem map_pushed_complained {k line : Nat} (h : k < line) (cs : List Complaint) :
    (complained line cs).map (·.pushed k) = complained (line + 1) cs := by
  unfold complained
  rw [List.map_map]
  refine List.map_congr_left fun c _ => ?_
  exact if_pos h

end Check

namespace Walk

variable {symbols : Symbols} {ls : List (List Char)} {k number : Nat} {w : Walk} {line : List Char}

theorem complaints_line [Build] (symbols : Symbols) (w : Walk) (number number' : Nat)
    (line : List Char) :
    w.complaints symbols number line = w.complaints symbols number' line := by
  have hcalls := expressionComplaints_line number number'
  unfold complaints statementComplaints declarationComplaints
  simp only [hcalls]

/-- The findings on lines are those on their first part, and those on the rest from the place behind it. -/
theorem findings_append [Build] (symbols : Symbols) (xs ys : List (List Char)) (number : Nat)
    (w : Walk) :
    findings symbols (xs ++ ys) number w =
      findings symbols xs number w ++ findings symbols ys (number + xs.length) (xs.foldl pass w) := by
  induction xs generalizing number w with
  | nil => rfl
  | cons line xs ih =>
    rw [List.cons_append, findings, findings]
    dsimp only
    rw [ih, step_fst, List.append_assoc, List.foldl_cons, List.length_cons, Nat.add_right_comm,
      Nat.add_assoc number]

/-- The findings on a line, and those on the lines behind it. -/
theorem findings_cons [Build] (symbols : Symbols) (line : List Char) (rest : List (List Char))
    (number : Nat) (w : Walk) :
    findings symbols (line :: rest) number w =
      complained number (w.complaints symbols number line) ++
        findings symbols rest (number + 1) (w.pass line) := by
  rw [findings]
  dsimp only
  rw [findings_step, step_fst]

/-- One line further down the same lines have the same findings. -/
theorem map_pushed_findings [Build] (h : k < number) :
    (findings symbols ls number w).map (·.pushed k) = findings symbols ls (number + 1) w := by
  induction ls generalizing number w with
  | nil => rfl
  | cons line rest ih =>
    rw [findings_cons, findings_cons, List.map_append, map_pushed_complained h,
      ih (Nat.lt_succ_of_lt h), complaints_line symbols w (number + 1) number]

/-- Findings on the lines in front of a place stay. -/
theorem map_pushed_findings_before [Build] (h : number + ls.length ≤ k + 1) :
    (findings symbols ls number w).map (·.pushed k) = findings symbols ls number w := by
  refine (List.map_congr_left fun d hd => ?_).trans (List.map_id _)
  obtain ⟨j, line, hj, hline, -⟩ := exists_line_of_mem_findings hd
  obtain ⟨hlt, -⟩ := List.getElem?_eq_some_iff.1 hline
  rw [Diagnostic.pushed, if_neg (by omega)]
  rfl

/-! ## Lines that leave the walk alone -/

/-- An empty line leads nowhere. -/
theorem pass_nil (w : Walk) : w.pass [] = w := rfl

/-- A line in normal form is ordinary: it is something, has no brace, declares no value and does not
begin with a `catch`. -/
structure Ordinary (line : List Char) : Prop where
  nonempty : line ≠ []
  unopened : '\x7b' ∉ line
  unclosed : '\x7d' ∉ line
  undeclared : declaration? line = none
  uncaught : TryTracker.catches line = false

/-- All such lines lead to the same place. -/
theorem Ordinary.pass_eq (h : Ordinary line) (w : Walk) :
    w.pass line = ⟨⟨w.tracker.depth, w.tracker.opened.filter fun start => start < w.tracker.depth⟩,
      w.declared⟩ := by
  unfold pass
  rw [h.undeclared, TryTracker.observe_unbraced _ h.unopened h.unclosed, h.uncaught,
    if_neg Bool.false_ne_true, List.isEmpty_eq_false_iff.2 h.nonempty, if_neg Bool.false_ne_true]

/-- The findings on other lines than that of the number. -/
theorem filter_findings_ne [Build] (h : k < number ∨ number + ls.length ≤ k) :
    (findings symbols ls number w).filter (·.line ≠ k) = findings symbols ls number w := by
  refine List.filter_eq_self.2 fun d hd => decide_eq_true ?_
  obtain ⟨j, line, hj, hline, -⟩ := exists_line_of_mem_findings hd
  obtain ⟨hlt, -⟩ := List.getElem?_eq_some_iff.1 hline
  omega

end Walk

namespace Script

/-! ## Scripts with such lines -/

variable {before behind : List (List Char)} {line line' : List Char}

/-- A line without a declaration is none of the symbols' business. -/
theorem symbols_between (h : declaration? line = none) :
    symbols ⟨before ++ line :: behind⟩ = symbols ⟨before ++ behind⟩ := by
  unfold symbols
  rw [List.foldl_append, List.foldl_cons, List.foldl_append, h]

/-- An empty line pushes the findings behind it down. -/
theorem findings_insert_nil [Build] (before behind : List (List Char)) :
    findings ⟨before ++ [] :: behind⟩ =
      (findings ⟨before ++ behind⟩).map (·.pushed before.length) := by
  unfold findings
  rw [@symbols_between _ _ [] rfl, Walk.findings_append, Walk.findings_append, List.map_append,
    Walk.map_pushed_findings_before (by omega), Walk.map_pushed_findings (by omega),
    Walk.findings_cons, Walk.pass_nil]
  rfl

/-- The findings on one line are those that it has behind the lines above it. -/
theorem filter_findings_line [Build] (before behind : List (List Char)) (line : List Char) :
    (findings ⟨before ++ line :: behind⟩).filter (·.line = before.length + 1) =
      complained (before.length + 1) ((before.foldl Walk.pass {}).complaints
        (symbols ⟨before ++ line :: behind⟩) (before.length + 1) line) := by
  have hother : ∀ {ls : List (List Char)} {number : Nat} {w : Walk},
      before.length + 1 < number ∨ number + ls.length ≤ before.length + 1 →
      (Walk.findings (symbols ⟨before ++ line :: behind⟩) ls number w).filter
        (·.line = before.length + 1) = [] := by
    intro ls number w h
    rw [← Walk.filter_findings_ne h, List.filter_filter, List.filter_eq_nil_iff]
    simp
  have hline : ∀ cs : List Complaint, (complained (before.length + 1) cs).filter
      (·.line = before.length + 1) = complained (before.length + 1) cs := by
    intro cs
    refine List.filter_eq_self.2 fun d hd => decide_eq_true ?_
    obtain ⟨c, -, rfl⟩ := List.mem_map.1 hd
    rfl
  unfold findings
  rw [Walk.findings_append, Walk.findings_cons, List.filter_append, List.filter_append,
    hother (.inr (by omega)), hother (.inl (by omega)), Nat.add_comm 1 before.length, hline,
    List.nil_append, List.append_nil]

/-- The findings on one line of a text, if the line is not too long. -/
theorem filter_findings_ofSource [Build] {source raw : List Char}
    (hlines : Text.lines source = before ++ raw :: behind)
    (hlength : raw.length ≤ Limit.lineChars) :
    (ofSource source).findings.filter (·.line = before.length + 1) =
      complained (before.length + 1) (((before.map lineOf).foldl Walk.pass {}).complaints
        (ofSource source).symbols (before.length + 1) (normalizeLine raw)) := by
  have hscript : ofSource source = ⟨before.map lineOf ++ normalizeLine raw :: behind.map lineOf⟩ := by
    rw [← lineOf_of_le hlength, ← List.map_cons, ← List.map_append, ← hlines]
    rfl
  have hfound := filter_findings_line (before.map lineOf) (behind.map lineOf) (normalizeLine raw)
  rw [← hscript, List.length_map] at hfound
  exact hfound

/-- Ordinary lines are all the same to the other lines. -/
theorem filter_findings_ordinary [Build] (h : Walk.Ordinary line) (h' : Walk.Ordinary line') :
    (findings ⟨before ++ line :: behind⟩).filter (·.line ≠ before.length + 1) =
      (findings ⟨before ++ line' :: behind⟩).filter (·.line ≠ before.length + 1) := by
  have hrest : ∀ {line}, Walk.Ordinary line →
      (findings ⟨before ++ line :: behind⟩).filter (·.line ≠ before.length + 1) =
        Walk.findings (symbols ⟨before ++ behind⟩) before 1 {} ++
          Walk.findings (symbols ⟨before ++ behind⟩) behind (1 + before.length + 1)
            ((before.foldl Walk.pass {}).pass line) := by
    intro line h
    unfold findings
    have hline : (complained (1 + before.length) ((before.foldl Walk.pass {}).complaints
        (symbols ⟨before ++ behind⟩) (1 + before.length) line)).filter
          (·.line ≠ before.length + 1) = [] := by
      refine List.filter_eq_nil_iff.2 fun d hd => ?_
      obtain ⟨c, -, rfl⟩ := List.mem_map.1 hd
      rw [Complaint.line_diagnostic]
      simp only [ne_eq, decide_not, Bool.not_eq_true', decide_eq_false_iff_not]
      omega
    rw [symbols_between h.undeclared, Walk.findings_append, Walk.findings_cons, List.filter_append,
      List.filter_append, hline, Walk.filter_findings_ne (.inr (by omega)),
      Walk.filter_findings_ne (.inl (by omega)), List.nil_append]
  rw [hrest h, hrest h', h.pass_eq, h'.pass_eq]

end Script

/-! ## Texts with one more line -/

namespace Text

/-- The text with a line put in behind its first `k` lines. -/
def insertLine (k : Nat) (line cs : List Char) : List Char :=
  ['\n'].intercalate ((lines cs).take k ++ line :: (lines cs).drop k)

/-- So it has that line in that place, and the others in their order. -/
theorem lines_insertLine {line : List Char} (hline : '\n' ∉ line) (k : Nat) (cs : List Char) :
    lines (insertLine k line cs) = (lines cs).take k ++ line :: (lines cs).drop k := by
  refine splitOn_intercalate (by simp) fun piece hpiece => ?_
  rcases List.mem_append.1 hpiece with hfront | hback
  · exact not_mem_of_mem_splitOn (List.mem_of_mem_take hfront)
  · rcases List.mem_cons.1 hback with rfl | hback
    · exact hline
    · exact not_mem_of_mem_splitOn (List.mem_of_mem_drop hback)

end Text

namespace Check

/-- A line that is empty to the validator moves the findings on the lines behind it, and changes nothing
else. -/
theorem analyze_insert_silent [Build] (prefs : AnalysisPreferences) (source : String) {k : Nat}
    {silent : List Char} (hk : k ≤ (Text.lines source.toList).length) (hline : '\n' ∉ silent)
    (hsilent : Script.lineOf silent = []) :
    (analyze prefs (String.ofList (Text.insertLine k silent source.toList))).1 =
      (analyze prefs source).1.map (·.pushed k) := by
  -- To validation the inserted line is an empty one.
  have hscript : Script.ofSource (Text.insertLine k silent source.toList) =
      ⟨((Text.lines source.toList).take k).map Script.lineOf ++
        [] :: ((Text.lines source.toList).drop k).map Script.lineOf⟩ := by
    unfold Script.ofSource
    rw [Text.lines_insertLine hline, List.map_append, List.map_cons]
    exact congrArg (fun line => Script.mk (_ ++ line :: _)) hsilent
  have hplain : Script.ofSource source.toList =
      ⟨((Text.lines source.toList).take k).map Script.lineOf ++
        ((Text.lines source.toList).drop k).map Script.lineOf⟩ := by
    rw [← List.map_append, List.take_append_drop]
    rfl
  rw [analyze_eq_take, analyze_eq_take, List.map_take, String.toList_ofList, hscript, hplain,
    Script.findings_insert_nil, List.length_map, List.length_take_of_le hk]

theorem analyze_insert_silent_comment :
    let source := "int x = y\nint x = 1 / 0"
    let silent := "\t // int x = 2\r".toList
    1 ≤ (Text.lines source.toList).length ∧ '\n' ∉ silent ∧ Script.lineOf silent = [] ∧
      (analyze {} source).1.length = 3 ∧
      (analyze {} "int x = y\n\t // int x = 2\r\nint x = 1 / 0").1 =
        (analyze {} source).1.map (·.pushed 1) := by
  intro source silent
  have hk : 1 ≤ (Text.lines source.toList).length := by decide
  have hline : '\n' ∉ silent := by decide
  have hsilent : Script.lineOf silent = [] := by decide +kernel
  have htext : String.ofList (Text.insertLine 1 silent source.toList) =
      "int x = y\n\t // int x = 2\r\nint x = 1 / 0" := by decide +kernel
  have hfound := analyze_insert_silent {} source hk hline hsilent
  rw [htext] at hfound
  exact ⟨hk, hline, hsilent, by decide +kernel, hfound⟩

/-- One ordinary line in place of another changes no finding on the other lines. -/
theorem analyze_change_ordinary [Build] (prefs : AnalysisPreferences) {a b : String}
    {before behind : List (List Char)} {old new : List Char}
    (ha : Text.lines a.toList = before ++ old :: behind)
    (hb : Text.lines b.toList = before ++ new :: behind)
    (hold : Walk.Ordinary (Script.lineOf old)) (hnew : Walk.Ordinary (Script.lineOf new))
    (hroom : (Script.ofSource a.toList).findings.length ≤ Limit.semanticDiagnostics)
    (hroom' : (Script.ofSource b.toList).findings.length ≤ Limit.semanticDiagnostics) :
    (analyze prefs a).1.filter (·.line ≠ before.length + 1) =
      (analyze prefs b).1.filter (·.line ≠ before.length + 1) := by
  have hscript : ∀ {cs : List Char} {line : List Char}, Text.lines cs = before ++ line :: behind →
      Script.ofSource cs =
        ⟨before.map Script.lineOf ++ Script.lineOf line :: behind.map Script.lineOf⟩ := by
    intro cs line h
    rw [← List.map_cons, ← List.map_append, ← h]
    rfl
  have hfound := @Script.filter_findings_ordinary (before.map Script.lineOf)
    (behind.map Script.lineOf) _ _ _ hold hnew
  rw [List.length_map] at hfound
  rw [analyze_eq_take, analyze_eq_take, List.take_of_length_le hroom, List.take_of_length_le hroom',
    hscript ha, hscript hb, hfound]

theorem analyze_change_ordinary_print :
    let a := "try \x7b\nx = 1 / 0\nint x = y\n\x7d catch(e) \x7b\n\x7d"
    let b := "try \x7b\nprint(z, cast(1))\nint x = y\n\x7d catch(e) \x7b\n\x7d"
    let before := ["try \x7b".toList]
    let behind := ["int x = y".toList, "\x7d catch(e) \x7b".toList, "\x7d".toList]
    Text.lines a.toList = before ++ "x = 1 / 0".toList :: behind ∧
      Text.lines b.toList = before ++ "print(z, cast(1))".toList :: behind ∧
      Walk.Ordinary (Script.lineOf "x = 1 / 0".toList) ∧
      Walk.Ordinary (Script.lineOf "print(z, cast(1))".toList) ∧
      (Script.ofSource a.toList).findings.length ≤ Limit.semanticDiagnostics ∧
      (Script.ofSource b.toList).findings.length ≤ Limit.semanticDiagnostics ∧
      (analyze {} a).1.filter (·.line ≠ before.length + 1) =
        (analyze {} b).1.filter (·.line ≠ before.length + 1) := by
  intro a b before behind
  have ha : Text.lines a.toList = before ++ "x = 1 / 0".toList :: behind := by decide +kernel
  have hb : Text.lines b.toList = before ++ "print(z, cast(1))".toList :: behind := by decide +kernel
  have hold : Walk.Ordinary (Script.lineOf "x = 1 / 0".toList) :=
    ⟨by decide +kernel, by decide +kernel, by decide +kernel, by decide +kernel, by decide +kernel⟩
  have hnew : Walk.Ordinary (Script.lineOf "print(z, cast(1))".toList) :=
    ⟨by decide +kernel, by decide +kernel, by decide +kernel, by decide +kernel, by decide +kernel⟩
  have hroom : (Script.ofSource a.toList).findings.length ≤ Limit.semanticDiagnostics := by
    decide +kernel
  have hroom' : (Script.ofSource b.toList).findings.length ≤ Limit.semanticDiagnostics := by
    decide +kernel
  exact ⟨ha, hb, hold, hnew, hroom, hroom',
    analyze_change_ordinary {} ha hb hold hnew hroom hroom'⟩

end Check

end EvlCheck
