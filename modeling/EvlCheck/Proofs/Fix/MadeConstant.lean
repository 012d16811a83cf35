/-
A declaration that is made a constant. The refactor takes the line apart as it stands and puts it together
with other blanks; validation reads the line without its comment and its semicolon. Both find the same type
and the same name, and the value to validation is the statement behind the equals sign
(`exists_declaredLine`), which stays. So the new line declares the same and leads the walk to the same place,
and of all complaints about a declaration only the one about a name declared once more is not for constants.
-/
import EvlCheck.Fix.Refactor
import EvlCheck.Proofs.Fix.Elsewhere
import EvlCheck.Proofs.Fix.AddedLines
import EvlCheck.Proofs.Fix.Spot

namespace EvlCheck

open Text Check

/-! ## What a declaration is on its line -/

namespace Text

theorem trimStart_trimEnd (cs : List Char) : trimStart (trimEnd cs) = trim cs := by
  obtain ⟨g, g', hg, hg', hcs⟩ := exists_trim cs
  have hfirst : trimStart (trim cs) = trim cs := by
    cases h : trim cs with
    | nil => rfl
    | cons c rest => exact trimStart_cons (head?_trim cs c (by rw [h]; rfl)) rest
  have hend : trimStart (trimEnd (g ++ (trim cs ++ g'))) = trimStart (trim cs) := by
    by_cases hnone : trim cs = []
    · have hblank : ∀ c ∈ g ++ g', isBlank c = true := fun c hc => (List.mem_append.1 hc).elim (hg c) (hg' c)
      rw [hnone, List.nil_append, trimEnd_blanks hblank]
    · have hlast : ∀ c ∈ (g ++ trim cs).getLast?, isBlank c = false := by
        rw [List.getLast?_append_of_ne_nil _ hnone]
        exact getLast?_trim cs
      rw [← List.append_assoc, trimEnd_append hlast, trimEnd_blanks hg', List.append_nil,
        trimStart_blanks_append hg]
  rw [← hcs] at hend
  rw [hend, hfirst]

end Text

namespace Check

section

variable {constant : Bool} {type : ValueType} {name front ws g rest : List Char}
  (hfront : NamedText constant type name front) (hws : ∀ c ∈ ws, isBlank c = true)
  (hg : ∀ c ∈ g, isBlank c = true)
include hfront hws hg

/-- The statement of a line with a type, a name and an equals sign goes on with that of the rest of the
line, behind blanks. -/
theorem exists_statementOf_named (rest : List Char) :
    ∃ tail, statementOf (ws ++ (front ++ (g ++ '=' :: rest))) = front ++ (g ++ '=' :: tail) ∧
      trimStart tail = statementOf rest := by
  refine ⟨trimEnd (dropSuffix ';' (beforeComment rest)), ?_, trimStart_trimEnd _⟩
  have hslash : '/' ∉ front ++ g ++ ['='] := by
    simp only [List.mem_append, not_or]
    exact ⟨⟨hfront.not_mem (by decide) (by decide), fun h => absurd (hg _ h) (by decide)⟩, by decide⟩
  have hfirst : ∀ c ∈ (front ++ g ++ ['=']).head?, isBlank c = false := by
    obtain ⟨c, more, rfl, hc⟩ := hfront.exists_cons
    rintro d ⟨⟩
    exact hc
  have hline := normalizeLine_behind hws hfirst (.of_not_mem hslash) (by decide) (by decide) (rest ++ ['\r'])
  have hended : normalizeLine (ws ++ (front ++ (g ++ '=' :: rest)) ++ ['\r']) =
      statementOf (ws ++ (front ++ (g ++ '=' :: rest))) :=
    normalizeLine_ended (.inr rfl) fun h => absurd h (by decide)
  rw [lineTail, dropSuffix_ended (.inr rfl) fun h => absurd h (by decide)] at hline
  simp only [List.append_assoc, List.cons_append] at hline hended
  rw [← hended, hline]

/-- So it declares the name with that statement as its value. -/
theorem declaration?_statementOf (hrest : statementOf rest ≠ []) :
    declaration? (statementOf (ws ++ (front ++ (g ++ '=' :: rest)))) =
      some ⟨constant, type, String.ofList name, statementOf rest⟩ := by
  obtain ⟨tail, htext, htail⟩ := exists_statementOf_named hfront hws hg rest
  rw [← htail] at hrest ⊢
  rw [htext, hfront.declaration?_append hg hrest]

/-- Braces stand in the value only. -/
theorem braceBalance_statementOf (rest : List Char) :
    TryTracker.braceBalance (statementOf (ws ++ (front ++ (g ++ '=' :: rest)))) =
      TryTracker.braceBalance (statementOf rest) := by
  obtain ⟨tail, htext, htail⟩ := exists_statementOf_named hfront hws hg rest
  obtain ⟨g', hg', hvalue⟩ := exists_trimStart tail
  have hcount : ∀ c, isWord c = false → isBlank c = false → c ≠ '=' →
      (front ++ (g ++ '=' :: tail)).count c = (trimStart tail).count c := by
    intro c hword hblank hequals
    have hnone : ∀ xs : List Char, (∀ d ∈ xs, isBlank d = true) → xs.count c = 0 := by
      intro xs hxs
      refine List.count_eq_zero.2 fun hmem => ?_
      rw [hxs c hmem] at hblank
      cases hblank
    conv_lhs => rw [hvalue]
    rw [List.count_append, List.count_append, List.count_cons_of_ne hequals.symm, List.count_append,
      hnone g hg, hnone g' hg', List.count_eq_zero.2 (hfront.not_mem hword hblank), Nat.zero_add,
      Nat.zero_add, Nat.zero_add]
  rw [htext, ← htail, TryTracker.braceBalance, TryTracker.braceBalance,
    hcount _ (by decide) (by decide) (by decide), hcount _ (by decide) (by decide) (by decide)]

end

/-- A line that declares, taken apart as it stands. -/
theorem exists_declaredLine {line : List Char} {d : Declaration} (h : declaration? (statementOf line) = some d) :
    ∃ ws front g rest, (∀ c ∈ ws, isBlank c = true) ∧ NamedText d.constant d.type d.name.toList front ∧
      (∀ c ∈ g, isBlank c = true) ∧ line = ws ++ (front ++ (g ++ '=' :: rest)) ∧
      d.value = statementOf rest ∧ statementOf rest ≠ [] := by
  obtain ⟨front, g, rest, hfront, hg, htext, hvalue, hne⟩ := exists_declarationText h
  obtain ⟨ws, hws, hline⟩ := exists_trimStart line
  obtain ⟨tail, htail⟩ := statementOf_isPrefix line
  have hparts : line = ws ++ (front ++ (g ++ '=' :: (rest ++ tail))) := by
    rw [hline, ← htail, htext]
    simp only [List.append_assoc, List.cons_append]
  obtain ⟨kept, hkept, htrim⟩ := exists_statementOf_named hfront hws hg (rest ++ tail)
  obtain rfl : rest = kept := by
    rw [← hparts, htext] at hkept
    exact (List.cons.inj (List.append_cancel_left (List.append_cancel_left hkept))).2
  refine ⟨ws, front, g, rest ++ tail, hws, hfront, hg, hparts, ?_, ?_⟩
  · rw [hvalue, htrim]
  · rwa [← htrim]

end Check

/-! ## The line as a constant -/

/-- A line that declares as another one does, but a constant, and is no longer one that can be made one. -/
structure MadeConstant (d : Declaration) (line new : List Char) : Prop where
  declares : declaration? (statementOf new) = some { d with constant := true }
  balance : TryTracker.braceBalance (statementOf new) = TryTracker.braceBalance (statementOf line)
  fits : Fits line new
  refused : Refactor.plainDeclaration? new = none

namespace Refactor

/-- The declaration of a constant in place of a line. -/
def constantLine (ws : List Char) (type : ValueType) (name value : List Char) : List Char :=
  ws ++ "const ".toList ++ type.text.toList ++ ' ' :: name ++ " = ".toList ++ value

theorem plainDeclaration?_const (ws rest : List Char) (hws : ∀ c ∈ ws, isBlank c = true) :
    plainDeclaration? (ws ++ ("const".toList ++ rest)) = none := by
  unfold plainDeclaration?
  rw [trimStart_blanks_append hws]
  rfl

theorem plainDeclaration?_append {type : ValueType} {name front ws g rest : List Char}
    (hfront : NamedText false type name front) (hws : ∀ c ∈ ws, isBlank c = true)
    (hg : ∀ c ∈ g, isBlank c = true) (hrest : trimStart rest ≠ []) (hfree : '\n' ∉ rest) :
    plainDeclaration? (ws ++ (front ++ (g ++ '=' :: rest))) = some (ws, type, name, trimStart rest) := by
  have hends : ∀ c ∈ (g ++ '=' :: rest).head?, isWord c = false := by
    refine head?_blanks_append hg ?_
    rintro c ⟨⟩
    decide
  have hvalue : value? rest = some (trimStart rest) := by
    have hfeed : (trimStart rest).contains '\n' = false := by
      rw [Bool.eq_false_iff]
      exact fun h => hfree ((List.dropWhile_sublist _).subset (List.contains_iff_mem.1 h))
    unfold value?
    split
    · next hnil => exact absurd hnil hrest
    · rw [if_neg (by rw [hfeed]; decide)]
  have hblanks : (ws ++ (front ++ (g ++ '=' :: rest))).takeWhile isBlank = ws := by
    obtain ⟨c, more, rfl, hc⟩ := hfront.exists_cons
    rw [List.takeWhile_append_of_pos hws, List.cons_append, List.takeWhile_cons_of_neg (by simp [hc]),
      List.append_nil]
  unfold plainDeclaration?
  rw [hblanks, trimStart_blanks_append hws]
  cases hfront with
  | @mk head gap head_text blank ne word name_ne =>
    cases head_text
    have hstart : trimStart (type.text.toList ++ (gap ++ (name ++ (g ++ '=' :: rest)))) =
        type.text.toList ++ (gap ++ (name ++ (g ++ '=' :: rest))) := by cases type <;> rfl
    have hname : trimStart (name ++ (g ++ '=' :: rest)) = name ++ (g ++ '=' :: rest) := by
      obtain ⟨c, w, rfl⟩ := List.exists_cons_of_ne_nil name_ne
      exact trimStart_cons (isBlank_of_isWord (word c List.mem_cons_self)) _
    simp only [List.append_assoc, hstart, type?_text, Option.bind_eq_bind, Option.bind_some,
      skipBlanks?_blanks_append blank ne, hname, word?_append word hends name_ne,
      afterBlanks?_blanks_append hg, Option.pure_def]
    rw [afterBlanks?_cons (by decide), if_pos rfl, Option.bind_some, hvalue, Option.bind_some]

/-- The two refactors of a line are told apart by their titles. -/
theorem title_ne_of_mem_intToFloat {n version : Nat} {line : List Char} {a : CodeAction}
    (ha : a ∈ intToFloat n line version) (name : String) : a.title ≠ s!"Make '{name}' a constant (const)" := by
  unfold intToFloat at ha
  split at ha
  · obtain rfl := List.mem_singleton.1 ha
    have hfirst : ∀ rest, ("Make '".toList ++ rest).head? = some 'M' := fun _ => rfl
    intro h
    have htext := congrArg (·.toList.head?) h
    simp only [CodeAction.refactor, String.toList_append, List.append_assoc] at htext
    exact absurd (htext.trans (hfirst _)) (by decide)
  · cases ha

theorem constantLine_eq (ws : List Char) (type : ValueType) (name value : List Char) :
    constantLine ws type name value = ws ++ ("const".toList ++ ([' '] ++ type.text.toList) ++ ([' '] ++ name) ++
      ([' '] ++ '=' :: ([' '] ++ value))) := by
  have hconst : "const ".toList = "const".toList ++ [' '] := rfl
  have hequals : " = ".toList = [' ', '=', ' '] := rfl
  unfold constantLine
  rw [hconst, hequals]
  simp only [List.append_assoc, List.cons_append, List.nil_append]

/-- The value stays as it stands, so the end of the line does. -/
theorem fits_constantLine {type : ValueType} {name front ws g rest : List Char}
    (hfront : NamedText false type name front) (hrest : trimStart rest ≠ [])
    (hfree : '\n' ∉ ws ++ (front ++ (g ++ '=' :: rest))) :
    Fits (ws ++ (front ++ (g ++ '=' :: rest))) (constantLine ws type name (trimStart rest)) := by
  obtain ⟨g', -, hvalue⟩ := exists_trimStart rest
  have hline : ws ++ (front ++ (g ++ '=' :: rest)) = ws ++ (front ++ (g ++ '=' :: g')) ++ trimStart rest := by
    conv_lhs => rw [hvalue]
    simp only [List.append_assoc, List.cons_append]
  have hparts : '\n' ∉ ws ∧ '\n' ∉ type.text.toList ∧ '\n' ∉ name := by
    cases hfront with
    | mk head_text =>
      cases head_text
      simp only [List.mem_append, not_or] at hfree
      exact ⟨hfree.1, hfree.2.1.1, hfree.2.1.2.2⟩
  rw [hline] at hfree ⊢
  unfold constantLine
  refine .of_suffix hrest hfree ?_
  simp only [List.mem_append, List.mem_cons, not_or]
  exact ⟨⟨⟨⟨hparts.1, by decide⟩, hparts.2.1⟩, by decide, hparts.2.2⟩, by decide⟩

/-- The refactor of a line that declares, if there is one. -/
theorem exists_of_mem_makeConstant {n version : Nat} {line : List Char} {d : Declaration} {a : CodeAction}
    (hd : declaration? (statementOf line) = some d) (hfree : '\n' ∉ line)
    (ha : a ∈ makeConstant n line version) :
    ∃ new, MadeConstant d line new ∧ a = .refactor s!"Make '{d.name}' a constant (const)"
      ⟨.wholeLine n line, String.ofList new, version⟩ := by
  obtain ⟨ws, front, g, rest, hws, hfront, hg, rfl, hvalue, hne⟩ := exists_declaredLine hd
  obtain ⟨constant, type, name, value⟩ := d
  obtain rfl : value = statementOf rest := hvalue
  cases constant with
  | true =>
    -- a constant is not offered
    exfalso
    cases hfront with
    | mk head_text =>
      cases head_text
      unfold makeConstant at ha
      simp only [List.append_assoc] at ha
      rw [plainDeclaration?_const ws _ hws] at ha
      cases ha
  | false =>
    have hname : (∀ c ∈ name.toList, isWord c = true) ∧ name.toList ≠ [] := by
      cases hfront with
      | mk _ _ _ word ne => exact ⟨word, ne⟩
    have hfeed : '\n' ∉ rest := fun h =>
      hfree (List.mem_append_right _ (List.mem_append_right _ (List.mem_append_right _ (.tail _ h))))
    have hstart : trimStart rest ≠ [] := by
      intro hnil
      obtain ⟨more, hmore⟩ := statementOf_isPrefix rest
      rw [hnil] at hmore
      exact hne (List.append_eq_nil_iff.1 hmore).1
    have hblank : ∀ c ∈ [' '], isBlank c = true := List.forall_mem_singleton.2 (by decide)
    have hconst : NamedText true type name.toList
        ("const".toList ++ ([' '] ++ type.text.toList) ++ ([' '] ++ name.toList)) :=
      .mk (.const type hblank (List.cons_ne_nil _ _)) hblank (List.cons_ne_nil _ _) hname.1 hname.2
    obtain ⟨g', hg', hrest⟩ := exists_trimStart rest
    have hkept : statementOf ([' '] ++ trimStart rest) = statementOf rest := by
      conv_rhs => rw [hrest, statementOf_blanks_append hg']
      rw [statementOf_blanks_append hblank]
    refine ⟨constantLine ws type name.toList (trimStart rest), ?_, ?_⟩
    · have hfits := fits_constantLine hfront hstart hfree
      rw [constantLine_eq] at hfits ⊢
      refine ⟨?_, ?_, hfits, ?_⟩
      · rw [declaration?_statementOf hconst hws hblank (hkept ▸ hne), hkept, String.ofList_toList]
      · rw [braceBalance_statementOf hconst hws hblank, braceBalance_statementOf hfront hws hg, hkept]
      · simp only [List.append_assoc]
        exact plainDeclaration?_const ws _ hws
    · unfold makeConstant at ha
      rw [plainDeclaration?_append hfront hws hg hstart hfeed] at ha
      obtain rfl := List.mem_singleton.1 ha
      rw [String.ofList_toList]
      rfl

end Refactor

/-! ## What is left of the findings -/

/-- Lines that are no structure count by their braces. -/
theorem TryTracker.observe_congr {t : TryTracker} {cs cs' : List Char} (h : isStructure cs = false)
    (h' : isStructure cs' = false) (hbalance : braceBalance cs' = braceBalance cs) :
    t.observe cs' = t.observe cs := by
  have hplain : ∀ {cs : List Char}, isStructure cs = false → t.observe cs =
      (⟨t.depth + braceBalance cs, t.opened.filter fun start => start < t.depth + braceBalance cs⟩, false) := by
    intro cs h
    unfold isStructure at h
    simp only [Bool.or_eq_false_iff] at h
    unfold observe
    dsimp only
    rw [h.1.1.1, h.1.1.2, h.1.2, h.2]
    rfl
  rw [hplain h, hplain h', hbalance]

namespace Walk

variable {line new : List Char} {d : Declaration} (hd : declaration? line = some d)
  (hconstant : declaration? new = some { d with constant := true })
  (hbalance : TryTracker.braceBalance new = TryTracker.braceBalance line)
include hd hconstant hbalance

/-- The lines lead to the same place. -/
theorem stands_constant (w : Walk) : w.Stands line [new] where
  declares := by
    rw [List.filterMap_cons, Script.declares?, hconstant, Script.declares?, hd]
    rfl
  tracker := by
    have hne : line ≠ [] ∧ new ≠ [] := by
      constructor <;> rintro rfl
      · cases hd
      · cases hconstant
    rw [List.foldl_cons, List.foldl_nil, tracker_pass hne.1, tracker_pass hne.2,
      TryTracker.observe_congr (isStructure_of_declaration? hd) (isStructure_of_declaration? hconstant) hbalance]

/-- A constant is told what the variable is told, but that its name is declared once more. -/
theorem complained_constant [Build] (symbols : Symbols) (w : Walk) (number : Nat) :
    complained number (w.complaints symbols number new) =
      (complained number (w.complaints symbols number line)).filter fun e =>
        ¬(e.line = number ∧ e.message = (Complaint.repeated d.name).message) := by
  have hrest : declarationComplaints symbols number false (w.tracker.observe line).1.protects
      { d with constant := true } = declarationComplaints symbols number false (w.tracker.observe line).1.protects d := by
    simp only [declarationComplaints, Bool.and_false]
    rfl
  rw [complaints_declaration hconstant (isStructure_of_declaration? hconstant),
    complaints_declaration hd (isStructure_of_declaration? hd),
    TryTracker.observe_congr (isStructure_of_declaration? hd) (isStructure_of_declaration? hconstant) hbalance,
    declarationComplaints_eq, declarationComplaints_eq symbols number _ _ d, hrest, complained_append,
    complained_append, List.filter_append]
  have hkept : ∀ e ∈ complained number (declarationComplaints symbols number false
      (w.tracker.observe line).1.protects d), ¬(e.line = number ∧ e.message = (Complaint.repeated d.name).message) := by
    refine List.forall_mem_map.2 fun c hc h => topic_ne_repeated hc ?_
    rw [Complaint.eq_repeated h.2]
    rfl
  have hnone : (complained number (if !d.constant && w.declared.contains d.name then [.repeated d.name] else [])).filter
      (fun e => ¬(e.line = number ∧ e.message = (Complaint.repeated d.name).message)) = [] := by
    split
    · exact List.filter_eq_nil_iff.2 (List.forall_mem_singleton.2 (by simp))
    · rfl
  rw [hnone, List.filter_eq_self.2 fun e he => decide_eq_true (hkept e he)]
  rfl

end Walk

/-- The findings on a text with the line as a constant. -/
theorem Script.findings_constant [Build] (before behind : List (List Char)) {line new : List Char}
    {d : Declaration} (hd : declaration? line = some d)
    (hconstant : declaration? new = some { d with constant := true })
    (hbalance : TryTracker.braceBalance new = TryTracker.braceBalance line) :
    findings ⟨before ++ new :: behind⟩ = (findings ⟨before ++ line :: behind⟩).filter fun e =>
      ¬(e.line = before.length + 1 ∧ e.message = (Complaint.repeated d.name).message) := by
  have hfound := findings_stands behind (k := 0)
    (Walk.stands_constant hd hconstant hbalance (before.foldl Walk.pass {})) rfl
  have hbelow : (below before line behind).map (·.lowered 0) = below before line behind := List.map_id _
  have hother : ∀ es : List Diagnostic, (∀ e ∈ es, e.line ≠ before.length + 1) →
      es.filter (fun e => ¬(e.line = before.length + 1 ∧ e.message = (Complaint.repeated d.name).message)) = es :=
    fun es h => List.filter_eq_self.2 fun e he => decide_eq_true fun hline => h e he hline.1
  rw [List.singleton_append, Walk.findings_cons, Walk.complained_constant hd hconstant hbalance, hbelow] at hfound
  rw [hfound, findings_parts, List.filter_append, List.filter_append,
    hother (above before line behind) fun e he => (line_of_mem_above he).ne,
    hother (below before line behind) fun e he => (line_of_mem_below he).ne']
  unfold onLine Walk.findings
  rw [List.append_nil]

/-- A declaration that is made a constant keeps its findings and those of the other lines. Take a line with a
declaration for which the refactor is offered. It can be made, and is not offered for the new line. If
neither line is too long, and all findings are shown, the new text has the findings of the old one, but for
the one that tells on the line that the name is declared already. -/
theorem constant_keeps_findings [Build] (prefs : AnalysisPreferences) {source : String} {k : Nat}
    {raw : List Char} (hraw : (Text.lines source.toList)[k]? = some raw)
    (hshort : raw.length ≤ Limit.lineChars) (hdeclared : (declaration? (normalizeLine raw)).isSome)
    {version : Nat} {a : CodeAction}
    (ha : a ∈ Refactor.ofLine (k + 1) (dropSuffix '\r' raw) version) (name : String)
    (htitle : a.title = s!"Make '{name}' a constant (const)") :
    ∃ out new, applyEdits source.toList a.edits = .ok out ∧ (Text.lines out)[k]? = some new ∧
      (∀ version', ∀ b ∈ Refactor.ofLine (k + 1) (dropSuffix '\r' new) version', ∀ other : String,
        b.title ≠ s!"Make '{other}' a constant (const)") ∧
      (new.length ≤ Limit.lineChars →
        (Script.ofSource source.toList).findings.length ≤ Limit.semanticDiagnostics →
        (Script.ofSource out).findings.length ≤ Limit.semanticDiagnostics →
        (analyze prefs (String.ofList out)).1 = (analyze prefs source).1.filter fun e =>
          ¬(e.line = k + 1 ∧ e.message = s!"Variable '{name}' is already declared")) := by
  have hline : line? source.toList (k + 1) = some (dropSuffix '\r' raw) := by
    rw [line?, lineIn?, if_neg (Nat.succ_ne_zero k), List.getElem?_toArray, Nat.add_sub_cancel, hraw]
    rfl
  generalize dropSuffix '\r' raw = line at hline ha
  obtain ⟨before, terminator, after, hat⟩ := exists_lineAt hline
  obtain ⟨front, ending, back, haround, hnumber, hbare⟩ := hat.linesAround
  have hlines := hat.lines_eq haround
  obtain rfl : front.length = k := Nat.succ.inj hnumber
  obtain rfl : raw = line ++ ending := by
    rw [hlines, List.getElem?_append_right (Nat.le_refl _), Nat.sub_self] at hraw
    exact (Option.some.inj hraw).symm
  obtain ⟨d, hd⟩ := Option.isSome_iff_exists.1 hdeclared
  rw [normalizeLine_ended haround.ending_eq hbare] at hd
  -- The title tells the action from the other one of a line.
  have hmake := (List.mem_append.1 ha).resolve_right fun h => Refactor.title_ne_of_mem_intToFloat h name htitle
  obtain ⟨new, hnew, rfl⟩ := Refactor.exists_of_mem_makeConstant hd hat.unbroken hmake
  obtain rfl : d.name = name := by
    have htext := congrArg String.toList htitle
    simp only [CodeAction.refactor, String.toList_append, List.append_assoc] at htext
    exact String.toList_inj.1 (List.append_cancel_right (List.append_cancel_left htext))
  have hout : Text.lines (before ++ (String.ofList new).toList ++ terminator ++ after) =
      front ++ (new ++ ending) :: back := by
    rw [String.toList_ofList, List.append_assoc, List.append_assoc, haround.lines_before,
      haround.lines_line new hnew.fits.unbroken]
  have hbare' : ending = [] → new.getLast? ≠ some '\r' := fun h => hnew.fits.bare (hbare h)
  refine ⟨_, new ++ ending, applyEdits_wholeLine hat _ _, ?_, ?_, ?_⟩
  · rw [hout, List.getElem?_append_right (Nat.le_refl _), Nat.sub_self]
    rfl
  · intro version' b hb other
    rw [dropSuffix_ended haround.ending_eq hbare'] at hb
    rcases List.mem_append.1 hb with hb | hb
    · unfold Refactor.makeConstant at hb
      rw [hnew.refused] at hb
      cases hb
    · exact Refactor.title_ne_of_mem_intToFloat hb other
  · intro hfits hroom hroom'
    have hold : Script.ofSource source.toList = ⟨_⟩ := congrArg Script.mk (Script.lines_ofSource hlines)
    have hnow : Script.ofSource _ = ⟨_⟩ := congrArg Script.mk (Script.lines_ofSource hout)
    rw [List.map_append, List.map_cons, Script.lineOf_ended haround.ending_eq hbare hshort] at hold
    rw [List.map_append, List.map_cons, Script.lineOf_ended haround.ending_eq hbare' hfits] at hnow
    -- The walk passes the two lines alike; only the complaint about a repetition is gone.
    have hfound := Script.findings_constant (front.map Script.lineOf) (back.map Script.lineOf)
      hd hnew.declares hnew.balance
    rw [← hold, ← hnow, List.length_map] at hfound
    rw [analyze_eq_take, analyze_eq_take, List.take_of_length_le hroom, String.toList_ofList,
      List.take_of_length_le hroom', hfound]
    rfl

/-- A declaration of a name that is declared above, with a comment that has a semicolon, between other lines
with findings. -/
theorem constant_keeps_findings_comment :
    let source := "int x = 1\r\n\tint  x=2.5/0 ; // y; \r\nfloat z = x + y"
    let raw := "\tint  x=2.5/0 ; // y; \r".toList
    let out := "int x = 1\r\n\tconst int x = 2.5/0 ; // y; \r\nfloat z = x + y"
    (Text.lines source.toList)[1]? = some raw ∧ raw.length ≤ Limit.lineChars ∧
      (declaration? (normalizeLine raw)).isSome ∧
      (Script.ofSource source.toList).findings.length ≤ Limit.semanticDiagnostics ∧
      (Script.ofSource out.toList).findings.length ≤ Limit.semanticDiagnostics ∧
      ∃ a ∈ Refactor.ofLine 2 (dropSuffix '\r' raw) 1, a.title = "Make 'x' a constant (const)" ∧
        applyEdits source.toList a.edits = .ok out.toList ∧
        (analyze {} out).1 = (analyze {} source).1.filter (fun e =>
          ¬(e.line = 2 ∧ e.message = "Variable 'x' is already declared")) ∧
        Diagnostic.warning 2 "Variable 'x' is already declared" ∈ (analyze {} source).1 ∧
        (analyze {} out).1.length + 1 = (analyze {} source).1.length := by
  intro source raw out
  have hspelt : raw = _ := String.toList_ofList
  have hraw : (Text.lines source.toList)[1]? = some raw := by
    rw [String.toList_ofList, hspelt]
    decide
  have hshort : raw.length ≤ Limit.lineChars := by
    rw [hspelt]
    decide
  have hdeclared : (declaration? (normalizeLine raw)).isSome := by
    rw [hspelt]
    decide
  have hfound : (Script.ofSource source.toList).findings =
      [.warning 2 "Variable 'x' is already declared", .error 2 "Division by zero detected",
        .warning 3 "Reference to undeclared identifier 'y'"] := by
    rw [String.toList_ofList]
    decide
  have hleft : (Script.ofSource out.toList).findings =
      [.error 2 "Division by zero detected", .warning 3 "Reference to undeclared identifier 'y'"] := by
    rw [String.toList_ofList]
    decide
  have hroom : (Script.ofSource source.toList).findings.length ≤ Limit.semanticDiagnostics := by
    rw [hfound]
    decide
  have hroom' : (Script.ofSource out.toList).findings.length ≤ Limit.semanticDiagnostics := by
    rw [hleft]
    decide
  let a := CodeAction.refactor "Make 'x' a constant (const)"
    ⟨.wholeLine 2 (dropSuffix '\r' raw), "\tconst int x = 2.5/0 ; // y; ", 1⟩
  have ha : a ∈ Refactor.ofLine 2 (dropSuffix '\r' raw) 1 := by
    simp only [a]
    rw [hspelt]
    decide
  have hat : LineAt source.toList 2 "int x = 1\r\n".toList (dropSuffix '\r' raw) "\r\n".toList
      "float z = x + y".toList := by
    rw [hspelt, String.toList_ofList]
    exact ⟨by decide, by decide, .inr rfl, by decide, .inr (.inl rfl), fun _ => by decide⟩
  obtain ⟨result, new, hresult, hnew, -, hfewer⟩ :=
    constant_keeps_findings {} hraw hshort hdeclared ha "x" rfl
  obtain rfl : result = out.toList := by
    rw [Except.ok.inj (hresult.symm.trans (applyEdits_wholeLine hat _ _)), String.toList_ofList,
      String.toList_ofList]
    decide
  have hnew' : new.length ≤ Limit.lineChars := by
    have hread : (Text.lines out.toList)[1]? = some "\tconst int x = 2.5/0 ; // y; \r".toList := by
      rw [String.toList_ofList, String.toList_ofList]
      decide
    rw [Option.some.inj (hnew.symm.trans hread)]
    decide
  have hkept := hfewer hnew' hroom hroom'
  rw [String.ofList_toList] at hkept
  have hbefore : (analyze {} source).1 = _ := (analyze_eq_take ..).trans (List.take_of_length_le hroom)
  have hafter : (analyze {} out).1 = _ := (analyze_eq_take ..).trans (List.take_of_length_le hroom')
  refine ⟨hraw, hshort, hdeclared, hroom, hroom', a, ha, rfl, hresult, hkept, ?_, ?_⟩
  · rw [hbefore, hfound]
    exact List.mem_cons_self
  · rw [hbefore, hafter, hfound, hleft]
    rfl

end EvlCheck
