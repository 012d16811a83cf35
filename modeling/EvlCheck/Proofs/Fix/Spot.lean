/-
A finding at its place: the lines around it, where the walk stands in front of it, and the complaint that
it tells of. A text with other lines in the place has fewer findings with the message if these lines have
none, the lines behind them are told the same as before, and so are all lines whose complaints depend
on the types of variables.
-/
import EvlCheck.Proofs.Check.LineOrder
import EvlCheck.Proofs.Fix.FixedLine
import EvlCheck.Proofs.Fix.Relines

namespace EvlCheck

open Text Check

/-- A finding on a line of a text: what stands around the line, and the complaint that it comes of. -/
structure Spot [Build] (source : List Char) (d : Diagnostic) (line : List Char) where
  before : List Char
  terminator : List Char
  after : List Char
  front : List (List Char)
  ending : List Char
  back : List (List Char)
  complaint : Complaint
  lineAt : LineAt source d.line before line terminator after
  around : LinesAround before terminator after front ending back
  bare : ending = [] → line.getLast? ≠ some '\r'
  number : front.length + 1 = d.line
  short : (line ++ ending).length ≤ Limit.lineChars
  mem : complaint ∈ ((front.map Script.lineOf).foldl Walk.pass {}).complaints
    (Script.ofSource source).symbols 0 (statementOf line)
  message : complaint.message = d.message

namespace Script

theorem lineOf_ended [Build] {line ending : List Char} (hending : ending = [] ∨ ending = ['\r'])
    (hbare : ending = [] → line.getLast? ≠ some '\r')
    (hshort : (line ++ ending).length ≤ Limit.lineChars) :
    lineOf (line ++ ending) = statementOf line := by
  unfold lineOf
  rw [if_neg (by omega), normalizeLine_ended hending hbare]

/-- What validation reads of a line is part of it. -/
theorem lineOf_isInfix [Build] (line : List Char) : lineOf line <:+: line := by
  unfold lineOf
  split
  · exact List.nil_infix
  · exact ((trim_isInfix _).trans (dropSuffix_starts _ _).isInfix).trans
      ((beforeComment_starts _).isInfix.trans (dropSuffix_starts _ _).isInfix)

theorem lines_ofSource [Build] {source : List Char} {ls : List (List Char)}
    (h : Text.lines source = ls) :
    (ofSource source).lines = ls.map lineOf := by
  rw [← h]
  rfl

end Script

/-- A text that may stand in the place of a line. -/
structure Fits (line new : List Char) : Prop where
  unbroken : '\n' ∉ new
  bare : line.getLast? ≠ some '\r' → new.getLast? ≠ some '\r'

namespace Fits

variable {xs ys tail : List Char}

/-- Another beginning of a line. -/
theorem of_suffix (htail : tail ≠ []) (hline : '\n' ∉ xs ++ tail) (hys : '\n' ∉ ys) :
    Fits (xs ++ tail) (ys ++ tail) where
  unbroken := by
    rw [List.mem_append, not_or] at hline ⊢
    exact ⟨hys, hline.2⟩
  bare := by
    rw [List.getLast?_append_of_ne_nil _ htail, List.getLast?_append_of_ne_nil _ htail]
    exact id

/-- Another end of a line. -/
theorem of_last {line new : List Char} {v : Char} (hnew : '\n' ∉ new) (hlast : new.getLast? = some v)
    (hv : v ≠ '\r') : Fits line new where
  unbroken := hnew
  bare _ := by
    rw [hlast]
    simpa using hv

end Fits

namespace Spot

variable [Build] {source : List Char} {d : Diagnostic} {line : List Char} (s : Spot source d line)

/-- Where the walk stands in front of the line. -/
def walk : Walk := (s.front.map Script.lineOf).foldl Walk.pass {}

theorem lines_eq : (Script.ofSource source).lines =
    s.front.map Script.lineOf ++ statementOf line :: s.back.map Script.lineOf := by
  rw [Script.lines_ofSource (s.lineAt.lines_eq s.around), List.map_append, List.map_cons,
    Script.lineOf_ended s.around.ending_eq s.bare s.short]

/-- The lines that stand around the line. -/
theorem eraseIdx_lines : (Text.lines source).eraseIdx (d.line - 1) = s.front ++ s.back := by
  rw [s.lineAt.lines_eq s.around, ← s.number, Nat.add_sub_cancel,
    List.eraseIdx_append_of_length_le (Nat.le_refl _), Nat.sub_self, List.eraseIdx_cons_zero]

theorem told_pos : 0 < s.walk.told d.message (Script.ofSource source).symbols (statementOf line) :=
  List.countP_pos_iff.2 ⟨s.complaint, s.mem, decide_eq_true s.message⟩

theorem isAbout : IsAbout d.message s.complaint.topic :=
  s.message ▸ Complaint.isAbout (Walk.named_of_mem_complaints s.mem)

/-- Other lines in the place of the line. -/
theorem tally_lt {out : List Char} {others : List (List Char)}
    (hlines : (Script.ofSource out).lines =
      s.front.map Script.lineOf ++ (others ++ s.back.map Script.lineOf))
    (hsymbols : s.complaint.topic.usesTypes = true →
      others.filterMap Script.declares? = (Script.declares? (statementOf line)).toList)
    (hagree : Walk.Agree s.complaint.topic (s.walk.pass (statementOf line))
      (others.foldl Walk.pass s.walk))
    (hsilent : s.walk.tally d.message (Script.ofSource out).symbols others = 0) :
    (Script.ofSource out).tally d.message < (Script.ofSource source).tally d.message := by
  have hout : Script.ofSource out =
      ⟨s.front.map Script.lineOf ++ (others ++ s.back.map Script.lineOf)⟩ := congrArg Script.mk hlines
  have hold : Script.ofSource source =
      ⟨s.front.map Script.lineOf ++ statementOf line :: s.back.map Script.lineOf⟩ :=
    congrArg Script.mk s.lines_eq
  have hpos := s.told_pos
  rw [hout] at hsilent ⊢
  rw [hold] at hpos ⊢
  refine Script.tally_lt s.isAbout (fun ht => Script.symbols_congr (hsymbols ht)) hagree ?_
  unfold walk at hsilent hpos
  rw [hsilent]
  exact hpos

/-- The lines with another one in the place of the line. -/
theorem lines_replaced {new : List Char} (hfits : Fits line new) (hshort : new.length < Limit.lineChars) :
    (Script.ofSource (s.before ++ new ++ s.terminator ++ s.after)).lines =
      s.front.map Script.lineOf ++ ([statementOf new] ++ s.back.map Script.lineOf) := by
  have hlength : (new ++ s.ending).length ≤ Limit.lineChars := by
    rw [List.length_append]
    rcases s.around.ending_eq with hending | hending <;> rw [hending] <;> simp <;> omega
  have hlines : Text.lines (s.before ++ new ++ s.terminator ++ s.after) =
      s.front ++ (new ++ s.ending) :: s.back := by
    rw [List.append_assoc, List.append_assoc, s.around.lines_before,
      s.around.lines_line new hfits.unbroken]
  rw [Script.lines_ofSource hlines, List.map_append, List.map_cons,
    Script.lineOf_ended s.around.ending_eq (fun h => hfits.bare (s.bare h)) hlength]
  rfl

/-- Another line in the place of the line, which has no finding with the message wherever it stands. -/
theorem tally_replaced {new : List Char} (hfits : Fits line new)
    (hshort : new.length < Limit.lineChars)
    (ht : s.complaint.topic ≠ .division ∧ s.complaint.topic ≠ .unrecognized ∧
      s.complaint.topic ≠ .repeated)
    (hdeclares : s.complaint.topic.usesTypes = true →
      Script.declares? (statementOf new) = Script.declares? (statementOf line))
    (hsilent : ∀ w (script : Script), Walk.told d.message script.symbols w (statementOf new) = 0) :
    (Script.ofSource (s.before ++ new ++ s.terminator ++ s.after)).tally d.message <
      (Script.ofSource source).tally d.message := by
  refine s.tally_lt (s.lines_replaced hfits hshort) (fun htypes => ?_) ⟨fun h => ?_, fun h => ?_⟩ ?_
  · rw [List.filterMap_cons, hdeclares htypes]
    cases Script.declares? (statementOf line) <;> rfl
  · rcases h with h | h
    · exact absurd h ht.1
    · exact absurd h ht.2.1
  · exact absurd h ht.2.2
  · rw [Walk.tally, hsilent]
    rfl

/-- Nothing is told of the new line on the topic of the finding. -/
theorem tally_silent {new : List Char} (hfits : Fits line new) (hshort : new.length < Limit.lineChars)
    (ht : s.complaint.topic ≠ .division ∧ s.complaint.topic ≠ .unrecognized ∧
      s.complaint.topic ≠ .repeated)
    (hdeclares : s.complaint.topic.usesTypes = true →
      Script.declares? (statementOf new) = Script.declares? (statementOf line))
    (hsilent : ∀ script : Script, Silent s.complaint.topic script.symbols (statementOf new)) :
    (Script.ofSource (s.before ++ new ++ s.terminator ++ s.after)).tally d.message <
      (Script.ofSource source).tally d.message :=
  s.tally_replaced hfits hshort ht hdeclares fun w script => (hsilent script).told_eq_zero s.isAbout w

end Spot

/-- The line of a finding is one of the text. -/
theorem exists_line?_of_mem_analyze [Build] {prefs : AnalysisPreferences} {source : String}
    {d : Diagnostic} (hd : d ∈ (analyze prefs source).1) :
    ∃ line, line? source.toList d.line = some line := by
  rw [analyze_eq_take] at hd
  obtain ⟨hpos, raw, hraw, -⟩ := Script.exists_line_of_mem_findings (List.mem_of_mem_take hd)
  refine ⟨dropSuffix '\r' raw, ?_⟩
  rw [line?, lineIn?, if_neg (by omega), List.getElem?_toArray, hraw]
  rfl

/-- Each finding that an analysis shows has its place in the text. -/
theorem nonempty_spot [Build] {prefs : AnalysisPreferences} {source : String} {d : Diagnostic}
    {line : List Char} (hd : d ∈ (analyze prefs source).1)
    (hline : line? source.toList d.line = some line) : Nonempty (Spot source.toList d line) := by
  obtain ⟨before, terminator, after, hat⟩ := exists_lineAt hline
  obtain ⟨front, ending, back, haround, hnumber, hbare⟩ := hat.linesAround
  have hlines := Script.lines_ofSource (hat.lines_eq haround)
  rw [List.map_append, List.map_cons] at hlines
  rw [analyze_eq_take] at hd
  have hfinding := List.mem_of_mem_take hd
  unfold Script.findings at hfinding
  rw [hlines] at hfinding
  have hon := Walk.mem_findings_on.1 ⟨hfinding, by rw [List.length_map]; omega⟩
  rw [Walk.findings_step, Walk.complaints_number] at hon
  obtain ⟨complaint, hmem, hcomplaint⟩ := List.mem_map.1 hon
  have hshort : (line ++ ending).length ≤ Limit.lineChars := by
    by_contra hlong
    rw [Script.lineOf, if_pos (Nat.lt_of_not_le hlong)] at hmem
    cases hmem
  rw [Script.lineOf_ended haround.ending_eq hbare hshort] at hmem
  exact ⟨⟨before, terminator, after, front, ending, back, complaint, hat, haround, hbare, hnumber, hshort,
    hmem, by rw [← hcomplaint, Complaint.message_diagnostic]⟩⟩

end EvlCheck
