/-
Findings away from a line that was changed. Where other lines in the place of the line declare what it
declares and lead the walk to where it led, the lines in front of the place have the findings that they had,
and so have the lines behind it, further down by as many lines as there are more (`Script.findings_stands`).
-/
import EvlCheck.Proofs.Check.Repetitions

namespace EvlCheck

open Text Check

/-- The finding with its line further down. -/
def Diagnostic.lowered (k : Nat) (d : Diagnostic) : Diagnostic := { d with line := d.line + k }

namespace Walk

variable {symbols : Symbols} {ls : List (List Char)} {number : Nat} {w : Walk}

/-- A finding stands on one of the lines. -/
theorem line_of_mem_findings [Build] {d : Diagnostic} (h : d ∈ findings symbols ls number w) :
    number ≤ d.line ∧ d.line < number + ls.length := by
  obtain ⟨k, line, hk, hline, -⟩ := exists_line_of_mem_findings h
  obtain ⟨hlt, -⟩ := List.getElem?_eq_some_iff.1 hline
  omega

/-- The same lines further down have the same findings. -/
theorem findings_lowered [Build] (symbols : Symbols) (ls : List (List Char)) (number k : Nat)
    (w : Walk) :
    findings symbols ls (number + k) w = (findings symbols ls number w).map (·.lowered k) := by
  induction ls generalizing number w with
  | nil => rfl
  | cons line rest ih =>
    have hline : complained (number + k) (w.complaints symbols (number + k) line) =
        (complained number (w.complaints symbols number line)).map (·.lowered k) := by
      rw [complaints_line symbols w (number + k) number, complained, complained, List.map_map]
      rfl
    rw [findings_cons, findings_cons, List.map_append, hline, Nat.add_right_comm, ih]

theorem eq_of_tracker {w w' : Walk} (htracker : w.tracker = w'.tracker)
    (hdeclared : w.declared = w'.declared) : w = w' := by
  cases w
  cases w'
  cases htracker
  cases hdeclared
  rfl

/-- Lines in the place of a line declare what it declares, and behind them the braces stand as they do
behind it. -/
structure Stands (w : Walk) (line : List Char) (others : List (List Char)) : Prop where
  declares : others.filterMap Script.declares? = (Script.declares? line).toList
  tracker : (others.foldl pass w).tracker = (w.pass line).tracker

/-- Such lines lead the walk to where the line leads it. -/
theorem Stands.leads {line : List Char} {others : List (List Char)} (h : w.Stands line others) :
    others.foldl pass w = w.pass line := by
  refine eq_of_tracker h.tracker ?_
  rw [declared_foldl_pass, h.declares, declared_pass]
  cases Script.declares? line <;> rfl

end Walk

namespace Script

variable (before : List (List Char)) (line : List Char) (behind : List (List Char))

/-- The findings on the lines in front of a line. -/
def above [Build] : List Diagnostic := Walk.findings (symbols ⟨before ++ line :: behind⟩) before 1
    {}

/-- The findings on the line. -/
def onLine [Build] : List Diagnostic :=
  complained (before.length + 1) ((before.foldl Walk.pass {}).complaints (symbols ⟨before ++ line :: behind⟩)
    (before.length + 1) line)

/-- The findings on the lines behind the line. -/
def below [Build] : List Diagnostic :=
  Walk.findings (symbols ⟨before ++ line :: behind⟩) behind (before.length + 2)
    ((before.foldl Walk.pass {}).pass line)

theorem findings_parts [Build] : findings ⟨before ++ line :: behind⟩ =
    above before line behind ++ (onLine before line behind ++ below before line behind) := by
  rw [findings, Walk.findings_append, Walk.findings_cons, Nat.add_comm 1]
  rfl

variable {before line behind} {d : Diagnostic}

theorem line_of_mem_above [Build] (h : d ∈ above before line behind) :
    d.line < before.length + 1 := by
  have hline := (Walk.line_of_mem_findings h).2
  omega

theorem line_of_mem_onLine [Build] (h : d ∈ onLine before line behind) :
    d.line = before.length + 1 := by
  obtain ⟨c, -, rfl⟩ := List.mem_map.1 h
  rfl

theorem line_of_mem_below [Build] (h : d ∈ below before line behind) : before.length + 1 < d.line :=
  (Walk.line_of_mem_findings h).1

variable {others : List (List Char)} (h : (before.foldl Walk.pass {}).Stands line others)
include h

theorem symbols_stands : symbols ⟨before ++ (others ++ behind)⟩ = symbols ⟨before ++ line :: behind⟩ :=
  symbols_congr h.declares

variable (behind) in
theorem findings_stands [Build] {k : Nat} (hlength : others.length = k + 1) :
    findings ⟨before ++ (others ++ behind)⟩ = above before line behind ++
      (Walk.findings (symbols ⟨before ++ line :: behind⟩) others (before.length + 1)
        (before.foldl Walk.pass {}) ++ (below before line behind).map (·.lowered k)) := by
  have hnumber : before.length + 2 + k = before.length + 1 + (k + 1) := by omega
  rw [findings, symbols_stands h, Walk.findings_append, Walk.findings_append, Nat.add_comm 1, hlength, below,
    ← Walk.findings_lowered, h.leads, hnumber]
  rfl

end Script

end EvlCheck
