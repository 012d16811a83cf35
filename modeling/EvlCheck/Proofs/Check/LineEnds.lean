/-
Line ends of two characters. Where a carriage return stands in front of each line feed, it belongs to
the line for as long as the text is cut at its line feeds; the validator takes it off before it looks
at what a line says, but not before it measures the line. So a line that just fits loses its place: to
the validator a text with such line ends is the text with plain ones in which every full line is empty
(`ofSource_withReturns`), and there is no other difference.
-/
import EvlCheck.Proofs.Check.Findings
import EvlCheck.Proofs.Fix.LineAt

namespace EvlCheck

open Text Check

namespace Text

/-! ## Lines put together -/

theorem not_mem_of_mem_splitOn {sep : Char} {cs piece : List Char} (h : piece ∈ splitOn sep cs) :
    sep ∉ piece := by
  obtain ⟨k, hk⟩ := List.mem_iff_getElem?.1 h
  obtain ⟨-, -, -, -, -, hpiece, -⟩ := exists_of_getElem?_splitOn hk
  exact hpiece

/-- Pieces without a separator are found again in the text that they make up. -/
theorem splitOn_intercalate {sep : Char} {pieces : List (List Char)} (hne : pieces ≠ [])
    (h : ∀ piece ∈ pieces, sep ∉ piece) : splitOn sep ([sep].intercalate pieces) = pieces := by
  induction pieces with
  | nil => exact absurd rfl hne
  | cons piece rest ih =>
    rw [List.forall_mem_cons] at h
    cases rest with
    | nil =>
      rw [List.intercalate_singleton]
      exact splitOn_of_not_mem h.1
    | cons next rest =>
      rw [List.intercalate_cons_cons, List.append_assoc, List.singleton_append,
        splitOn_append_cons h.1, ih (List.cons_ne_nil _ _) h.2]

/-! ## Texts that stay as they are -/

theorem beforeComment_of_not_mem {cs : List Char} (h : '/' ∉ cs) : beforeComment cs = cs := by
  suffices hgo : ∀ seen, beforeComment.go cs seen = seen.reverse ++ cs from hgo []
  induction cs with
  | nil => exact fun seen => (List.append_nil _).symm
  | cons c cs ih =>
    rw [List.mem_cons, not_or] at h
    intro seen
    rw [beforeComment.go, if_neg fun hslash => h.1 hslash.1.symm, ih h.2, List.reverse_cons,
      List.append_assoc, List.singleton_append]

/-- A text stays as it is when there is no blank in it. -/
theorem trim_of_forall {cs : List Char} (h : ∀ c ∈ cs, isBlank c = false) : trim cs = cs := by
  have hdrop : ∀ l : List Char, (∀ c ∈ l, isBlank c = false) → l.dropWhile isBlank = l := by
    intro l hl
    cases l with
    | nil => rfl
    | cons c l => exact List.dropWhile_cons_of_neg (by simp [hl c List.mem_cons_self])
  unfold trim trimEnd trimStart
  rw [hdrop cs h, hdrop cs.reverse fun c hc => h c (List.mem_reverse.1 hc), List.reverse_reverse]

/-! ## Changes to all lines but the last -/

/-- The lines with each one changed that a line feed ends; the last one stays. -/
def mapEnded (f : List Char → List Char) : List (List Char) → List (List Char)
  | [] => []
  | [last] => [last]
  | line :: next :: rest => f line :: mapEnded f (next :: rest)

section

variable {f f' : List Char → List Char} {ls : List (List Char)}

theorem mapEnded_ne_nil (h : ls ≠ []) : mapEnded f ls ≠ [] := by
  match ls, h with
  | [last], _ => exact List.cons_ne_nil _ _
  | line :: next :: rest, _ => exact List.cons_ne_nil _ _

/-- What holds of all lines and is kept by the change holds of all lines behind it. -/
theorem forall_mem_mapEnded {P : List Char → Prop} (h : ∀ line ∈ ls, P line)
    (hf : ∀ line, P line → P (f line)) : ∀ line ∈ mapEnded f ls, P line := by
  induction ls using mapEnded.induct with
  | case1 => exact h
  | case2 last => exact h
  | case3 line next rest ih =>
    rw [List.forall_mem_cons] at h
    rw [mapEnded, List.forall_mem_cons]
    exact ⟨hf line h.1, ih h.2⟩

/-- Two changes come to the same if they do on each line that is changed. -/
theorem map_mapEnded_congr {α : Type} {g : List Char → α}
    (h : ∀ line ∈ ls.dropLast, g (f line) = g (f' line)) :
    (mapEnded f ls).map g = (mapEnded f' ls).map g := by
  induction ls using mapEnded.induct with
  | case1 => rfl
  | case2 last => rfl
  | case3 line next rest ih =>
    rw [List.dropLast_cons_cons, List.forall_mem_cons] at h
    rw [mapEnded, mapEnded, List.map_cons, List.map_cons, h.1, ih h.2]

theorem mapEnded_id (ls : List (List Char)) : mapEnded id ls = ls := by
  induction ls using mapEnded.induct with
  | case1 => rfl
  | case2 last => rfl
  | case3 line next rest ih => rw [mapEnded, ih, id]

end

/-- The text with such a change. -/
def changeEnded (f : List Char → List Char) (cs : List Char) : List Char :=
  ['\n'].intercalate (mapEnded f (lines cs))

theorem lines_changeEnded {f : List Char → List Char} (hf : ∀ line, '\n' ∉ line → '\n' ∉ f line)
    (cs : List Char) : lines (changeEnded f cs) = mapEnded f (lines cs) := by
  apply splitOn_intercalate
  · exact mapEnded_ne_nil (lines_ne_nil cs)
  · exact forall_mem_mapEnded (fun line => not_mem_of_mem_splitOn) hf

/-! ## Carriage returns -/

/-- The text with a carriage return in front of each line feed. -/
def withReturns (cs : List Char) : List Char :=
  cs.flatMap fun c => if c = '\n' then ['\r', '\n'] else [c]

theorem withReturns_of_not_mem {cs : List Char} (h : '\n' ∉ cs) : withReturns cs = cs := by
  induction cs with
  | nil => rfl
  | cons c cs ih =>
    rw [List.mem_cons, not_or] at h
    unfold withReturns at ih ⊢
    rw [List.flatMap_cons, if_neg (Ne.symm h.1), ih h.2, List.singleton_append]

theorem withReturns_append (cs others : List Char) :
    withReturns (cs ++ others) = withReturns cs ++ withReturns others :=
  List.flatMap_append

theorem withReturns_intercalate {ls : List (List Char)} (h : ∀ line ∈ ls, '\n' ∉ line) :
    withReturns (['\n'].intercalate ls) = ['\n'].intercalate (mapEnded (· ++ ['\r']) ls) := by
  induction ls using mapEnded.induct with
  | case1 => rfl
  | case2 last =>
    rw [mapEnded, List.intercalate_singleton]
    exact withReturns_of_not_mem (h last List.mem_cons_self)
  | case3 line next rest ih =>
    rw [List.forall_mem_cons] at h
    have hend : withReturns ['\n'] = ['\r', '\n'] := rfl
    rw [List.intercalate_cons_cons, withReturns_append, withReturns_append, hend,
      withReturns_of_not_mem h.1, ih h.2, mapEnded]
    cases hchanged : mapEnded (· ++ ['\r']) (next :: rest) with
    | nil => exact absurd hchanged (mapEnded_ne_nil (List.cons_ne_nil next rest))
    | cons first others =>
      rw [List.intercalate_cons_cons]
      simp

/-- So each line but the last ends in one. -/
theorem withReturns_eq (cs : List Char) : withReturns cs = changeEnded (· ++ ['\r']) cs := by
  have htext := withReturns_intercalate fun line (hline : line ∈ lines cs) => not_mem_of_mem_splitOn hline
  unfold lines at htext
  rw [intercalate_splitOn] at htext
  exact htext

end Text

/-! ## What the validator reads -/

namespace Check

theorem normalizeLine_append_return {line : List Char} (h : '\r' ∉ line) :
    normalizeLine (line ++ ['\r']) = normalizeLine line := by
  have hadded : dropSuffix '\r' (line ++ ['\r']) = line := by
    unfold dropSuffix
    rw [List.getLast?_append, List.getLast?_singleton, Option.some_or, if_pos rfl,
      List.dropLast_concat]
  have hnone : dropSuffix '\r' line = line :=
    if_neg fun hlast => h (List.mem_of_getLast? hlast)
  unfold normalizeLine
  rw [hadded, hnone]

/-- A line as it is, unless it has as many characters as a line may have. -/
def emptyIfFull [Build] (line : List Char) : List Char :=
  if line.length = Limit.lineChars then [] else line

theorem not_mem_emptyIfFull [Build] {c : Char} {line : List Char} (h : c ∉ line) :
    c ∉ emptyIfFull line := by
  unfold emptyIfFull
  split
  · exact List.not_mem_nil
  · exact h

end Check

namespace Script

/-- What the validator reads of a line. -/
def lineOf [Build] (line : List Char) : List Char :=
  if line.length > Limit.lineChars then [] else normalizeLine line

theorem lineOf_of_le [Build] {line : List Char} (h : line.length ≤ Limit.lineChars) :
    lineOf line = normalizeLine line :=
  if_neg (Nat.not_lt.2 h)

theorem lineOf_of_short [Build] {line : List Char} (h : line.length ≤ 40) :
    lineOf line = normalizeLine line :=
  lineOf_of_le (h.trans Limit.forty_le_lineChars)

/-- A carriage return costs a full line its place and does nothing to any other line. -/
theorem lineOf_append_return [Build] {line : List Char} (h : '\r' ∉ line) :
    lineOf (line ++ ['\r']) = lineOf (emptyIfFull line) := by
  unfold lineOf emptyIfFull
  rw [List.length_append, List.length_singleton, normalizeLine_append_return h]
  by_cases hfull : line.length = Limit.lineChars
  · rw [if_pos hfull, if_pos (by omega), if_neg (by simp)]
    rfl
  · rw [if_neg hfull]
    by_cases hlong : line.length > Limit.lineChars
    · rw [if_pos (by omega), if_pos hlong]
    · rw [if_neg (by omega), if_neg hlong]

variable {source : List Char}

/-- No line of a text without carriage returns has one. -/
theorem not_mem_of_mem_lines (h : '\r' ∉ source) {line : List Char}
    (hline : line ∈ Text.lines source) : '\r' ∉ line := by
  obtain ⟨k, hk⟩ := List.mem_iff_getElem?.1 hline
  obtain ⟨before, after, htext, -⟩ := exists_of_getElem?_splitOn hk
  intro hmem
  apply h
  rw [htext]
  exact List.mem_append_left _ (List.mem_append_right _ hmem)

/-- A text whose line ends have two characters is read as the one with plain line ends and no full
lines. -/
theorem ofSource_withReturns [Build] (h : '\r' ∉ source) :
    ofSource (withReturns source) = ofSource (changeEnded emptyIfFull source) := by
  have hreturns : ∀ line : List Char, '\n' ∉ line → '\n' ∉ line ++ ['\r'] := by
    intro line hline
    simp [hline]
  apply congrArg Script.mk
  rw [withReturns_eq, lines_changeEnded hreturns, lines_changeEnded fun _ => not_mem_emptyIfFull]
  apply map_mapEnded_congr
  intro line hline
  exact lineOf_append_return (not_mem_of_mem_lines h (List.mem_of_mem_dropLast hline))

/-- It is read as the text itself, if the full lines say nothing. -/
theorem ofSource_changeEnded [Build]
    (h : ∀ line ∈ (Text.lines source).dropLast, line.length = Limit.lineChars →
      normalizeLine line = []) :
    ofSource (changeEnded emptyIfFull source) = ofSource source := by
  have hsame : (mapEnded emptyIfFull (Text.lines source)).map lineOf =
      (mapEnded id (Text.lines source)).map lineOf := by
    apply map_mapEnded_congr
    intro line hline
    unfold emptyIfFull
    split
    · next hfull =>
      unfold lineOf
      rw [id, if_neg (by simp), if_neg (by omega), h line hline hfull]
      rfl
    · rfl
  rw [mapEnded_id] at hsame
  apply congrArg Script.mk
  rw [lines_changeEnded fun _ => not_mem_emptyIfFull]
  exact hsame

end Script

/-! ## What is shown -/

namespace Check

/-- For a text without carriage returns, an analysis of the text with two characters at each line end
shows what an analysis of the text itself shows once the full lines that a line feed ends are emptied.
So it shows the same as for the text, unless one of these full lines says something. -/
theorem analyze_withReturns [Build] (prefs : AnalysisPreferences) (source : String)
    (h : '\r' ∉ source.toList) :
    (analyze prefs (String.ofList (withReturns source.toList))).1 =
      (analyze prefs (String.ofList (changeEnded emptyIfFull source.toList))).1 ∧
    ((∀ line ∈ (Text.lines source.toList).dropLast, line.length = Limit.lineChars →
        normalizeLine line = []) →
      (analyze prefs (String.ofList (withReturns source.toList))).1 = (analyze prefs source).1) := by
  have hchanged : (analyze prefs (String.ofList (withReturns source.toList))).1 =
      (analyze prefs (String.ofList (changeEnded emptyIfFull source.toList))).1 := by
    rw [analyze_eq_take, analyze_eq_take, String.toList_ofList, String.toList_ofList,
      Script.ofSource_withReturns h]
  refine ⟨hchanged, fun hsilent => ?_⟩
  rw [hchanged, analyze_eq_take, analyze_eq_take, String.toList_ofList,
    Script.ofSource_changeEnded hsilent]

theorem normalizeLine_slashes (n : Nat) : normalizeLine (List.replicate (n + 2) '/') = [] := by
  have hlast : (List.replicate (n + 2) '/').getLast? = some '/' := by
    rw [List.getLast?_replicate, if_neg (Nat.succ_ne_zero _)]
  have hsuffix : dropSuffix '\r' (List.replicate (n + 2) '/') = List.replicate (n + 2) '/' := by
    unfold dropSuffix
    rw [hlast, if_neg (by decide)]
  unfold normalizeLine
  rw [hsuffix]
  rfl

/-- The full line of this text is a comment, so the ends of its lines do not matter. -/
theorem analyze_withReturns_comment :
    let source := String.ofList (List.replicate Limit.lineChars '/' ++ "\nint x".toList)
    '\r' ∉ source.toList ∧
    (∀ line ∈ (Text.lines source.toList).dropLast, line.length = Limit.lineChars →
      normalizeLine line = []) ∧
    (analyze {} (String.ofList (withReturns source.toList))).1 = (analyze {} source).1 := by
  intro source
  have hsource : source.toList = List.replicate Limit.lineChars '/' ++ "\nint x".toList :=
    String.toList_ofList
  have hslashes : ∀ c ∈ List.replicate Limit.lineChars '/', c = '/' :=
    fun c => List.eq_of_mem_replicate
  have hfree : '\r' ∉ source.toList := by
    rw [hsource, List.mem_append, not_or]
    exact ⟨fun hmem => absurd (hslashes _ hmem) (by decide), by decide⟩
  have hlines : Text.lines source.toList =
      [List.replicate Limit.lineChars '/', "int x".toList] := by
    rw [hsource]
    exact splitOn_append_cons (fun hmem => absurd (hslashes _ hmem) (by decide)) _
  have hsilent : ∀ line ∈ (Text.lines source.toList).dropLast,
      line.length = Limit.lineChars → normalizeLine line = [] := by
    rw [hlines]
    intro line hline _
    rw [List.mem_singleton.1 hline]
    exact normalizeLine_slashes _
  exact ⟨hfree, hsilent, (analyze_withReturns {} source hfree).2 hsilent⟩

/-! ### A full line with a finding -/

/-- A declaration without a name that takes up a line to the last character. -/
def fullLine : List Char := "int=".toList ++ List.replicate (Limit.lineChars - 4) '1'

theorem length_fullLine : fullLine.length = Limit.lineChars := by
  unfold fullLine
  rw [List.length_append, List.length_replicate]
  rfl

theorem mem_fullLine {c : Char} (h : c ∈ fullLine) : c ∈ "int=1".toList := by
  unfold fullLine at h
  rcases List.mem_append.1 h with h | h
  · exact List.mem_of_mem_dropLast h
  · rw [List.eq_of_mem_replicate h]
    decide

theorem getLast?_fullLine : fullLine.getLast? = some '1' := by
  unfold fullLine
  rw [List.getLast?_append, List.getLast?_replicate, if_neg (by decide), Option.some_or]

theorem normalizeLine_fullLine : normalizeLine fullLine = fullLine := by
  have hsuffix : ∀ c, c ≠ '1' → dropSuffix c fullLine = fullLine := by
    intro c hc
    unfold dropSuffix
    rw [getLast?_fullLine, if_neg fun hlast => hc (Option.some.inj hlast).symm]
  have hslash : '/' ∉ fullLine := fun hmem => absurd (mem_fullLine hmem) (by decide)
  have hblank : "int=1".toList.all (fun c => !isBlank c) = true := rfl
  unfold normalizeLine
  rw [hsuffix '\r' (by decide), beforeComment_of_not_mem hslash, hsuffix ';' (by decide)]
  refine trim_of_forall fun c hc => ?_
  simpa using List.all_eq_true.1 hblank c (mem_fullLine hc)

/-- The line is one of two in the text, the other one being empty. -/
theorem lines_fullText (ending : List Char) (h : '\n' ∉ ending) :
    Text.lines (fullLine ++ ending ++ ['\n']) = [fullLine ++ ending, []] := by
  have hfree : '\n' ∉ fullLine ++ ending := by
    rw [List.mem_append, not_or]
    exact ⟨fun hmem => absurd (mem_fullLine hmem) (by decide), h⟩
  exact splitOn_append_cons hfree []

/-- Whatever stands behind the equals sign, a declaration without a name is an error. -/
theorem findings_nameless_alone [Build] (value : List Char) :
    Script.findings ⟨["int=".toList ++ value, []]⟩ =
      [.error 1 "Variable declaration is missing a name (e.g. `int x = ...`)"] :=
  rfl

/-- The analysis of a text with one full line tells of its error. The line says something, and with
two characters at its end nothing is told. -/
theorem analyze_withReturns_full :
    let source := String.ofList (fullLine ++ ['\n'])
    '\r' ∉ source.toList ∧
    (analyze {} source).1 = [.error 1 "Variable declaration is missing a name (e.g. `int x = ...`)"] ∧
    (analyze {} (String.ofList (withReturns source.toList))).1 = [] := by
  intro source
  have hsource : source.toList = fullLine ++ ['\n'] := String.toList_ofList
  have hreturns : withReturns (fullLine ++ ['\n']) = fullLine ++ ['\r'] ++ ['\n'] := by
    rw [withReturns_append,
      withReturns_of_not_mem fun hmem => absurd (mem_fullLine hmem) (by decide)]
    simp [withReturns]
  rw [hsource, hreturns, analyze_eq_take, analyze_eq_take, hsource, String.toList_ofList]
  refine ⟨?_, ?_, ?_⟩
  · rw [List.mem_append, not_or]
    exact ⟨fun hmem => absurd (mem_fullLine hmem) (by decide), by decide⟩
  · have hlines := lines_fullText [] List.not_mem_nil
    rw [List.append_nil] at hlines
    have hscript : Script.ofSource (fullLine ++ ['\n']) = ⟨[fullLine, []]⟩ := by
      apply congrArg Script.mk
      rw [hlines, List.map_cons, if_neg (by rw [length_fullLine]; omega), normalizeLine_fullLine]
      rfl
    rw [hscript]
    exact congrArg (List.take _) (findings_nameless_alone _)
  · have hscript : Script.ofSource (fullLine ++ ['\r'] ++ ['\n']) = ⟨[[], []]⟩ := by
      apply congrArg Script.mk
      rw [lines_fullText ['\r'] (by decide), List.map_cons,
        if_pos (by rw [List.length_append, length_fullLine]; exact Nat.lt_succ_self _)]
      rfl
    rw [hscript]
    rfl

end Check

end EvlCheck
