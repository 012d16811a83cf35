/-
Offered actions change one line. A fix edits at most the line of its diagnostic and a refactor the
line of the cursor, by one edit of the version asked for: a new text of the line, its removal with
its terminator, or a new line in front of it. Such an edit can always be made, and every other line
keeps its text and its terminator.

A rule makes its edits from the line without its terminator, while edits are made on the text with
terminators, so the ranges are first shown to be places of the text (`LineAt`).
-/
import EvlCheck.Fix.Generate
import EvlCheck.Proofs.Fix.LineAt
import EvlCheck.Proofs.Fix.Simultaneous

namespace EvlCheck

open Text

/-! ## Edits of one line -/

/-- The edit gives the line a new text, removes it, or sets a line in front of it. -/
inductive LineEdit (n : Nat) (line : List Char) : Edit → Prop
  | replace (text : String) (version : Nat) : LineEdit n line ⟨.wholeLine n line, text, version⟩
  | remove (version : Nat) : LineEdit n line ⟨.lineWithBreak n, "", version⟩
  | insert (text : String) (version : Nat) : LineEdit n line ⟨.lineStart n, text ++ "\n", version⟩

/-- What comes of a text around a line: `new` for the line and in front of its terminator, nothing
for both, or `new`, which ends in a line feed, in front of the line. -/
inductive Relined (before line terminator after new : List Char) : List Char → Prop
  | replaced : Relined before line terminator after new (before ++ new ++ terminator ++ after)
  | removed (empty : new = []) : Relined before line terminator after new (before ++ after)
  | preceded (ends : new.getLast? = some '\n') :
      Relined before line terminator after new (before ++ new ++ line ++ terminator ++ after)

/-- A single edit is made where its ends are. -/
theorem applyEdits_singleton {cs : List Char} {e : Edit} {start stop : Nat}
    (hstart : Locates cs e.range.startLine e.range.startColumn start)
    (hstop : Locates cs e.range.endLine e.range.endColumn stop) (hle : start ≤ stop) :
    applyEdits cs [e] = .ok (cs.take start ++ e.text.toList ++ cs.drop stop) := by
  refine applyEdits_eq_ok_iff.2 ⟨[⟨start, stop, e⟩], rfl, ?_, ?_, ?_⟩
  · rw [List.forall_mem_singleton]
    exact ⟨hstart, hstop, hle⟩
  · rw [List.mergeSort_singleton]
    exact List.pairwise_singleton _ _
  · rw [List.mergeSort_singleton]
    rfl

section

variable {cs before line terminator after : List Char} {n : Nat}
  (hat : LineAt cs n before line terminator after) (text : String) (version : Nat)
include hat

theorem Text.LineAt.take_before : cs.take before.length = before := by
  rw [hat.text_eq, List.append_assoc, List.append_assoc, List.take_left]

/-- A new text for a line. -/
theorem applyEdits_wholeLine : applyEdits cs [⟨.wholeLine n line, text, version⟩] =
    .ok (before ++ text.toList ++ terminator ++ after) := by
  have hdrop : cs.drop (before ++ line).length = terminator ++ after := by
    rw [hat.text_eq, List.append_assoc, List.drop_left]
  rw [applyEdits_singleton hat.locates_start hat.locates_stop, hat.take_before, hdrop,
    ← List.append_assoc]
  rw [List.length_append]; omega

/-- A line is removed with its terminator. -/
theorem applyEdits_lineWithBreak : applyEdits cs [⟨.lineWithBreak n, "", version⟩] =
    .ok (before ++ after) := by
  have hdrop : cs.drop (before ++ line ++ terminator).length = after := by
    rw [hat.text_eq, List.drop_left]
  rw [applyEdits_singleton hat.locates_start hat.locates_next, hat.take_before, hdrop,
    String.toList_empty, List.append_nil]
  simp only [List.length_append]; omega

/-- A text in front of a line. -/
theorem applyEdits_lineStart : applyEdits cs [⟨.lineStart n, text, version⟩] =
    .ok (before ++ text.toList ++ line ++ terminator ++ after) := by
  have hdrop : cs.drop before.length = line ++ terminator ++ after := by
    rw [hat.text_eq, List.append_assoc, List.append_assoc, List.drop_left, List.append_assoc]
  rw [applyEdits_singleton hat.locates_start hat.locates_start (Nat.le_refl _), hat.take_before, hdrop,
    ← List.append_assoc, ← List.append_assoc]

end

/-- An edit of a line can be made, and changes nothing but the line. -/
theorem LineEdit.relined {cs before line terminator after : List Char} {n : Nat} {e : Edit}
    (h : LineEdit n line e) (hat : LineAt cs n before line terminator after) :
    ∃ out, applyEdits cs [e] = .ok out ∧
      Relined before line terminator after e.text.toList out := by
  cases h with
  | replace text version => exact ⟨_, applyEdits_wholeLine hat text version, .replaced⟩
  | remove version => exact ⟨_, applyEdits_lineWithBreak hat version, .removed rfl⟩
  | insert text version =>
    refine ⟨_, applyEdits_lineStart hat (text ++ "\n") version, .preceded ?_⟩
    rw [String.toList_append, List.getLast?_append]
    rfl

/-! ## Actions on one line -/

/-- The action has at most one edit, which is one of the line and made for the version. -/
def CodeAction.OnLine (n : Nat) (line : List Char) (version : Nat) (a : CodeAction) : Prop :=
  a.edits = [] ∨ ∃ e, a.edits = [e] ∧ e.version = version ∧ LineEdit n line e

namespace FixSite

/-- The action is a fix of the site's diagnostic on its line. -/
structure Answers (s : FixSite) (a : CodeAction) : Prop where
  kind : a.kind = .quickFix
  diagnostics : a.diagnostics = [s.diagnostic]
  onLine : a.OnLine s.diagnostic.line s.line s.version

variable (s : FixSite)

theorem answers_replaceLine (title : String) (text : List Char) (preferred : Bool) :
    s.Answers (s.replaceLine title text preferred) :=
  ⟨rfl, rfl, .inr ⟨_, rfl, rfl, .replace _ _⟩⟩

theorem answers_changeLine (title : String) (text : List Char) (preferred : Bool) :
    ∀ a ∈ s.changeLine title text preferred, s.Answers a := by
  unfold changeLine
  split
  · exact List.forall_mem_nil _
  · exact List.forall_mem_singleton.2 (s.answers_replaceLine _ _ _)

theorem answers_assignDefault : ∀ a ∈ s.assignDefault, s.Answers a := by
  unfold assignDefault
  split
  · exact List.forall_mem_nil _
  · exact List.forall_mem_singleton.2 (s.answers_replaceLine _ _ _)

theorem answers_useFloatLiteral : ∀ a ∈ s.useFloatLiteral, s.Answers a := by
  unfold useFloatLiteral
  split
  · exact List.forall_mem_nil _
  · exact List.forall_mem_singleton.2 (s.answers_replaceLine _ _ _)

theorem answers_removeDuplicate : ∀ a ∈ s.removeDuplicate, s.Answers a :=
  List.forall_mem_singleton.2 ⟨rfl, rfl, .inr ⟨_, rfl, rfl, .remove _⟩⟩

theorem answers_castToInt : ∀ a ∈ s.castToInt, s.Answers a := by
  unfold castToInt
  split
  · exact List.forall_mem_nil _
  · exact List.forall_mem_singleton.2 (s.answers_replaceLine _ _ _)

theorem answers_fixCastMismatch : ∀ a ∈ s.fixCastMismatch, s.Answers a := by
  unfold fixCastMismatch
  split
  · exact List.forall_mem_nil _
  · rw [List.forall_mem_append]
    exact ⟨s.answers_changeLine _ _ _, s.answers_changeLine _ _ _⟩

theorem answers_fixReturnMismatch : ∀ a ∈ s.fixReturnMismatch, s.Answers a := by
  unfold fixReturnMismatch
  split
  · exact List.forall_mem_nil _
  · rw [List.forall_mem_append]
    refine ⟨s.answers_changeLine _ _ _, ?_⟩
    split
    · exact List.forall_mem_nil _
    · exact List.forall_mem_singleton.2 (s.answers_replaceLine _ _ _)

theorem answers_castAllArguments : ∀ a ∈ s.castAllArguments, s.Answers a := by
  unfold castAllArguments
  split
  · exact List.forall_mem_nil _
  · intro a ha
    obtain ⟨target, -, htarget⟩ := List.mem_filterMap.1 ha
    obtain ⟨text, -, rfl⟩ := Option.map_eq_some_iff.1 htarget
    exact s.answers_replaceLine _ _ _

theorem answers_replaceCastTarget : ∀ a ∈ s.replaceCastTarget, s.Answers a := by
  unfold replaceCastTarget
  split
  · exact List.forall_mem_nil _
  · exact List.forall_mem_map.2 fun target _ => s.answers_replaceLine _ _ _

theorem answers_wrapInTry : ∀ a ∈ s.wrapInTry, s.Answers a :=
  List.forall_mem_singleton.2 (s.answers_replaceLine _ _ _)

theorem answers_declareIdentifier : ∀ a ∈ s.declareIdentifier, s.Answers a := by
  unfold declareIdentifier
  split
  · exact List.forall_mem_nil _
  · exact List.forall_mem_map.2 fun form _ => ⟨rfl, rfl, .inr ⟨_, rfl, rfl, .insert _ _⟩⟩

theorem answers_showSignature : ∀ a ∈ s.showSignature, s.Answers a := by
  unfold showSignature
  split
  · exact List.forall_mem_nil _
  · exact List.forall_mem_singleton.2 ⟨rfl, rfl, .inl rfl⟩

theorem answers_addPlaceholder : ∀ a ∈ s.addPlaceholder, s.Answers a :=
  List.forall_mem_singleton.2 (s.answers_replaceLine _ _ _)

/-- Whatever rules apply, what they offer answers the diagnostic. -/
theorem answers_fixes : ∀ a ∈ s.fixes, s.Answers a := by
  have hrules : ∀ rule ∈ rules, ∀ a ∈ rule.2 s, s.Answers a := by
    unfold rules
    simp only [List.forall_mem_cons]
    exact ⟨s.answers_assignDefault, s.answers_useFloatLiteral, s.answers_removeDuplicate,
      s.answers_castToInt, s.answers_fixCastMismatch, s.answers_fixReturnMismatch,
      s.answers_castAllArguments, s.answers_wrapInTry, s.answers_declareIdentifier,
      s.answers_replaceCastTarget, s.answers_showSignature, s.answers_addPlaceholder,
      List.forall_mem_nil _⟩
  intro a ha
  obtain ⟨rule, hrule, ha⟩ := List.mem_flatMap.1 ha
  dsimp only at ha
  split at ha
  · exact hrules rule hrule a ha
  · cases ha

end FixSite

namespace Refactor

/-- A refactor changes the line it is offered for, and answers no diagnostic. -/
theorem ofLine_onLine (n : Nat) (line : List Char) (version : Nat) :
    ∀ a ∈ ofLine n line version,
      a.kind = .refactor ∧ a.diagnostics = [] ∧ a.OnLine n line version := by
  unfold ofLine
  rw [List.forall_mem_append]
  constructor
  · unfold makeConstant
    split
    · exact List.forall_mem_nil _
    · exact List.forall_mem_singleton.2 ⟨rfl, rfl, .inr ⟨_, rfl, rfl, .replace _ _⟩⟩
  · unfold intToFloat
    split
    · exact List.forall_mem_singleton.2 ⟨rfl, rfl, .inr ⟨_, rfl, rfl, .replace _ _⟩⟩
    · exact List.forall_mem_nil _

end Refactor

/-! ## All actions of a document -/

namespace CodeAction

/-- The line that an action is about: that of the diagnostic it answers, or that of the cursor. -/
def AboutLine (diagnostics : List Diagnostic) (cursor : Option Nat) (a : CodeAction) (n : Nat) :
    Prop :=
  (a.kind = .quickFix ∧ ∃ d ∈ diagnostics, a.diagnostics = [d] ∧ d.line = n) ∨
    (a.kind = .refactor ∧ a.diagnostics = [] ∧ cursor = some n)

/-- Every action is offered for a line that the text has. -/
theorem onLine_of_mem_generate [Build] {prefs : AnalysisPreferences} {diagnostics : List Diagnostic}
    {text : List Char} {cursor : Option Nat} {version : Nat} {a : CodeAction}
    (h : a ∈ (generate prefs diagnostics text cursor version).1) :
    ∃ n line, a.AboutLine diagnostics cursor n ∧ line? text n = some line ∧
      a.OnLine n line version := by
  unfold generate at h
  dsimp only at h
  rcases List.mem_append.1 (List.mem_of_mem_take h) with hfix | hrefactor
  · rw [List.mem_flatMap] at hfix
    obtain ⟨offer, hoffer, ha⟩ := hfix
    obtain ⟨d, hd, rfl⟩ := List.mem_map.1 hoffer
    dsimp only [ofDiagnostic?] at ha
    cases hline : lineIn? (lines text).toArray d.line with
    | none => rw [hline] at ha; cases ha
    | some line =>
      rw [hline] at ha
      have hanswers := FixSite.answers_fixes ⟨d, line, version⟩ a ha
      exact ⟨d.line, line, .inl ⟨hanswers.kind, d, hd, hanswers.diagnostics, rfl⟩, hline,
        hanswers.onLine⟩
  · unfold ofCursor at hrefactor
    split at hrefactor
    · cases hrefactor
    · next n hcursor =>
      cases hline : lineIn? (lines text).toArray n with
      | none => rw [hline] at hrefactor; cases hrefactor
      | some line =>
        rw [hline] at hrefactor
        obtain ⟨hkind, hnone, hon⟩ := Refactor.ofLine_onLine n line version a hrefactor
        exact ⟨n, line, .inr ⟨hkind, hnone, (Option.filter_eq_some_iff.1 hcursor).1⟩, hline, hon⟩

/-- Every offered action can be made and changes only the line that it is about: it has no edit, or
one for the version asked for, which gives the line a new text, removes it with its terminator or
sets a line in front of it. -/
theorem generate_changes_one_line [Build] (prefs : AnalysisPreferences)
    (diagnostics : List Diagnostic) (text : List Char) (cursor : Option Nat) (version : Nat) :
    ∀ a ∈ (generate prefs diagnostics text cursor version).1,
      ∃ n before line terminator after out, a.AboutLine diagnostics cursor n ∧
        LineAt text n before line terminator after ∧ applyEdits text a.edits = .ok out ∧
        ((a.edits = [] ∧ out = text) ∨
          ∃ e, a.edits = [e] ∧ e.version = version ∧
            Relined before line terminator after e.text.toList out) := by
  intro a ha
  obtain ⟨n, line, habout, hline, hon⟩ := onLine_of_mem_generate ha
  obtain ⟨before, terminator, after, hat⟩ := exists_lineAt hline
  -- An action without edits only shows something; every other has one edit, on its line.
  rcases hon with hnone | ⟨e, hedit, hversion, he⟩
  · refine ⟨n, before, line, terminator, after, text, habout, hat, ?_, .inl ⟨hnone, rfl⟩⟩
    rw [hnone]
    exact applyEdits_eq_ok_iff.2 ⟨[], rfl, List.forall_mem_nil _, by
      rw [List.mergeSort_nil]; exact .nil, by rw [List.mergeSort_nil]; rfl⟩
  · obtain ⟨out, hout, hrelined⟩ := he.relined hat
    refine ⟨n, before, line, terminator, after, out, habout, hat, ?_,
      .inr ⟨e, hedit, hversion, hrelined⟩⟩
    rw [hedit]
    exact hout

theorem generate_changes_one_line_duplicate :
    let text := "é\r\nint x = 2\r\nb".toList
    let d := Diagnostic.error 2 "Variable 'x' is already declared"
    let a := quickFix "Remove duplicate declaration of 'x'" d ⟨.lineWithBreak 2, "", 3⟩ true
    a ∈ (generate {} [d] text none 3).1 ∧
      ∃ n before line terminator after out, a.AboutLine [d] none n ∧
        LineAt text n before line terminator after ∧ applyEdits text a.edits = .ok out ∧
        ((a.edits = [] ∧ out = text) ∨
          ∃ e, a.edits = [e] ∧ e.version = 3 ∧
            Relined before line terminator after e.text.toList out) := by
  intro text d a
  have hoffered : a ∈ (generate {} [d] text none 3).1 := by decide
  exact ⟨hoffered, generate_changes_one_line {} [d] text none 3 a hoffered⟩

end CodeAction

end EvlCheck
