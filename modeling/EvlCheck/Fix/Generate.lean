/-
The code actions of a document: the fixes of its diagnostics in their order, then the refactors of
the cursor's line, up to a limit.
-/
import EvlCheck.Fix.QuickFix
import EvlCheck.Fix.Refactor
import EvlCheck.Log.Event
import EvlCheck.Settings.Preferences

namespace EvlCheck.CodeAction

open Text

/-- The fixes of a diagnostic; nothing where the text has no such line. -/
def ofDiagnostic? (lines : Array (List Char)) (version : Nat) (d : Diagnostic) :
    Option (List CodeAction) :=
  (lineIn? lines d.line).map fun line => FixSite.fixes ⟨d, line, version⟩

/-- The remark that a diagnostic has no line. -/
def skippedEvent [Build] (d : Diagnostic) : Event :=
  (Event.debug "Diagnostic line outside document, no actions offered").add "line" d.line

/-- The refactors of the cursor's line, where they are asked for and there is one. -/
def ofCursor (prefs : AnalysisPreferences) (lines : Array (List Char)) (version : Nat)
    (cursor : Option Nat) : List CodeAction :=
  match cursor.filter fun _ => prefs.includeRefactors with
  | none => []
  | some number =>
    ((lineIn? lines number).map fun line => Refactor.ofLine number line version).getD []

/-- The event that tells that actions were left out. -/
def truncatedEvent [Build] (generated : Nat) : Event :=
  ((Event.warning "Code action list truncated").add "generated" generated).add "limit" Limit.actions

/-- The event that ends the work. -/
def generatedEvent [Build] (diagnostics actions skipped version : Nat) : Event :=
  ((((Event.success .codeActionsGenerated "Code actions generated").add "diagnostics"
    diagnostics).add "actions" actions).add "skipped" skipped).add "version" version

/-- The actions for diagnostics of a text, and the events. -/
def generate [Build] (prefs : AnalysisPreferences) (diagnostics : List Diagnostic)
    (text : List Char) (cursor : Option Nat) (version : Nat) : List CodeAction × Journal :=
  let lines := (Text.lines text).toArray
  let offers := diagnostics.map fun d => (d, ofDiagnostic? lines version d)
  let skipped := offers.filter (·.2.isNone)
  let actions := offers.flatMap (fun o => o.2.getD []) ++ ofCursor prefs lines version cursor
  let shown := actions.take Limit.actions
  let journal : Journal := (skipped.map fun o => skippedEvent o.1).toArray
  let journal := if actions.length > Limit.actions then journal.push (truncatedEvent actions.length)
    else journal
  (shown, journal.push
    (generatedEvent diagnostics.length shown.length skipped.length version))

end EvlCheck.CodeAction
