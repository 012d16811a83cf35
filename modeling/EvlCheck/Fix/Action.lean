/-
Code actions: what an editor may offer to do. A quick fix answers a diagnostic, a refactor answers
none; an action without edits only informs.
-/
import EvlCheck.Fix.Edit
import EvlCheck.Report.Diagnostic

namespace EvlCheck

inductive ActionKind where
  | quickFix
  | refactor
  deriving Repr, DecidableEq

def ActionKind.text : ActionKind → String
  | .quickFix => "quickfix"
  | .refactor => "refactor"

structure CodeAction where
  title : String
  diagnostics : List Diagnostic
  kind : ActionKind
  edits : List Edit
  preferred : Bool
  deriving Repr, DecidableEq

namespace CodeAction

/-- An answer to a diagnostic by one edit. -/
def quickFix (title : String) (d : Diagnostic) (e : Edit) (preferred : Bool) : CodeAction :=
  ⟨title, [d], .quickFix, [e], preferred⟩

/-- An answer to a diagnostic that edits nothing. -/
def hint (title : String) (d : Diagnostic) : CodeAction := ⟨title, [d], .quickFix, [], false⟩

/-- A change of its own. -/
def refactor (title : String) (e : Edit) : CodeAction := ⟨title, [], .refactor, [e], false⟩

def hasEdits (a : CodeAction) : Bool := !a.edits.isEmpty

def toJson (a : CodeAction) : Json :=
  .obj
    [ ("title", .str a.title),
      ("diagnostics", .arr (a.diagnostics.map Diagnostic.toJson)),
      ("kind", .str a.kind.text),
      ("edits", .arr (a.edits.map Edit.toJson)),
      ("is_preferred", .bool a.preferred) ]

end CodeAction

end EvlCheck
