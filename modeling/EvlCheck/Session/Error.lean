/-
What a workspace refuses, and why.
-/
import EvlCheck.Fix.Edit
import EvlCheck.Limits.Build
import EvlCheck.Log.Code
import EvlCheck.Session.Document

namespace EvlCheck

/-- A refusal; the workspace is as it was. -/
inductive SessionError where
  /-- An edit is meant for another version of the document. -/
  | staleEdit (document : DocumentId) (editVersion currentVersion : Nat)
  | unknownDocument (document : DocumentId)
  /-- No more documents can be open. -/
  | tooManyDocuments (uri : String)
  | invalidEdit (document : DocumentId) (cause : EditError)
  deriving Repr, DecidableEq

namespace SessionError

def name : SessionError → String
  | .staleEdit .. => "StaleEdit"
  | .unknownDocument _ => "UnknownDocument"
  | .tooManyDocuments _ => "DocumentLimitExceeded"
  | .invalidEdit .. => "InvalidEditRange"

def message [Build] : SessionError → String
  | .staleEdit document editVersion currentVersion =>
    s!"Edit computed for version {editVersion} but {document.text} is at version {currentVersion}"
  | .unknownDocument document => s!"Unknown document {document.text}"
  | .tooManyDocuments uri =>
    s!"Cannot open '{uri}': {Limit.openDocuments} documents already open"
  | .invalidEdit document cause => s!"Invalid edit for {document.text}: {cause.message}"

def code : SessionError → Code
  | .staleEdit .. => .staleEdit
  | .unknownDocument _ => .unknownDocument
  | .tooManyDocuments _ => .documentLimitExceeded
  | .invalidEdit .. => .invalidEditRange

/-- A stale edit can be computed anew. -/
def recoverable : SessionError → Bool
  | .staleEdit .. => true
  | _ => false

def cause? : SessionError → Option EditError
  | .invalidEdit _ cause => some cause
  | _ => none

end SessionError

end EvlCheck
