/-
The documents that are open in an editor. Every document has a number of its own, which is not used
again after it is closed. An action is applied only to the version of a document that it was
computed for, so an edit never meets a text that it was not made for. What is refused changes
nothing.
-/
import EvlCheck.Analysis.Basic
import EvlCheck.Fix.Generate
import EvlCheck.Session.Error

namespace EvlCheck

/-- Open documents in the order of their numbers, the last number given, and what the user chose. -/
structure Workspace where
  documents : List Document := []
  lastNumber : Nat := 0
  preferences : Preferences := {}

structure WorkspaceStep (α : Type) where
  result : Except SessionError α
  workspace : Workspace
  journal : Journal := #[]

/-- The findings on one version of a document. -/
structure Snapshot where
  document : DocumentId
  version : Nat
  syntactic : List SyntaxDiagnostic
  semantic : List Diagnostic

namespace Snapshot

def markers (s : Snapshot) : List Marker := Marker.ofFindings s.syntactic s.semantic

def findingCount (s : Snapshot) : Nat := s.syntactic.length + s.semantic.length

/-- The snapshot as an object, with the number of its markers. -/
def toJson (s : Snapshot) : Json :=
  .obj
    [ ("document", .num s.document.number),
      ("version", .num s.version),
      ("syntax", .arr (s.syntactic.map SyntaxDiagnostic.toJson)),
      ("semantic", .arr (s.semantic.map Diagnostic.toJson)),
      ("markers", .num s.markers.length),
      ("count", .num s.findingCount) ]

end Snapshot

namespace Workspace

/-! ## Looking at documents -/

def find? (w : Workspace) (id : DocumentId) : Option Document :=
  w.documents.find? fun d => d.id == id

/-- The document with a number, or the refusal. -/
def get (w : Workspace) (id : DocumentId) : Except SessionError Document :=
  match w.find? id with
  | some d => .ok d
  | none => .error (.unknownDocument id)

def size (w : Workspace) : Nat := w.documents.length

def isEmpty (w : Workspace) : Bool := w.documents.isEmpty

def ids (w : Workspace) : List DocumentId := w.documents.map (·.id)

/-! ## Opening, changing and closing -/

/-- The step that refuses and changes nothing. -/
def refuse {α : Type} (w : Workspace) (e : SessionError) (journal : Journal := #[]) :
    WorkspaceStep α :=
  ⟨.error e, w, journal⟩

/-- The workspace with another state of an open document. -/
def put (w : Workspace) (d : Document) : Workspace :=
  { w with documents := w.documents.map fun old => if old.id = d.id then d else old }

/-- Opens a document under the next number. -/
def openDocument [Build] (w : Workspace) (uri text : String) : WorkspaceStep DocumentId :=
  if w.size ≥ Limit.openDocuments then
    let e := SessionError.tooManyDocuments uri
    w.refuse e #[Event.error e.code e.message]
  else
    let id : DocumentId := ⟨w.lastNumber + 1⟩
    let w' := { w with
      documents := w.documents ++ [{ id := id, uri := uri, text := text }]
      lastNumber := w.lastNumber + 1 }
    ⟨.ok id, w', #[(((Event.success .documentOpened "Document opened").add "document" id.text).add
      "uri" uri).add "open_documents" w'.size]⟩

/-- Replaces the text of a document and tells its new version. -/
def update [Build] (w : Workspace) (id : DocumentId) (text : String) : WorkspaceStep Nat :=
  match w.find? id with
  | none => w.refuse (.unknownDocument id)
  | some d =>
    let d := d.setText text
    ⟨.ok d.version, w.put d, #[((Event.debug "Document text replaced").add "document" id.text).add
      "version" d.version]⟩

/-- Closes a document and hands it over. -/
def close [Build] (w : Workspace) (id : DocumentId) : WorkspaceStep Document :=
  match w.find? id with
  | none => w.refuse (.unknownDocument id)
  | some d =>
    ⟨.ok d, { w with documents := w.documents.filter fun other => other.id ≠ id },
      #[((Event.debug "Document closed").add "document" id.text).add "uri" d.uri]⟩

/-! ## Analysis and actions -/

def scopeOf (d : Document) : DocumentScope := ⟨d.uri, d.version⟩

/-- The findings on the current text of a document, which is lexed as the environment prefers. -/
def analyze [Build] (w : Workspace) (lexical : LexicalPreferences) (id : DocumentId) :
    WorkspaceStep Snapshot :=
  match w.find? id with
  | none => w.refuse (.unknownDocument id)
  | some d =>
    let a := Analysis.ofSource lexical w.preferences d.text
    ⟨.ok ⟨id, d.version, a.syntactic, a.semantic⟩, w, a.journal.within (scopeOf d)⟩

/-- The actions for the current text of a document, made for its current version. -/
def codeActions [Build] (w : Workspace) (lexical : LexicalPreferences) (id : DocumentId)
    (cursor : Option Nat) : WorkspaceStep (List CodeAction) :=
  match w.find? id with
  | none => w.refuse (.unknownDocument id)
  | some d =>
    let a := Analysis.ofSource lexical w.preferences d.text
    let (actions, journal) :=
      CodeAction.generate w.preferences.analysis a.semantic d.text.toList cursor d.version
    ⟨.ok actions, w, (a.journal ++ journal).within (scopeOf d)⟩

/-- Applies the edits of an action to a document and tells its version. Edits for another version
are refused; an action without edits changes nothing. -/
def applyAction [Build] (w : Workspace) (id : DocumentId) (action : CodeAction) :
    WorkspaceStep Nat :=
  match w.find? id with
  | none => w.refuse (.unknownDocument id)
  | some d =>
    match action.edits.find? fun e => e.version ≠ d.version with
    | some stale =>
      let e := SessionError.staleEdit id stale.version d.version
      w.refuse e #[(Event.error e.code e.message).add "action" action.title]
    | none =>
      if action.edits.isEmpty then ⟨.ok d.version, w, #[]⟩
      else
        match applyEdits d.text.toList action.edits with
        | .error cause => w.refuse (.invalidEdit id cause)
        | .ok text =>
          let d := d.setText (String.ofList text)
          ⟨.ok d.version, w.put d, #[(((Event.success .editApplied "Code action applied").add
            "document" id.text).add "action" action.title).add "version" d.version]⟩

end Workspace

end EvlCheck
