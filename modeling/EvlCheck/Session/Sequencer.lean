/-
Which results of analyses still count. Every analysis takes a ticket; for each document only the
newest ticket is awaited, and it is accepted once. Results that were overtaken are discarded.
-/
import EvlCheck.Log.Event
import EvlCheck.Session.Document

namespace EvlCheck

/-- What identifies an analysis; sequence numbers count all analyses. -/
structure Ticket where
  document : DocumentId
  version : Nat
  sequence : Nat
  deriving Repr, DecidableEq, Inhabited

def Ticket.toJson (t : Ticket) : Json :=
  .obj
    [ ("document", .num t.document.number),
      ("version", .num t.version),
      ("sequence", .num t.sequence) ]

/-- The awaited sequence number of each document, the oldest first. -/
structure Sequencer where
  lastSequence : Nat := 0
  awaited : List (DocumentId × Nat) := []
  discarded : Nat := 0
  deriving Repr

namespace Sequencer

def pending (s : Sequencer) : Nat := s.awaited.length

/-- The awaited sequence number of a document. -/
def awaited? (s : Sequencer) (document : DocumentId) : Option Nat := s.awaited.lookup document

/-- Awaits nothing more for a document. -/
def forget (s : Sequencer) (document : DocumentId) : Sequencer :=
  { s with awaited := s.awaited.filter fun entry => entry.1 ≠ document }

/-- Makes room for one more document by giving up the oldest ticket. -/
def evict [Build] (s : Sequencer) : Sequencer × Journal :=
  match s.awaited with
  | [] => (s, #[])
  | (document, _) :: rest =>
    ({ s with awaited := rest },
      #[((Event.warning "Pending ticket limit reached, oldest ticket evicted").add "document"
        document.text).add "limit" Limit.pendingTickets])

/-- Issues a ticket, which overtakes an earlier one for the same document. -/
def submit [Build] (s : Sequencer) (document : DocumentId) (version : Nat) :
    Ticket × Sequencer × Journal :=
  let sequence := s.lastSequence + 1
  let full := (s.awaited? document).isNone && s.pending ≥ Limit.pendingTickets
  let (s, journal) := if full then s.evict else (s, #[])
  let s := s.forget document
  (⟨document, version, sequence⟩,
    { s with lastSequence := sequence, awaited := s.awaited ++ [(document, sequence)] },
    journal.push <| (((Event.debug "Analysis ticket issued").add "document" document.text).add
      "version" version).add "sequence" sequence)

/-- The event that tells of a result that came too late. -/
def discardEvent [Build] (ticket : Ticket) (newest : Option Nat) : Event :=
  (((Event.warningOf .staleResultDiscarded "Discarding superseded analysis result").add "document"
    ticket.document.text).add "sequence" ticket.sequence).add "newest"
    ((newest.map toString).getD "none")

/-- Whether the result of a ticket counts. A ticket that is accepted is awaited no longer. -/
def accept [Build] (s : Sequencer) (ticket : Ticket) : Bool × Sequencer × Journal :=
  let newest := s.awaited? ticket.document
  if newest = some ticket.sequence then (true, s.forget ticket.document, #[])
  else (false, { s with discarded := s.discarded + 1 }, #[discardEvent ticket newest])

end Sequencer

end EvlCheck
