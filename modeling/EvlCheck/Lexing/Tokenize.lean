/-
A source as its tokens. Lexing never fails: text that starts no terminal becomes an error token and
is reported, and a breached limit turns the rest of the source into one error token. The tokens
cover the source without gaps, and the last one is its end.
-/
import EvlCheck.Lexing.Metrics
import EvlCheck.Report.Reporter

namespace EvlCheck

/-- The tokens of a source, blanks and comments included, and the faults met on the way. -/
structure TokenizedSource where
  tokens : Array SpannedToken
  reports : Array LexReport

namespace Lexing

/-- Ends the lexing at a place: the rest of the source becomes one error token. -/
def breach (cs : List Char) (place : Position) (fault : LexFault) (tokens : Array SpannedToken)
    (reports : Array LexReport) : TokenizedSource :=
  let stop := place.advanceAll cs
  ⟨(tokens.push ⟨.error (String.ofList cs), ⟨place, stop⟩⟩).push ⟨.eof, .point stop⟩,
    reports.push ⟨fault, place, none⟩⟩

/-- Lexes the rest of a source from a place, given how many tokens count so far. -/
def tokenizeFrom [Build] (p : LexicalPreferences) (cs : List Char) (place : Position)
    (counted : Nat) (tokens : Array SpannedToken) (reports : Array LexReport) : TokenizedSource :=
  match cs with
  | [] => ⟨tokens.push ⟨.eof, .point place⟩, reports⟩
  | c :: rest =>
    if counted ≥ Limit.tokens then
      breach (c :: rest) place (.tooManyTokens counted) tokens reports
    else
      let lexeme := scan c rest
      let stop := place.advanceAll lexeme.taken
      match lexeme.outcome with
      | .ok token =>
        tokenizeFrom p lexeme.rest stop (if LexMetrics.counts p token then counted + 1 else counted)
          (tokens.push ⟨token, ⟨place, stop⟩⟩) reports
      | .error fault =>
        -- A breach takes in the lexeme that exceeds the limit, so it starts before that.
        if fault.isBreach then breach (c :: rest) place fault tokens reports
        else
          let text := String.ofList lexeme.taken
          tokenizeFrom p lexeme.rest stop (counted + 1)
            (tokens.push ⟨.error text, ⟨place, stop⟩⟩) (reports.push ⟨fault, place, some text⟩)
termination_by cs.length
decreasing_by all_goals exact length_scan_rest_lt c rest

/-- The tokens of a source; one that is too large is not looked into. -/
def tokenize [Build] (p : LexicalPreferences) (source : String) : TokenizedSource :=
  let size := source.utf8ByteSize
  let cs := source.toList
  if size > Limit.sourceBytes then
    let stop := Position.start.advanceAll cs
    ⟨#[⟨.error "", ⟨.start, stop⟩⟩, ⟨.eof, .point stop⟩], #[⟨.sourceTooLarge size, .start, none⟩]⟩
  else tokenizeFrom p cs .start 0 #[] #[]

end Lexing

namespace TokenizedSource

/-- The figures about the tokens. -/
def metrics (p : LexicalPreferences) (s : TokenizedSource) : LexMetrics :=
  .ofTokens p s.tokens

def faultEvent [Build] (r : LexReport) : Event :=
  (((Event.error r.fault.code r.message).spanning (.point r.place)).add "line" r.place.line).add
    "column" r.place.column

/-- Whether a fault reaches the diagnostics: all do, save invalid characters where unwanted. -/
def reaches (p : LexicalPreferences) : LexFault → Bool
  | .invalidCharacter _ => p.reportInvalid
  | _ => true

def reportFault [Build] (p : LexicalPreferences) (out : Reporter) (r : LexReport) : Reporter :=
  let out := out.log (faultEvent r)
  if reaches p r.fault then out.syntaxError none r.place.line r.place.charInLine r.notice else out

/-- Logs and reports a whole lexing. -/
def report [Build] (p : LexicalPreferences) (source : String) (s : TokenizedSource)
    (out : Reporter) :
    Reporter :=
  let out := out.log <|
    ((Event.debug "Starting lexical analysis").add "bytes" source.utf8ByteSize).add
      "max_tokens_allowed" Limit.tokens
  let out := s.reports.foldl (reportFault p) out
  let figures := s.metrics p
  out.log <|
    (((Event.success .tokenizationComplete "Lexical analysis completed").add
      "tokens" figures.total).add "comments" figures.comments).add "errors" s.reports.size

end TokenizedSource

end EvlCheck
