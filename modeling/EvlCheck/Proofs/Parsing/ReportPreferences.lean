/-
What the preferences on reports do to a parse. Two parses of the same tokens that differ in them go in
lockstep: they build the same tree, stop at the same place, and meet and report the same errors
(`lockstep_upToWarnings`). What they decide is whether the parser warns of strings that are printed
alone, and then it warns of each of those in the tree, where it begins.
-/
import EvlCheck.Proofs.Parsing.Lockstep
import EvlCheck.Proofs.Parsing.ReadStatement

namespace EvlCheck

/-! ## Two parses of the same tokens -/

namespace Parser

/-- The states are the same but for their logs, the warnings that were reported and whether these
are wished. -/
structure UpToWarnings [Build] (p q : Parser) : Prop where
  stream : p.stream = q.stream
  recovery : p.preferences.recovery = q.preferences.recovery
  history : p.history = q.history
  halted : p.halted = q.halted
  errors : p.errors = q.errors

namespace UpToWarnings

variable [Build] {p q : Parser} (h : UpToWarnings p q)
include h

theorem reportError (e : SyntaxError) : UpToWarnings (p.reportError e) (q.reportError e) := by
  unfold Parser.reportError
  rw [h.halted, h.stream]
  split
  · exact h
  · refine ⟨h.stream, h.recovery, congrArg (·.record e) h.history, h.halted, ?_⟩
    dsimp only [Parser.errors, Parser.log]
    rw [Reporter.errors_syntaxError, Reporter.errors_syntaxError]
    exact congrArg (List.cons _) h.errors

theorem reportLoneString : UpToWarnings p.reportLoneString q.reportLoneString where
  stream := by rw [stream_reportLoneString, stream_reportLoneString, h.stream]
  recovery := by
    rw [(onward_reportLoneString p).preferences, (onward_reportLoneString q).preferences, h.recovery]
  history := by rw [history_reportLoneString, history_reportLoneString, h.history]
  halted := by rw [halted_reportLoneString, halted_reportLoneString, h.halted]
  errors := by rw [errors_reportLoneString, errors_reportLoneString, h.errors]

theorem recover (inBlock : Bool) : UpToWarnings (p.recover inBlock) (q.recover inBlock) := by
  unfold Parser.recover
  rw [h.recovery, h.stream]
  split
  · exact ⟨rfl, h.recovery, h.history, rfl, h.errors⟩
  · cases resume? inBlock Limit.recoveryScan q.stream with
    | none =>
      dsimp only [Parser.log]
      exact ⟨congrArg skipToEnd h.stream, h.recovery, h.history, h.halted, h.errors⟩
    | some s => exact ⟨rfl, h.recovery, h.history, h.halted, h.errors⟩

end UpToWarnings

theorem lockstep_upToWarnings [Build] : Lockstep id UpToWarnings where
  value h := by rw [h.stream]
  span h := by rw [h.stream]
  next h := by rw [h.stream]
  position h := congrArg TokenStream.position h.stream
  size h := by rw [h.stream]
  spanFrom _ h := by rw [h.stream]
  log _ _ h := ⟨h.stream, h.recovery, h.history, h.halted, h.errors⟩
  record _ _ h := ⟨h.stream, h.recovery, h.history, h.halted, h.errors⟩
  advance h := ⟨congrArg TokenStream.advance h.stream, h.recovery, h.history, h.halted, h.errors⟩
  reportLoneString h := h.reportLoneString
  reportError h he := by
    rw [SyntaxError.mapSpan_id, SyntaxError.mapSpan_id] at he
    exact he ▸ h.reportError _
  recover inBlock h := h.recover inBlock

end Parser

/-! ## A whole parse -/

namespace Parser

/-- A parse without errors has warned of the strings that are printed alone, if that was wished. -/
theorem tells_parseProgram [Build] {p : Parser} (hp : p.Ready) (hclean : p.parseProgram.2.Clean) :
    Tells p [p.parseProgram.1.toNode] p.parseProgram.2 := by
  let q := p.openProgram.log <|
    ((Event.info "Starting EVAL program parsing").add "tokens" p.stream.size).add "context"
      p.openProgram.rules.current
  have hq : q.Ready := ⟨hp.ended, hp.running⟩
  have hroot : (Parsing.program q).1.toNode =
      .mk .program (Parsing.program q).1.span ((Parsing.program q).1.statements.map Stmt.toNode) :=
    congrArg (Node.mk .program _) (Stmt.toNodes_eq [] _)
  have hinside : Tells q ((Parsing.program q).1.statements.map Stmt.toNode) (Parsing.program q).2 :=
    (Parsing.program_read hq rfl).tells hclean
  show Tells q [(Parsing.program q).1.toNode] (Parsing.program q).2
  rw [hroot]
  exact hinside.node rfl _

/-- Two parses of the same tokens that differ in what they report or log give the same tree and stop
at the same place with the same errors. Where warnings are wished and no error was met, there is one
for each string that is printed alone, in order and where the string begins; where they are not
wished, there is none. -/
theorem parseProgram_upToWarnings [Build] (tokens : Array SpannedToken) (position : Nat)
    (recovery : Bool) (out : Reporter) :
    let run (report log : Bool) :=
      (start ((TokenStream.ofTokens tokens).restore position) ⟨recovery, report, log⟩ out).parseProgram
    (∀ report log report' log',
      (run report log).1 = (run report' log').1 ∧
      (run report log).2.history = (run report' log').2.history ∧
      (run report log).2.stream = (run report' log').2.stream ∧
      (run report log).2.errors = (run report' log').2.errors) ∧
    (∀ log, (run true log).2.history.errors = [] →
      (run true log).2.reporter.warnings.reverse.map (·.place) =
        out.warnings.reverse.map (·.place) ++
          (run true log).1.toNode.preorder.filterMap fun x => x.2.loneString?) ∧
    ∀ log, (run false log).2.reporter.warnings = out.warnings := by
  intro run
  let stream := (TokenStream.ofTokens tokens).restore position
  have hended : stream.Ended := (TokenStream.ended_ofTokens_any tokens).congr rfl
  have hindexed : stream.Indexed := (TokenStream.indexed_ofTokens tokens).congr rfl rfl
  refine ⟨fun report log report' log' => ?_, fun log hclean => ?_, fun log => ?_⟩
  · -- No rule reads the warnings or the log, which is all that these preferences change.
    have hstart : UpToWarnings (start stream ⟨recovery, report, log⟩ out)
        (start stream ⟨recovery, report', log'⟩ out) := ⟨rfl, rfl, rfl, rfl, rfl⟩
    obtain ⟨htree, hstate⟩ := lockstep_upToWarnings.parseProgram hstart
    rw [Program.mapSpan_id, Program.mapSpan_id] at htree
    exact ⟨htree, hstate.history, hstate.stream, hstate.errors⟩
  · have hready : (start stream ⟨recovery, true, log⟩ out).Ready := ⟨hended, fun _ => rfl⟩
    have htells := tells_parseProgram hready hclean hindexed
    rw [Node.allLoneStrings_single, ← Node.filterMap_preorder] at htells
    rw [List.map_reverse, List.map_reverse, ← List.reverse_reverse (List.filterMap _ _),
      ← List.reverse_append]
    exact congrArg List.reverse htells
  · have hstart : (start stream ⟨recovery, false, log⟩ out).Unwarned out.warnings := ⟨rfl, rfl⟩
    exact ((Parsing.lasting_unwarned out.warnings).parseProgram hstart).warnings

/-- The tokens of a print statement with two strings and a number between them. -/
def printTokens : Array SpannedToken :=
  #[⟨.keyword .print, ⟨0, 1, 1⟩, ⟨5, 1, 6⟩⟩, ⟨.symbol .leftParen, ⟨5, 1, 6⟩, ⟨6, 1, 7⟩⟩,
    ⟨.string "a", ⟨6, 1, 7⟩, ⟨9, 1, 10⟩⟩, ⟨.symbol .comma, ⟨9, 1, 10⟩, ⟨10, 1, 11⟩⟩,
    ⟨.integer "1", ⟨10, 1, 11⟩, ⟨11, 1, 12⟩⟩, ⟨.symbol .comma, ⟨11, 1, 12⟩, ⟨12, 1, 13⟩⟩,
    ⟨.string "b", ⟨13, 2, 1⟩, ⟨16, 2, 4⟩⟩, ⟨.symbol .rightParen, ⟨16, 2, 4⟩, ⟨17, 2, 5⟩⟩,
    ⟨.eof, ⟨17, 2, 5⟩, ⟨17, 2, 5⟩⟩]

theorem parseProgram_upToWarnings_print :
    let result := (start ((TokenStream.ofTokens printTokens).restore 0) {} {}).parseProgram
    result.2.history.errors = [] ∧
      result.2.reporter.warnings.reverse.map (·.place) = [toLex (1, 6), toLex (2, 0)] := by
  intro result
  have hclean : result.2.history.errors = [] := by decide +kernel
  obtain ⟨-, hwarned, -⟩ := parseProgram_upToWarnings printTokens 0 true {}
  exact ⟨hclean, (hwarned false hclean).trans (by decide +kernel)⟩

end Parser

end EvlCheck
