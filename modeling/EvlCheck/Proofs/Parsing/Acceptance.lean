/-
The parser accepts its grammar. Both halves are put together here: what is read without an error is a
program of the grammar (`program_read`), and every program of the grammar is read without an error
(`program_accepts`). The second half also says what is returned, so that no two programs of the grammar
that differ in more than their places have the same terminals.
-/
import EvlCheck.Parsing.Parse
import EvlCheck.Proofs.Parsing.AcceptStatement

namespace EvlCheck

/-- Parsing a row of tokens that ends with the end of the source is reading a program from its first
token on, with no error at the start. -/
theorem Parser.exists_program_of_row [Build] {stream : TokenStream} {front : List SpannedToken}
    {place : Span}
    (hrow : stream.significant.toList.map StreamToken.spanned = front ++ [⟨.eof, place⟩])
    (hposition : stream.position = 0) (preferences : ParserPreferences) (reporter : Reporter) :
    let result := (start stream preferences reporter).parseProgram
    ∃ p : Parser, (p.Ready ∧ p.Clean ∧ p.stream = stream ∧ p.preferences = preferences ∧
        p.errors = reporter.errors) ∧
      p.pending = front.map (·.value) ++ [.eof] ∧
      result.1 = (Parsing.program p).1 ∧ result.2.history = (Parsing.program p).2.history ∧
        result.2.errors = (Parsing.program p).2.errors := by
  intro result
  obtain ⟨p, ⟨hstream, hpreferences, hhistory, hhalted, herrors⟩, htree, -, hlast, hreported⟩ :=
    Parser.exists_program stream preferences reporter
  refine ⟨p, ⟨⟨?_, fun _ => hhalted⟩, ?_, hstream, hpreferences, herrors⟩, ?_, htree, hlast,
    hreported⟩
  · rw [hstream]
    exact TokenStream.ended_of_row hrow
  · unfold Clean
    rw [hhistory]
  · rw [← hstream] at hrow
    have hzero : p.position = 0 := by
      unfold position
      rw [hstream, hposition]
    have hahead := pending_of_row (show _ = [] ++ (_ ++ _) from hrow) hzero
    rw [hahead, List.map_append]
    rfl

/-- Parsing tokens that end with the end of the source is reading a program from all those that are
significant, with no error at the start. -/
theorem Parser.exists_program_of_start [Build] {tokens : Array SpannedToken}
    {front : List SpannedToken} {place : Span} (h : tokens.toList = front ++ [⟨.eof, place⟩])
    (preferences : ParserPreferences) (reporter : Reporter) :
    let result := (start (.ofTokens tokens) preferences reporter).parseProgram
    ∃ p : Parser, p.Ready ∧ p.Clean ∧
      p.stream.significant.toList.map StreamToken.spanned =
        front.filter (·.value.isSignificant) ++ [⟨.eof, place⟩] ∧
      p.pending = (front.filter (·.value.isSignificant)).map (·.value) ++ [.eof] ∧
      result.1 = (Parsing.program p).1 ∧ result.2.history = (Parsing.program p).2.history := by
  intro result
  have hrow := TokenStream.map_spanned_ofTokens h
  obtain ⟨p, ⟨hready, hclean, hstream, -, -⟩, hpending, htree, hlast, -⟩ :=
    Parser.exists_program_of_row hrow (TokenStream.position_ofTokens tokens) preferences reporter
  rw [← hstream] at hrow
  exact ⟨p, hready, hclean, hrow, hpending, htree, hlast⟩

namespace Parsing

open EvlCheck.Parser

/-- What stands before the end of the source, where no end stands in it, is cut off in one way. -/
theorem eq_of_append_eof {before after : List Token} {all : List Token}
    (h : before ++ .eof :: after = all ++ [.eof]) (hall : Token.eof ∉ all) : before = all := by
  rcases List.append_eq_append_iff.1 h with ⟨more, rfl, hmore⟩ | ⟨more, rfl, hmore⟩
  · cases more with
    | nil => simp
    | cons t more =>
      cases hmore
      simp at hall
  · cases more with
    | nil => simp
    | cons t more =>
      have := congrArg List.length hmore
      simp at this

/-- What is read without an error are the terminals of the program, up to the end. -/
theorem pending_of_clean [Build] {p q : Parser} {tree : Program} (hp : p.Ready)
    (h : program p = (tree, q)) (hq : q.Clean) :
    tree.Grammatical ∧ tree.nesting ≤ Limit.parseDepth ∧
      ∃ after, p.pending = tree.terminals ++ .eof :: after := by
  have hread := program_read hp h
  obtain ⟨hgood, hnesting, hend⟩ := hread.good
  have htokens := hread.tokens hq
  obtain ⟨after, hafter⟩ := q.pending_eq_cons
  have heof : q.stream.current.value = .eof := by
    unfold TokenStream.atEnd at hend
    cases hv : q.stream.current.value with
    | eof => rfl
    | _ => rw [hv] at hend; cases hend
  rw [heof] at hafter
  refine ⟨hgood, hnesting, after, ?_⟩
  rw [← hafter, ← htokens]
  unfold pending valuesFrom
  rw [hread.onward.tokens, ← List.map_append]
  congr 1
  have hsplit := List.take_append_drop (q.position - p.position)
    (p.stream.significant.toList.drop p.position)
  rw [List.drop_drop, Nat.add_sub_cancel' hread.onward.position] at hsplit
  exact hsplit.symm

/-- Where no end stands among the tokens, these are all the terminals. -/
theorem terminals_of_clean [Build] {p q : Parser} {tree : Program} {all : List Token} (hp : p.Ready)
    (hpending : p.pending = all ++ [.eof]) (hall : Token.eof ∉ all) (h : program p = (tree, q))
    (hq : q.Clean) :
    tree.Grammatical ∧ tree.nesting ≤ Limit.parseDepth ∧ tree.terminals = all := by
  obtain ⟨hgood, hnesting, after, hafter⟩ := pending_of_clean hp h hq
  exact ⟨hgood, hnesting, eq_of_append_eof (hafter.symm.trans hpending) hall⟩

end Parsing

/-- The parser accepts exactly its grammar. Tokens that it sees, and the end of the source behind
them, are parsed without a reported error if and only if they are the terminals of a program of the
grammar that needs no more rules open at once than are permitted; and the parse returns that program,
up to its places, so that there is no other. -/
theorem parseProgram_accepts [Build] (tokens : List SpannedToken) (place : Span)
    (preferences : ParserPreferences) (reporter : Reporter)
    (hseen : ∀ t ∈ tokens, t.value.isSignificant = true ∧ t.value ≠ .eof) :
    let stream := TokenStream.ofTokens (tokens ++ [⟨.eof, place⟩] : List SpannedToken).toArray
    let result := (Parser.start stream preferences reporter).parseProgram
    (result.2.history.errors = [] ↔
      ∃ tree : Program, tree.Grammatical ∧ tree.nesting ≤ Limit.parseDepth ∧
        tree.terminals = tokens.map (·.value)) ∧
    ∀ tree : Program, tree.Grammatical → tree.nesting ≤ Limit.parseDepth →
      tree.terminals = tokens.map (·.value) → result.1.bare = tree.bare := by
  intro stream result
  have htokens : (tokens ++ [⟨.eof, place⟩] : List SpannedToken).toArray.toList =
      tokens ++ [⟨.eof, place⟩] := rfl
  obtain ⟨p, hready, hstart, -, hpending, htree, herrors⟩ :=
    Parser.exists_program_of_start htokens preferences reporter
  rw [List.filter_eq_self.2 fun t ht => (hseen t ht).1] at hpending
  have hall : Token.eof ∉ tokens.map (·.value) := by
    intro h
    obtain ⟨t, ht, heof⟩ := List.mem_map.1 h
    exact (hseen t ht).2 heof
  -- What is returned is said of every program with these terminals, so there is only one.
  have haccepts : ∀ tree : Program, tree.Grammatical → tree.nesting ≤ Limit.parseDepth →
      tree.terminals = tokens.map (·.value) →
      result.2.history.errors = [] ∧ result.1.bare = tree.bare := by
    intro tree hgood hnesting hterminals
    obtain ⟨tree', q, hq, hbare, hclean⟩ :=
      Parsing.program_accepts hgood hnesting hready (by rw [hpending, hterminals])
    rw [hq] at htree herrors
    constructor
    · rw [show result.2.history = q.history from herrors, hclean]
      exact hstart
    · rw [show result.1 = tree' from htree, hbare]
  refine ⟨⟨?_, ?_⟩, fun tree hgood hnesting hterminals =>
    (haccepts tree hgood hnesting hterminals).2⟩
  · intro hclean
    have hq : (Parsing.program p).2.Clean := by
      unfold Parser.Clean
      rw [← herrors]
      exact hclean
    exact ⟨_, Parsing.terminals_of_clean hready hpending hall rfl hq⟩
  · rintro ⟨tree, hgood, hnesting, hterminals⟩
    exact (haccepts tree hgood hnesting hterminals).1

/-- The tokens of a print statement for a string on its own and for an expression. -/
def differenceTokens : List SpannedToken :=
  [.keyword .print, .symbol .leftParen, .string "\"a\"", .symbol .comma, .integer "8",
    .symbol .minus, .integer "4", .symbol .minus, .symbol .minus, .identifier "x",
    .symbol .rightParen].map fun t => ⟨t, .dummy⟩

/-- Their program: the differences group to the left, and the last minus sign belongs to the name. -/
def differenceTree : Program :=
  let difference : Expr :=
    .binary .subtract .dummy (.integer "8" .dummy) (.integer "4" .dummy) .dummy
  ⟨[.print [.string "\"a\"" .dummy,
      .expr (.binary .subtract .dummy difference (.unaryMinus (.name "x" .dummy) .dummy) .dummy)]
        .dummy], .dummy⟩

theorem parseProgram_accepts_difference :
    let stream := TokenStream.ofTokens (differenceTokens ++ [⟨.eof, .dummy⟩] : List SpannedToken).toArray
    let result := (Parser.start stream {} {}).parseProgram
    result.2.history.errors = [] ∧ result.1.bare = differenceTree := by
  have hgood : differenceTree.Grammatical := by
    simp [differenceTree, Program.Grammatical, Stmt.ListGrammatical, Stmt.Grammatical,
      PrintArg.Grammatical, Expr.FitsAt]
  have hnesting : differenceTree.nesting ≤ Limit.parseDepth := by decide
  have hterminals : differenceTree.terminals = differenceTokens.map (·.value) := rfl
  have hbare : differenceTree.bare = differenceTree := rfl
  have hseen : ∀ t ∈ differenceTokens, t.value.isSignificant = true ∧ t.value ≠ .eof := by decide
  obtain ⟨haccepts, hreturns⟩ := parseProgram_accepts differenceTokens .dummy {} {} hseen
  exact ⟨haccepts.2 ⟨differenceTree, hgood, hnesting, hterminals⟩,
    (hreturns differenceTree hgood hnesting hterminals).trans hbare⟩

end EvlCheck
