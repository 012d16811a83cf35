/-
What bounds the depth of a parse tree. The nesting limit does, but for operators beside each other: a
sum of many terms is read by one rule, and its tree is as deep as it has terms. So the depth of the
tree of a source is bounded by the nesting limit and the limit on tokens together, and not by the
first alone.
-/
import EvlCheck.Proofs.Parsing.RoundTrip
import EvlCheck.Proofs.Tree.Depth

namespace EvlCheck

/-! ## The tokens that the parser sees -/

namespace Lexing

/-- The parser sees the token. -/
def IsSeen (t : SpannedToken) : Bool := t.value.isSignificant && !t.value.isEof

theorem countP_push (tokens : Array SpannedToken) (t : SpannedToken) :
    (tokens.push t).toList.countP IsSeen =
      tokens.toList.countP IsSeen + if IsSeen t then 1 else 0 := by
  rw [Array.toList_push, List.countP_append, List.countP_singleton]

/-- What the parser sees counts as a token. -/
theorem counts_of_isSeen {p : LexicalPreferences} {t : SpannedToken} (h : IsSeen t = true) :
    LexMetrics.counts p t.value = true := by
  obtain ⟨value, span⟩ := t
  cases value <;> first | rfl | cases h

/-- The error and the end of the source that stand for the rest are not seen. -/
theorem countP_breach (cs : List Char) (place : Position) (fault : LexFault)
    (tokens : Array SpannedToken) (reports : Array LexReport) :
    (breach cs place fault tokens reports).tokens.toList.countP IsSeen =
      tokens.toList.countP IsSeen := by
  unfold breach
  rw [countP_push, countP_push]
  rfl

/-- Lexing adds no more tokens that are seen than the limit leaves. -/
theorem countP_tokenizeFrom_le [Build] (p : LexicalPreferences) (cs : List Char) (place : Position)
    (counted : Nat) (tokens : Array SpannedToken) (reports : Array LexReport) :
    (tokenizeFrom p cs place counted tokens reports).tokens.toList.countP IsSeen ≤
      tokens.toList.countP IsSeen + (Limit.tokens - counted) := by
  fun_induction tokenizeFrom p cs place counted tokens reports with
  | case1 place counted tokens reports =>
    rw [countP_push]
    exact Nat.le_add_right _ _
  | case2 place counted tokens reports c rest h =>
    rw [countP_breach]
    exact Nat.le_add_right _ _
  | case3 place counted tokens reports c rest h lexeme stop t hok ih =>
    rw [countP_push] at ih
    refine Nat.le_trans ih ?_
    by_cases hseen : IsSeen ⟨t, ⟨place, stop⟩⟩ = true
    · have hcounts : LexMetrics.counts p t = true := counts_of_isSeen hseen
      rw [if_pos hseen, dif_pos hcounts]
      omega
    · rw [if_neg hseen]
      split <;> omega
  | case4 place counted tokens reports c rest h lexeme fault hfault hb =>
    rw [countP_breach]
    exact Nat.le_add_right _ _
  | case5 place counted tokens reports c rest h lexeme stop fault hfault hb text ih =>
    rw [countP_push, if_neg (by simp [IsSeen, Token.isSignificant, Token.isError])] at ih
    omega

theorem length_visible_le [Build] (p : LexicalPreferences) (source : String) :
    (tokenize p source).visible.length ≤ Limit.tokens := by
  unfold TokenizedSource.visible
  rw [← List.countP_eq_length_filter]
  unfold tokenize
  dsimp only
  split
  · exact Nat.zero_le _
  · have h := countP_tokenizeFrom_le p source.toList .start 0 #[] #[]
    rwa [Array.toList_empty, List.countP_nil, Nat.zero_add, Nat.sub_zero] at h

end Lexing

/-! ## The bound -/

/-- What bounds the depth of the tree of a source. When a left operand counts on the level of its
operator, there are two levels for each rule that may be open, and two more; the depth exceeds that
by at most the number of steps to left operands on one way down; and these are no more than there are
tokens, of which there are no more than the limit allows. -/
theorem parse_depth_le [Build] (lexical : LexicalPreferences) (preferences : ParserPreferences)
    (source : String) :
    let root := (parse lexical preferences source).tree.toNode
    let tokens := (Lexing.tokenize lexical source).visible
    root.depth ≤ root.level + root.leftSteps ∧ root.level ≤ 2 * Limit.parseDepth + 2 ∧
      root.leftSteps ≤ tokens.length ∧ tokens.length ≤ Limit.tokens := by
  intro root tokens
  obtain ⟨-, hnesting, row, last, a, b, -, hb, hplaced⟩ := parse_reads lexical preferences source
  have hlevel := (parse lexical preferences source).tree.level_toNode_le
  refine ⟨root.depth_le, ?_, ?_, Lexing.length_visible_le lexical source⟩
  · exact Nat.le_trans hlevel (Nat.add_le_add_right (Nat.mul_le_mul_left 2 hnesting) 2)
  · -- the root is not placed itself, since a program may be without tokens
    have hroom := hplaced.widen (Nat.le_refl a) (Nat.le_succ b)
    have hsteps : a + root.leftSteps < b + 1 :=
      hroom.leftStepsAll_lt (Nat.lt_succ_of_le hplaced.le)
    have hseen : b ≤ tokens.length := hb
    omega

/-! ## Sums -/

namespace Lexing

/-- The scanner cuts the text into lexemes, each of which is a token. While `ReadAs` says what a text
stands for where no limit is exceeded, here no lexeme has exceeded one. -/
inductive Lexes [Build] : List Char → List Token → Prop
  | done : Lexes [] []
  | word {c : Char} {rest taken after : List Char} {t : Token} {ts : List Token}
      (scanned : scan c rest = ⟨taken, after, .ok t⟩) (next : Lexes after ts) :
      Lexes (c :: rest) (t :: ts)

/-- Where no lexeme is at fault and the tokens are within their limit, these are all tokens. -/
theorem Lexes.map_value [Build] {cs : List Char} {ts : List Token} (h : Lexes cs ts)
    (p : LexicalPreferences) (place : Position) (counted : Nat) (tokens : Array SpannedToken)
    (reports : Array LexReport) (hroom : counted + ts.length ≤ Limit.tokens) :
    (tokenizeFrom p cs place counted tokens reports).tokens.toList.map (·.value) =
      tokens.toList.map (·.value) ++ (ts ++ [.eof]) := by
  induction h generalizing place counted tokens with
  | done => simp [tokenizeFrom]
  | @word c rest taken after t ts scanned next ih =>
    rw [List.length_cons] at hroom
    rw [tokenizeFrom, if_neg (by omega)]
    simp only [scanned]
    rw [ih _ _ _ (by split <;> omega)]
    simp

theorem Lexes.map_value_visible [Build] {source : String} {ts : List Token}
    (h : Lexes source.toList ts) (p : LexicalPreferences)
    (hsize : source.utf8ByteSize ≤ Limit.sourceBytes) (hroom : ts.length ≤ Limit.tokens) :
    (tokenize p source).visible.map (·.value) =
      ts.filter fun t => t.isSignificant && !t.isEof := by
  have htokens := h.map_value p .start 0 #[] #[] (by omega)
  have hvisible : (tokenize p source).visible.map (·.value) =
      ((tokenize p source).tokens.toList.map (·.value)).filter
        fun t => t.isSignificant && !t.isEof := by
    unfold TokenizedSource.visible
    rw [List.filter_map]
    rfl
  have hfrom : tokenize p source = tokenizeFrom p source.toList .start 0 #[] #[] := by
    simp only [tokenize]
    rw [if_neg (by omega)]
  rw [hvisible, hfrom, htokens]
  simp [Token.isEof]

end Lexing

/-- A source whose visible tokens are the terminals of a program of the grammar is parsed as that
program. -/
theorem parse_bare [Build] (lexical : LexicalPreferences) (preferences : ParserPreferences)
    {source : String} {tree : Program} (hgood : tree.Grammatical)
    (hnesting : tree.nesting ≤ Limit.parseDepth)
    (hterminals : (Lexing.tokenize lexical source).visible.map (·.value) = tree.terminals) :
    (parse lexical preferences source).tree.bare = tree.bare := by
  obtain ⟨p, -, hready, -, hpending, htree⟩ := exists_program_of_parse lexical preferences source
  rw [hterminals] at hpending
  obtain ⟨tree', q, hq, hbare, -⟩ := Parsing.program_accepts hgood hnesting hready hpending
  rw [htree, hq]
  exact hbare

/-- Ones added to a one. -/
def onesSum : Nat → Expr
  | 0 => .integer "1" .dummy
  | k + 1 => .binary .add .dummy (onesSum k) (.integer "1" .dummy) .dummy

/-- A declaration of such a sum. -/
def onesSource (k : Nat) : String :=
  "int x=1" ++ String.ofList (List.replicate k ['+', '1']).flatten

def onesTokens (k : Nat) : List Token :=
  [.keyword .int, .whitespace " ", .identifier "x", .symbol .assign] ++ (onesSum k).terminals

/-- The program that is written so. -/
def onesProgram (k : Nat) : Program := ⟨[.varDecl ⟨.int, "x", onesSum k, .dummy⟩], .dummy⟩

namespace OnesSum

theorem terminals_eq (k : Nat) : (onesSum k).terminals =
    .integer "1" :: (List.replicate k [.symbol .plus, .integer "1"]).flatten := by
  induction k with
  | zero => rfl
  | succ k ih =>
    rw [List.replicate_succ', List.flatten_append, onesSum, Expr.terminals, ih]
    rfl

theorem bare_eq (k : Nat) : (onesSum k).bare = onesSum k := by
  induction k with
  | zero => rfl
  | succ k ih => rw [onesSum, Expr.bare, ih]; rfl

/-- One rule reads the sum, and one more each of its terms. -/
theorem nesting_le (k : Nat) : (onesSum k).nesting ≤ 1 := by
  induction k with
  | zero => exact Nat.zero_le _
  | succ k ih => exact Nat.max_le.2 ⟨ih, Nat.le_refl _⟩

theorem fitsAt (k : Nat) : (onesSum k).FitsAt BinaryOp.add.level.precedence := by
  induction k with
  | zero => trivial
  | succ k ih => exact ⟨Nat.le_refl _, ih, trivial⟩

/-- Each term puts a node above those before it. -/
theorem depth_eq (k : Nat) : (onesSum k).toNode.depth = k + 1 := by
  induction k with
  | zero => simp [onesSum, Expr.toNode, Node.depth, Node.depthAll]
  | succ k ih =>
    simp only [onesSum, Expr.toNode, Node.depth, Node.depthAll, ih]
    omega

/-- A one is a number of its own in front of a plus sign and at the end. -/
theorem scan_one [Build] (k : Nat) : Lexing.scan '1' (List.replicate k ['+', '1']).flatten =
    ⟨['1'], (List.replicate k ['+', '1']).flatten, .ok (.integer "1")⟩ := by
  cases k <;> rfl

theorem lexes [Build] (k : Nat) :
    Lexing.Lexes ('1' :: (List.replicate k ['+', '1']).flatten) (onesSum k).terminals := by
  rw [terminals_eq]
  induction k with
  | zero => exact .word (scan_one 0) .done
  | succ k ih => exact .word (scan_one (k + 1)) (.word rfl ih)

theorem toList_source (k : Nat) : (onesSource k).toList =
    ['i', 'n', 't', ' ', 'x', '='] ++ '1' :: (List.replicate k ['+', '1']).flatten := by
  unfold onesSource
  rw [String.toList_append, String.toList_ofList, String.toList_ofList]
  rfl

theorem lexes_source (k : Nat) : Lexing.Lexes (onesSource k).toList (onesTokens k) := by
  rw [toList_source]
  exact .word rfl (.word rfl (.word rfl (.word rfl (lexes k))))

theorem length_terminals (k : Nat) : (onesSum k).terminals.length = 2 * k + 1 := by
  induction k with
  | zero => rfl
  | succ k ih =>
    rw [onesSum, Expr.terminals, List.length_append, ih]
    rfl

theorem utf8ByteSize_source (k : Nat) : (onesSource k).utf8ByteSize = 2 * k + 7 := by
  have hones : Text.byteSize (List.replicate k ['+', '1']).flatten = 2 * k := by
    induction k with
    | zero => rfl
    | succ k ih =>
      have hone : Text.byteSize ['+', '1'] = 2 := by decide
      rw [List.replicate_succ, List.flatten_cons, Text.byteSize_append, ih]
      omega
  have hsize := Text.utf8ByteSize_ofList (onesSource k).toList
  have hhead : Text.byteSize ['i', 'n', 't', ' ', 'x', '='] = 6 := by decide
  have hdigit : '1'.utf8Size = 1 := by decide
  rw [String.ofList_toList, toList_source, Text.byteSize_append, hhead, Text.byteSize_cons, hones]
    at hsize
  omega

/-- The blank behind the keyword is all that the parser does not see. -/
theorem filter_tokens (k : Nat) :
    (onesTokens k).filter (fun t => t.isSignificant && !t.isEof) = (onesProgram k).terminals := by
  have hpair : ∀ t ∈ [Token.symbol .plus, .integer "1"], (t.isSignificant && !t.isEof) = true := by
    decide
  have hsum : (onesSum k).terminals.filter (fun t => t.isSignificant && !t.isEof) =
      (onesSum k).terminals := by
    rw [terminals_eq, List.filter_eq_self, List.forall_mem_cons]
    refine ⟨rfl, fun t ht => ?_⟩
    obtain ⟨pair, hmem, ht⟩ := List.mem_flatten.1 ht
    exact hpair t (List.eq_of_mem_replicate hmem ▸ ht)
  have hprogram : (onesProgram k).terminals =
      [.keyword .int, .identifier "x", .symbol .assign] ++ (onesSum k).terminals := by
    simp [onesProgram, Program.terminals, Stmt.listTerminals, Stmt.terminals, VarDecl.terminals,
      ValueType.keyword]
  rw [onesTokens, List.filter_append, hsum, hprogram]
  rfl

/-- A program that differs from this one in its places only is as deep. -/
theorem depth_of_bare {tree : Program} {k : Nat} (h : tree.bare = onesProgram k) :
    tree.toNode.depth = k + 4 := by
  obtain ⟨statements, span⟩ := tree
  have hstatements : Stmt.listBare statements = [.varDecl ⟨.int, "x", onesSum k, .dummy⟩] :=
    congrArg Program.statements h
  match statements with
  | [] => cases hstatements
  | s :: rest =>
    rw [Stmt.listBare, List.cons.injEq] at hstatements
    obtain ⟨hs, hrest⟩ := hstatements
    obtain rfl : rest = [] := by
      cases rest with
      | nil => rfl
      | cons s rest => cases hrest
    cases s with
    | varDecl d =>
      have hvalue : d.value.bare = onesSum k := congrArg VarDecl.value (Stmt.varDecl.inj hs)
      have hdepth := d.value.depth_bare
      rw [hvalue, depth_eq] at hdepth
      simp only [Program.toNode, Stmt.toNodes_eq, List.reverse_nil, List.nil_append, List.map_cons,
        List.map_nil, Stmt.toNode, VarDecl.toNode, Node.depth, Node.depthAll, ← hdepth]
      omega
    | _ => cases hs

end OnesSum

/-- The nesting limit does not bound the depth: a sum is as deep as it has terms, as long as it is
within the limit on tokens. -/
theorem depth_parse_onesSource (lexical : LexicalPreferences) (preferences : ParserPreferences)
    (k : Nat) (hroom : 2 * k + 5 ≤ Limit.tokens) :
    (parse lexical preferences (onesSource k)).tree.toNode.depth = k + 4 := by
  have hlimits : 2 * Limit.tokens ≤ Limit.sourceBytes := by decide
  have hsize : (onesSource k).utf8ByteSize ≤ Limit.sourceBytes := by
    rw [OnesSum.utf8ByteSize_source]
    omega
  have hlength : (onesTokens k).length ≤ Limit.tokens := by
    have hsum := OnesSum.length_terminals k
    have htokens : (onesTokens k).length = (onesSum k).terminals.length + 4 := rfl
    omega
  have hseen := (OnesSum.lexes_source k).map_value_visible lexical hsize hlength
  have hterminals : (Lexing.tokenize lexical (onesSource k)).visible.map (·.value) =
      (onesProgram k).terminals := by
    rw [hseen, OnesSum.filter_tokens]
  have hgood : (onesProgram k).Grammatical := ⟨(OnesSum.fitsAt k).of_le_rank (Nat.zero_le _), trivial⟩
  have hnesting : (onesProgram k).nesting ≤ Limit.parseDepth := by
    have hsum := OnesSum.nesting_le k
    have hprogram : (onesProgram k).nesting = max ((onesSum k).nesting + 2) 0 := rfl
    have hlimit : 3 ≤ Limit.parseDepth := by decide
    omega
  refine OnesSum.depth_of_bare ?_
  rw [parse_bare lexical preferences hgood hnesting hterminals]
  simp [onesProgram, Program.bare, Stmt.listBare, Stmt.bare, VarDecl.bare, OnesSum.bare_eq]

/-- A sum of 402 terms is deeper than four levels for each rule that may be open, and four more. -/
theorem parse_depth_exceeds : ¬ (parse {} {} (onesSource 401)).tree.toNode.depth ≤
    4 * Limit.parseDepth + 4 := by
  rw [depth_parse_onesSource {} {} 401 (by decide)]
  decide

end EvlCheck
