/-
The open rules. Whatever a rule of the grammar meets, it closes what it has opened: the rules that are open
behind it are those that were open before it, whether it succeeds or not, and at every moment in between the
parser's account of them is true (`RuleStack.Sound`). The account is the names of the outermost rules, the
number of the others, and the depth.

That the depth and the rules that may still be opened are always as many as permitted is what the
induction over the rules carries.
-/
import EvlCheck.Proofs.Parsing.Rules

namespace EvlCheck

/-! ## The account of the open rules -/

namespace RuleStack

variable [Build]

@[simp] theorem entered_push (s : RuleStack) (r : Rule) : (s.push r).entered = r :: s.entered := by
  unfold push
  dsimp only
  split <;> rfl

@[simp] theorem depth_push (s : RuleStack) (r : Rule) : (s.push r).depth = s.depth := by
  unfold push
  dsimp only
  split <;> rfl

@[simp] theorem entered_enter (s : RuleStack) (r : Rule) : (s.enter r).entered = r :: s.entered :=
  s.entered_push r

@[simp] theorem depth_enter (s : RuleStack) (r : Rule) : (s.enter r).depth = s.depth + 1 := rfl

/-- The account of the open rules is true: the names are those of the outermost, at most as many as are
kept, the overflow counts the rules whose names are not, and the depth counts the rules besides the
program, of which no more are open than permitted. -/
structure Sound (s : RuleStack) : Prop where
  names_eq : s.names.reverse = s.entered.reverse.take Limit.ruleStack
  length_names_le : s.names.length ≤ Limit.ruleStack
  overflow_eq : s.overflow = s.entered.length - Limit.ruleStack
  depth_eq : s.depth = s.entered.countP (· != .program)
  depth_le : s.depth ≤ Limit.parseDepth

theorem sound_empty : Sound {} :=
  ⟨List.take_nil.symm, Nat.zero_le _, (Nat.zero_sub _).symm, rfl, Nat.zero_le _⟩

namespace Sound

variable {s : RuleStack} {r : Rule} (h : s.Sound)
include h

theorem length_names : s.names.length = min Limit.ruleStack s.entered.length := by
  rw [← List.length_reverse, h.names_eq, List.length_take, List.length_reverse]

/-- Names are kept while there is room for them. -/
theorem push_names (r : Rule) :
    (s.push r).names.reverse = (s.push r).entered.reverse.take Limit.ruleStack ∧
      (s.push r).overflow = (s.push r).entered.length - Limit.ruleStack := by
  have hlength := h.length_names
  have hoverflow := h.overflow_eq
  rw [entered_push, List.reverse_cons, List.length_cons]
  unfold push
  dsimp only
  split
  · constructor
    · rw [List.take_append_of_le_length (by rw [List.length_reverse]; omega)]
      exact h.names_eq
    · dsimp only
      omega
  · constructor
    · rw [List.reverse_cons, h.names_eq, List.take_of_length_le (by rw [List.length_reverse]; omega),
        List.take_of_length_le (by rw [List.length_append, List.length_reverse, List.length_singleton]; omega)]
    · dsimp only
      omega

theorem length_push_names_le (r : Rule) : (s.push r).names.length ≤ Limit.ruleStack := by
  rw [← List.length_reverse, (h.push_names r).1]
  exact List.length_take_le _ _

/-- Closing undoes opening. -/
theorem pop_push (r : Rule) : (s.push r).pop = s := by
  have hlength := h.length_names
  have hoverflow := h.overflow_eq
  obtain ⟨names, overflow, depth, entered⟩ := s
  unfold push
  dsimp only at *
  split
  · rfl
  · have hzero : overflow = 0 := by omega
    subst hzero
    rfl

theorem exit_enter (r : Rule) : (s.enter r).exit = s := by
  have hpop : (s.enter r).pop = { (s.push r).pop with depth := s.depth + 1 } := by
    unfold enter pop
    dsimp only
    split <;> rfl
  unfold exit
  rw [hpop, h.pop_push]
  rfl

/-- The program may be opened anywhere. -/
theorem openProgram : (s.push .program).Sound where
  names_eq := (h.push_names _).1
  length_names_le := h.length_push_names_le _
  overflow_eq := (h.push_names _).2
  depth_eq := by rw [depth_push, entered_push, h.depth_eq, List.countP_cons_of_neg (by decide)]
  depth_le := by rw [depth_push]; exact h.depth_le

/-- Other rules may be opened as long as fewer than permitted are open. -/
theorem enter (hr : r ≠ .program) (hfree : s.depth < Limit.parseDepth) : (s.enter r).Sound where
  names_eq := (h.push_names r).1
  length_names_le := h.length_push_names_le r
  overflow_eq := (h.push_names r).2
  depth_eq := by rw [depth_enter, entered_enter, List.countP_cons_of_pos (by simpa using hr), h.depth_eq]
  depth_le := hfree

end Sound

end RuleStack

/-! ## Moves between rules -/

namespace Parser

variable [Build]

/-- The rules `s` are open, and the account of the open rules has been true ever since the moments
`earlier`. -/
structure Balanced (s : RuleStack) (earlier : List RuleStack) (p : Parser) : Prop where
  rules_eq : p.rules = s
  moments : ∃ made, p.moments = made ++ earlier ∧ ∀ t ∈ made, t.Sound

theorem balanced_self (p : Parser) : Balanced p.rules p.moments p :=
  ⟨rfl, [], rfl, fun _ ht => nomatch ht⟩

namespace Balanced

variable {s t : RuleStack} {earlier : List RuleStack} {p q : Parser} {r : Rule}

theorem congr (h : Balanced s earlier p) (hrules : q.rules = p.rules) (hmoments : q.moments = p.moments) :
    Balanced s earlier q := by
  refine ⟨hrules.trans h.rules_eq, ?_⟩
  rw [hmoments]
  exact h.moments

theorem record (h : Balanced s earlier p) (ht : t.Sound) : Balanced t earlier (p.record t) := by
  obtain ⟨made, hmade, hsound⟩ := h.moments
  refine ⟨rfl, t :: made, congrArg (t :: ·) hmade, ?_⟩
  exact List.forall_mem_cons.2 ⟨ht, hsound⟩

theorem enter (h : Balanced s earlier p) (hs : s.Sound) (hr : r ≠ .program) (hfree : s.depth < Limit.parseDepth) :
    Balanced (s.enter r) earlier (p.enter r) := by
  unfold Parser.enter
  rw [h.rules_eq]
  exact h.record (hs.enter hr hfree)

theorem leave (h : Balanced (s.enter r) earlier p) (hs : s.Sound) : Balanced s earlier p.leave := by
  unfold Parser.leave
  rw [h.rules_eq, hs.exit_enter]
  exact h.record hs

theorem openProgram (h : Balanced s earlier p) (hs : s.Sound) :
    Balanced (s.push .program) earlier p.openProgram := by
  unfold Parser.openProgram
  rw [h.rules_eq]
  exact h.record hs.openProgram

theorem closeProgram (h : Balanced (s.push .program) earlier p) (hs : s.Sound) :
    Balanced s earlier p.closeProgram := by
  unfold Parser.closeProgram
  rw [h.rules_eq, hs.pop_push]
  exact h.record hs

end Balanced

/-! ## Moves inside a rule -/

theorem rules_reportError (p : Parser) (e : SyntaxError) :
    (p.reportError e).rules = p.rules ∧ (p.reportError e).moments = p.moments := by
  unfold reportError
  split <;> exact ⟨rfl, rfl⟩

theorem rules_recover (p : Parser) (inBlock : Bool) :
    (p.recover inBlock).rules = p.rules ∧ (p.recover inBlock).moments = p.moments := by
  unfold recover
  split
  · exact ⟨rfl, rfl⟩
  · split <;> exact ⟨rfl, rfl⟩

/-- No other move has to do with the rules that are open. -/
theorem flatLasting_balanced (s : RuleStack) (earlier : List RuleStack) :
    FlatLasting (Balanced s earlier) where
  log _ h := h.congr rfl rfl
  advance h := h.congr rfl rfl
  reportLoneString h := by
    unfold reportLoneString
    split
    · exact h
    · exact h.congr rfl rfl
  reportError {p} e h _ := h.congr (p.rules_reportError e).1 (p.rules_reportError e).2
  afterFailure {p} inBlock start e h _ := by
    have hreport := p.rules_reportError e
    have hrecover := (p.reportError e).rules_recover inBlock
    have hkept := h.congr (hrecover.1.trans hreport.1) (hrecover.2.trans hreport.2)
    unfold Parsing.afterFailure
    dsimp only
    split
    · exact hkept.congr rfl rfl
    · exact hkept

end Parser

/-! ## The rules of the grammar -/

theorem ParseM.Leads.keeps [Build] {α : Type} {K : Parser → Prop} {m : ParseM α} (h : m.Leads K K K)
    {p : Parser} (hp : K p) : K (m p).2 := by
  rcases hr : m p with ⟨e | a, q⟩
  · exact (h.error hp hr).1
  · exact h.ok hp hr

namespace Parsing

open EvlCheck.Parser ParseM

variable [Build] {α : Type} {s : RuleStack} {m : ParseM α} {p : Parser} {n : Nat}

/-- A step in a rule that may be opened, given the step with the rule open. -/
theorem leads_balanced_withRule (hs : s.Sound) {r : Rule} (hr : r ≠ .program) (hfree : s.depth < Limit.parseDepth)
    {earlier : List RuleStack}
    (hm : m.Leads (Balanced (s.enter r) earlier) (Balanced (s.enter r) earlier) (Balanced (s.enter r) earlier)) :
    (withRule r m).Leads (Balanced s earlier) (Balanced s earlier) (Balanced s earlier) :=
  hm.withRule (fun _ hp => hp.enter hs hr hfree) (fun _ hp => hp.leave hs) fun _ hp => hp.leave hs

theorem leads_balanced_expressionFrom_operand (n : Nat) {s : RuleStack} (hs : s.Sound)
    (hdepth : s.depth + n = Limit.parseDepth) (earlier : List RuleStack) :
    (∀ least, (expressionFrom n least).Leads (Balanced s earlier) (Balanced s earlier) (Balanced s earlier)) ∧
      (operand n).Leads (Balanced s earlier) (Balanced s earlier) (Balanced s earlier) := by
  induction n generalizing s with
  | zero =>
    -- Nothing is opened where the limit is reached, so that nothing is to be closed.
    have hflat := (flatLasting_balanced s earlier).flatUnbroken.toFlat
    constructor
    · intro least
      unfold expressionFrom
      exact leads_tooDeep hflat _
    · unfold operand
      exact leads_signed (leads_tooDeep hflat _).unseen (leads_primary hflat (leads_tooDeep hflat _))
  | succ n ih =>
    have hfree : s.depth < Limit.parseDepth := by omega
    -- With one more rule open, one less may be opened.
    have hinside : ∀ r, (s.enter r).depth + n = Limit.parseDepth := by
      intro r
      rw [RuleStack.depth_enter]
      omega
    have hflat : ∀ r, Flat (Balanced (s.enter r) earlier) := fun r =>
      (flatLasting_balanced (s.enter r) earlier).flatUnbroken.toFlat
    have hexpression : Rule.expression ≠ .program := by decide
    have hunary : Rule.unary ≠ .program := by decide
    have hoperation : ∀ least, (operation (operand n) (expressionFrom n) least).Leads (Balanced s earlier)
        (Balanced s earlier) (Balanced s earlier) := by
      intro least
      obtain ⟨hright, hoperand⟩ := ih (hs.enter hexpression hfree) (hinside _)
      exact leads_operation (hflat _) (fun _ hp => hp.enter hs hexpression hfree) (fun _ hp => hp.leave hs) hoperand
        hright least
    constructor
    · intro least
      unfold expressionFrom
      exact hoperation least
    · unfold operand
      refine leads_signed ?_ (leads_primary (flatLasting_balanced s earlier).flatUnbroken.toFlat (hoperation 0))
      have hoperand := (ih (hs.enter hunary hfree) (hinside _)).2
      exact (leads_negation (hflat _) hoperand).withRule (fun _ hp => ⟨hp.1.enter hs hunary hfree, hp.2⟩)
        (fun _ hp => hp.leave hs) fun _ hp => hp.leave hs

theorem leads_balanced_expression (hs : s.Sound) (hdepth : s.depth + n = Limit.parseDepth)
    (earlier : List RuleStack) :
    (expression n).Leads (Balanced s earlier) (Balanced s earlier) (Balanced s earlier) :=
  (leads_balanced_expressionFrom_operand n hs hdepth earlier).1 0

theorem leads_balanced_statement_block (n : Nat) {s : RuleStack} (hs : s.Sound)
    (hdepth : s.depth + n = Limit.parseDepth) (earlier : List RuleStack) :
    (statement n).Leads (Balanced s earlier) (Balanced s earlier) (Balanced s earlier) ∧
      (block n).Leads (Balanced s earlier) (Balanced s earlier) (Balanced s earlier) := by
  induction n generalizing s with
  | zero =>
    have hflat := (flatLasting_balanced s earlier).flatUnbroken.toFlat
    constructor
    · unfold statement
      exact leads_tooDeep hflat _
    · unfold block
      exact leads_tooDeep hflat _
  | succ n ih =>
    have hfree : s.depth < Limit.parseDepth := by omega
    have hinside : ∀ r, (s.enter r).depth + n = Limit.parseDepth := by
      intro r
      rw [RuleStack.depth_enter]
      omega
    constructor
    · have hr : Rule.statement ≠ .program := by decide
      have hvalue := leads_balanced_expression (hs.enter hr hfree) (hinside _) earlier
      have hblock := (ih (hs.enter hr hfree) (hinside _)).2
      unfold statement
      exact leads_balanced_withRule hs hr hfree ((flatLasting_balanced _ _).leads_statementBody hvalue hblock)
    · have hr : Rule.block ≠ .program := by decide
      have hstatement := (ih (hs.enter hr hfree) (hinside _)).1
      unfold block
      exact leads_balanced_withRule hs hr hfree ((flatLasting_balanced _ _).leads_blockBody hstatement)

/-! ## Where a rule is not opened -/

/-- A step in a rule, unless as many rules are open as permitted. -/
def opened (r : Rule) (step : ParseM α) : ParseM α := fun p =>
  if p.rules.depth < Limit.parseDepth then withRule r step p else tooDeep r p

section

variable (hdepth : p.rules.depth + n = Limit.parseDepth)
include hdepth

/-- Whether a rule may be opened is seen by the depth. -/
theorem opened_eq (r : Rule) (step : ParseM α) :
    opened r step p = if n = 0 then tooDeep r p else withRule r step p := by
  unfold opened
  by_cases hn : n = 0
  · rw [if_neg (by omega), if_pos hn]
  · rw [if_pos (by omega), if_neg hn]

theorem statement_eq_opened :
    statement n p = opened .statement (statementBody (expression (n - 1)) (block (n - 1))) p := by
  rw [opened_eq hdepth]
  cases n <;> (unfold statement; rfl)

theorem block_eq_opened : block n p = opened .block (blockBody (statement (n - 1))) p := by
  rw [opened_eq hdepth]
  cases n <;> (unfold block; rfl)

theorem expressionFrom_eq_opened (least : Nat) :
    expressionFrom n least p = opened .expression (do
      let start ← place
      let left ← operand (n - 1)
      let tokens := (← get).stream.size
      climb (expressionFrom (n - 1)) least start tokens left) p := by
  rw [opened_eq hdepth]
  cases n <;> (unfold expressionFrom; rfl)

theorem operand_eq_opened :
    operand n p = signed (opened .unary (negation (operand (n - 1)))) (primary (expression n)) p := by
  have hsigned : ∀ behindMinus plain : ParseM Expr, signed behindMinus plain p =
      (if p.stream.check (.symbol .minus) then behindMinus else plain) p := by
    intro behindMinus plain
    unfold signed
    rw [check_bind]
  rw [hsigned]
  cases hminus : p.stream.check (.symbol .minus) with
  | true =>
    rw [if_pos rfl, opened_eq hdepth]
    cases n <;> (conv_lhs => unfold operand) <;> rw [hsigned, hminus] <;> rfl
  | false =>
    rw [if_neg Bool.false_ne_true]
    cases n <;> (conv_lhs => unfold operand) <;> rw [hsigned, hminus] <;> rfl

end

/-! ## Rules that are called -/

/-- The rules for expressions, statements and blocks, and those for each form of a statement, where `free`
rules may still be opened. -/
inductive Builder (free : Nat) : {α : Type} → ParseM α → Prop
  | expression (least : Nat) : Builder free (expressionFrom free least)
  | operand : Builder free (operand free)
  | primary : Builder free (primary (expression free))
  | statement : Builder free (statement free)
  | block : Builder free (block free)
  | varDecl : Builder free (varDecl (Parsing.expression free))
  | constDecl : Builder free (constDecl (Parsing.expression free))
  | assignment : Builder free (assignment (Parsing.expression free))
  | print : Builder free (printStmt (Parsing.expression free))
  | conditional : Builder free (ifStmt (Parsing.expression free) (Parsing.block free))
  | loop : Builder free (whileStmt (Parsing.expression free) (Parsing.block free))
  | handled : Builder free (tryStmt (Parsing.block free))

theorem Builder.leads (hm : Builder n m) (hs : s.Sound) (hdepth : s.depth + n = Limit.parseDepth)
    (earlier : List RuleStack) : m.Leads (Balanced s earlier) (Balanced s earlier) (Balanced s earlier) := by
  have hlasting := flatLasting_balanced s earlier
  have hflat := hlasting.flatUnbroken.toFlat
  obtain ⟨hexpression, hoperand⟩ := leads_balanced_expressionFrom_operand n hs hdepth earlier
  obtain ⟨hstatement, hblock⟩ := leads_balanced_statement_block n hs hdepth earlier
  have hvalue := leads_balanced_expression hs hdepth earlier
  have hread : ∀ p, Balanced s earlier p → p.stream.current.value.isInner = true →
      Balanced s earlier p.advance := fun _ hp _ => hlasting.advance hp
  cases hm with
  | expression least => exact hexpression least
  | operand => exact hoperand
  | primary => exact leads_primary hflat hvalue
  | statement => exact hstatement
  | block => exact hblock
  | varDecl => exact leads_varDecl hflat hvalue hread (fun _ hp => hp) fun _ hp => hp
  | constDecl => exact hlasting.stages.leads_constDecl hvalue
  | assignment => exact leads_assignment hflat hvalue hread (fun _ hp => hp) fun _ hp => hp
  | print => exact hlasting.stages.leads_printStmt hvalue
  | conditional => exact hlasting.stages.leads_ifStmt hvalue hblock
  | loop => exact hlasting.stages.leads_whileStmt hvalue hblock
  | handled => exact hlasting.stages.leads_tryStmt hblock

/-- A whole parse. -/
theorem balanced_parseProgram (hs : p.rules.Sound) (hdepth : p.rules.depth = 0) :
    Balanced p.rules p.moments p.parseProgram.2 := by
  have hprogram := hs.openProgram
  have hopen := p.balanced_self.openProgram hs
  have hlasting := flatLasting_balanced (p.rules.push .program) p.moments
  have hstatement := (leads_balanced_statement_block Limit.parseDepth hprogram
    (by rw [RuleStack.depth_push, hdepth, Nat.zero_add]) p.moments).1
  have hstatements : ∀ {q}, Balanced (p.rules.push .program) p.moments q →
      Balanced (p.rules.push .program) p.moments (Parsing.program q).2 :=
    fun hq => hlasting.statementsFrom hstatement false _ _ hq
  exact (hlasting.log _ (hstatements (hlasting.log _ hopen))).closeProgram hs

end Parsing

/-! ## Every state that a rule is called in -/

open Parsing

/-- The states that rules are called in: a parser at its start, and what it comes to by rules that are
opened, called or, as a whole parse, run to their end. Of what else a state holds nothing is asked. -/
inductive Parser.Reachable [Build] : Parser → Prop
  | start (stream : TokenStream) (preferences : ParserPreferences) (reporter : Reporter) :
      Reachable (.start stream preferences reporter)
  | rest {p q : Parser} (h : Reachable p) (hrules : q.rules = p.rules) (hmoments : q.moments = p.moments) :
      Reachable q
  | openProgram {p : Parser} (h : Reachable p) : Reachable p.openProgram
  | enter {p : Parser} (h : Reachable p) {r : Rule} (hr : r ≠ .program) (hfree : p.rules.depth < Limit.parseDepth) :
      Reachable (p.enter r)
  | call {p : Parser} (h : Reachable p) {α : Type} {m : ParseM α}
      (hm : Builder (Limit.parseDepth - p.rules.depth) m) : Reachable (m p).2
  | parse {p : Parser} (h : Reachable p) (hdepth : p.rules.depth = 0) : Reachable p.parseProgram.2

theorem Parsing.Builder.balanced [Build] {α : Type} {m : ParseM α} {p : Parser}
    (hm : Builder (Limit.parseDepth - p.rules.depth) m) (hs : p.rules.Sound) :
    Parser.Balanced p.rules p.moments (m p).2 :=
  (hm.leads hs (Nat.add_sub_of_le hs.depth_le) p.moments).keeps p.balanced_self

theorem Parser.Reachable.sound [Build] {p : Parser} (h : p.Reachable) :
    p.rules.Sound ∧ ∀ t ∈ p.moments, t.Sound := by
  have hbalanced : ∀ {s q : _} {earlier : List RuleStack}, Parser.Balanced s earlier q → s.Sound →
      (∀ t ∈ earlier, t.Sound) → q.rules.Sound ∧ ∀ t ∈ q.moments, t.Sound := by
    rintro s q earlier ⟨rfl, made, hmade, hsound⟩ hs hearlier
    rw [hmade]
    exact ⟨hs, List.forall_mem_append.2 ⟨hsound, hearlier⟩⟩
  induction h with
  | start => exact ⟨RuleStack.sound_empty, fun _ ht => nomatch ht⟩
  | rest h hrules hmoments ih =>
    rw [hrules, hmoments]
    exact ih
  | openProgram h ih => exact hbalanced (Parser.balanced_self _ |>.openProgram ih.1) ih.1.openProgram ih.2
  | enter h hr hfree ih =>
    exact hbalanced ((Parser.balanced_self _).enter ih.1 hr hfree) (ih.1.enter hr hfree) ih.2
  | call h hm ih => exact hbalanced (hm.balanced ih.1) ih.1 ih.2
  | parse h hdepth ih => exact hbalanced (balanced_parseProgram ih.1 hdepth) ih.1 ih.2

/-- A rule leaves the open rules as they were: the names, the overflow and the depth, whether it succeeds
or not. At every moment up to its end the account of the open rules is true. -/
theorem rules_balanced [Build] {p : Parser} (hp : p.Reachable) {α : Type} {m : ParseM α}
    (hm : Builder (Limit.parseDepth - p.rules.depth) m) :
    p.rules.Sound ∧ (m p).2.rules = p.rules ∧
      ∃ made, (m p).2.moments = made ++ p.moments ∧ ∀ t ∈ made ++ p.moments, t.Sound := by
  obtain ⟨hs, hmoments⟩ := hp.sound
  obtain ⟨hrules, made, hmade, hsound⟩ := hm.balanced hs
  exact ⟨hs, hrules, made, hmade, List.forall_mem_append.2 ⟨hsound, hmoments⟩⟩

/-- Three rules are opened and closed for the assignment of a negated number. -/
theorem rules_balanced_assignment :
    let tokens : Array SpannedToken :=
      #[⟨.identifier "x", .dummy⟩, ⟨.symbol .assign, .dummy⟩, ⟨.symbol .minus, .dummy⟩, ⟨.integer "1", .dummy⟩]
    let p := Parser.start (.ofTokens tokens) {} {}
    let q := (statement Limit.parseDepth p).2
    q.moments.map RuleStack.depth = [0, 1, 2, 3, 2, 1] ∧ q.rules = p.rules ∧ ∀ t ∈ q.moments, t.Sound := by
  intro tokens p q
  have hp : p.Reachable := .start _ _ _
  obtain ⟨-, hrules, made, hmade, hsound⟩ := rules_balanced hp (.statement : Builder _ (statement Limit.parseDepth))
  refine ⟨by decide +kernel, hrules, ?_⟩
  rw [hmade]
  exact hsound

end EvlCheck
