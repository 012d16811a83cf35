/-
Which names a line calls, by its tokens. A name stands in front of a parenthesis only where the token
before the parenthesis is a word. In a statement of the grammar that is the word of a built-in
function, and the token before the word is none that could run into it (`Joins`). So outside of its
strings a statement calls built-in functions only (`LineReads.namesCalled`).

The walk over the tokens keeps what they leave pending (`Leaves`): nothing behind a symbol or a string,
the word itself behind the word of a function.
-/
import EvlCheck.Proofs.Check.CalledNames
import EvlCheck.Proofs.Lexing.LineReading
import EvlCheck.Proofs.Tree.Grammar

namespace EvlCheck

open Text Check

/-! ## Neighbours -/

def Token.isSymbol : Token → Bool
  | .symbol _ => true
  | _ => false

/-- The token is the word of a built-in function. -/
def Token.isFunction : Token → Bool
  | .keyword k => k.isFunction
  | _ => false

/-- The second token may stand behind the first: a parenthesis opens behind a symbol or the word of a
function, and such a word stands behind a symbol. -/
structure Joins (t u : Token) : Prop where
  paren : u = .symbol .leftParen → t.isSymbol = true ∨ t.isFunction = true
  function : u.isFunction = true → t.isSymbol = true

namespace Joins

theorem symbol {t u : Token} (h : t.isSymbol = true) : Joins t u := ⟨fun _ => .inl h, fun _ => h⟩

/-- What is no parenthesis that opens and no function stands behind everything. -/
theorem plain {t u : Token} (hparen : u ≠ .symbol .leftParen) (hfunction : u.isFunction = false) :
    Joins t u :=
  ⟨fun h => absurd h hparen, fun h => by rw [hfunction] at h; cases h⟩

theorem call {t : Token} (h : t.isFunction = true) : Joins t (.symbol .leftParen) :=
  ⟨fun _ => .inr h, fun h => by cases h⟩

end Joins

/-- The tokens may stand behind anything. -/
def Loose (ts : List Token) : Prop := ∀ t, (t :: ts).IsChain Joins

namespace Loose

theorem nil : Loose [] := fun _ => .singleton _

theorem symbol {s : OpSymbol} {ts : List Token} (hs : s ≠ .leftParen)
    (h : (.symbol s :: ts).IsChain Joins) : Loose (.symbol s :: ts) :=
  fun _ => .cons_cons (.plain (by simpa using hs) rfl) h

theorem close {ts : List Token} (h : Loose ts) : Loose (.symbol .rightParen :: ts) :=
  symbol (by decide) (h _)

end Loose

/-- A call is the word of its function, and then what stands behind the parenthesis. -/
theorem Joins.chain_call {t k : Token} {inside : List Token} (ht : t.isSymbol = true)
    (hk : k.isFunction = true) (h : (.symbol .leftParen :: inside).IsChain Joins) :
    (t :: k :: .symbol .leftParen :: inside).IsChain Joins :=
  .cons_cons (.symbol ht) (.cons_cons (.call hk) h)

/-- An expression joins a symbol before it. -/
theorem Expr.joins (e : Expr) {t : Token} {rest : List Token} (ht : t.isSymbol = true)
    (hrest : Loose rest) : (t :: (e.terminals ++ rest)).IsChain Joins := by
  induction e generalizing t rest with
  | unaryMinus e s ih => exact .cons_cons (.symbol ht) (ih rfl hrest)
  | paren e s ih =>
    rw [terminals, List.cons_append, List.append_assoc]
    exact .cons_cons (.symbol ht) (ih rfl hrest.close)
  | cast e type s ih =>
    rw [terminals, List.cons_append, List.cons_append, List.append_assoc]
    refine Joins.chain_call ht rfl (ih rfl (.symbol (by decide) ?_))
    exact .cons_cons (.symbol rfl) (hrest.close _)
  | unaryCall f e s ih =>
    rw [terminals, List.cons_append, List.cons_append, List.append_assoc]
    exact Joins.chain_call ht (by cases f <;> rfl) (ih rfl hrest.close)
  | binaryCall f a b s iha ihb =>
    rw [terminals, List.cons_append, List.cons_append, List.append_assoc, List.cons_append,
      List.append_assoc]
    exact Joins.chain_call ht (by cases f <;> rfl) (iha rfl (.symbol (by decide) (ihb rfl hrest.close)))
  | truth value s =>
    cases value <;> exact .cons_cons (.symbol ht) (hrest _)
  | binary op opSpan a b s iha ihb =>
    rw [terminals, List.append_assoc, List.cons_append]
    exact iha ht (.symbol (by cases op <;> decide) (ihb rfl hrest))
  | _ => exact .cons_cons (.symbol ht) (hrest _)

theorem PrintArg.joins (a : PrintArg) {t : Token} {rest : List Token} (ht : t.isSymbol = true)
    (hrest : Loose rest) : (t :: (a.terminals ++ rest)).IsChain Joins := by
  cases a with
  | string text s => exact .cons_cons (.symbol ht) (hrest _)
  | expr e => exact e.joins ht hrest

theorem PrintArg.loose_more (args : List PrintArg) {rest : List Token} (hrest : Loose rest) :
    Loose (moreTerminals args ++ rest) := by
  induction args with
  | nil => exact hrest
  | cons a args ih =>
    unfold moreTerminals at ih ⊢
    rw [List.flatMap_cons, List.cons_append, List.cons_append, List.append_assoc]
    exact .symbol (by decide) (a.joins rfl ih)

theorem VarDecl.loose (d : VarDecl) : Loose d.terminals := by
  have hvalue := d.value.joins (t := .symbol .assign) rfl .nil
  rw [List.append_nil] at hvalue
  refine fun t => .cons_cons (.plain (by simp) ?_) (.cons_cons (.plain (by simp) rfl)
    (.cons_cons (.plain (by simp) rfl) hvalue))
  cases d.type <;> rfl

/-- A statement without a block joins a symbol before it. -/
theorem Stmt.joins {s : Stmt} (hs : s.isSimple = true) {t : Token} (ht : t.isSymbol = true) :
    (t :: s.terminals).IsChain Joins := by
  cases s with
  | varDecl d => exact d.loose t
  | constDecl d span => exact .cons_cons (.symbol ht) (d.loose _)
  | assignment target op e span =>
    have hvalue := e.joins (t := .symbol op.symbol) rfl .nil
    rw [List.append_nil] at hvalue
    refine .cons_cons (.symbol ht) (.cons_cons (.plain ?_ rfl) hvalue)
    cases op <;> simp [AssignOp.symbol]
  | print args span =>
    refine Joins.chain_call ht rfl ?_
    cases args with
    | nil => exact Loose.nil.close _
    | cons a more =>
      rw [PrintArg.listTerminals, List.append_assoc]
      exact a.joins rfl (PrintArg.loose_more more Loose.nil.close)
  | _ => cases hs

/-! ## What tokens leave pending -/

/-- A token of a line left the state pending. -/
structure Leaves (t : Token) (p : Pending) : Prop where
  nothing : t.isSymbol = true → p = .none
  function : t.isFunction = true → ∃ ended, p = .word t.text.toList ended

/-- The name of a built-in function. -/
def IsFunctionName (name : String) : Prop := ∃ k : Keyword, k.isFunction = true ∧ name = k.text

namespace Check.Pending

theorem read_of_not_paren {w : List Char} (h : '(' ∉ w) (p : Pending) : (p.read w).2 = [] := by
  induction w generalizing p with
  | nil => rfl
  | cons c w ih =>
    rw [List.mem_cons, not_or] at h
    rw [read, ih h.2, List.append_nil]
    unfold step
    split
    · rfl
    · split
      · rfl
      · exact if_neg (Ne.symm h.1)

theorem read_word {w : List Char} (h : ∀ c ∈ w, isWord c = true) (u : List Char) :
    (Pending.word u false).read w = (.word (u ++ w) false, []) := by
  induction w generalizing u with
  | nil => rw [List.append_nil]; rfl
  | cons c w ih =>
    rw [List.forall_mem_cons] at h
    rw [read]
    unfold step
    rw [if_pos h.1]
    dsimp only
    rw [ih h.2, List.append_assoc]
    rfl

theorem none_read_word {c : Char} {w : List Char} (h : ∀ d ∈ c :: w, isWord d = true) :
    Pending.none.read (c :: w) = (.word (c :: w) false, []) := by
  rw [List.forall_mem_cons] at h
  rw [read]
  unfold step
  rw [if_pos h.1]
  dsimp only
  rw [read_word h.2]
  rfl

theorem word_read_blanks {g : List Char} (hg : ∀ c ∈ g, isBlank c = true) (w : List Char)
    (ended : Bool) : ∃ ended', (Pending.word w ended).read g = (.word w ended', []) := by
  induction g generalizing ended with
  | nil => exact ⟨ended, rfl⟩
  | cons c g ih =>
    rw [List.forall_mem_cons] at hg
    have hword : isWord c = false := by
      by_contra hword
      rw [Bool.not_eq_false] at hword
      rw [isBlank_of_isWord hword] at hg
      cases hg.1
    obtain ⟨ended', hread⟩ := ih hg.2 true
    refine ⟨ended', ?_⟩
    rw [read]
    unfold step
    rw [if_neg (by simp [hword]), if_pos hg.1]
    dsimp only
    rw [hread]
    rfl

/-- Blanks end a pending word at most, and call nothing. -/
theorem read_gap {g : List Char} (hg : ∀ c ∈ g, isBlank c = true) (p : Pending) :
    (p.read g).2 = [] ∧ ∀ t, Leaves t p → Leaves t (p.read g).1 := by
  cases p with
  | none =>
    rw [read_blanks hg]
    exact ⟨rfl, fun _ => id⟩
  | word w ended =>
    obtain ⟨ended', hread⟩ := word_read_blanks hg w ended
    rw [hread]
    refine ⟨rfl, fun t h => ⟨fun ht => ?_, fun ht => ?_⟩⟩
    · cases h.nothing ht
    · obtain ⟨ended, hw⟩ := h.function ht
      cases hw
      exact ⟨ended', rfl⟩

end Check.Pending

namespace Text

/-- The characters of names are of ASCII. -/
theorem toNat_of_isNamePart {c : Char} (h : isNamePart c = true) : c.toNat < 128 := by
  change c.val.toNat < 128
  rcases Bool.or_eq_true_iff.1 (show (c.isAlphanum || c == '_') = true from h) with h | h
  · rcases Bool.or_eq_true_iff.1 (show (c.isUpper || c.isLower || c.isDigit) = true from h) with h | h
    · rcases Bool.or_eq_true_iff.1 h with h | h
      · have hupper : c.val.toNat ≤ 90 := UInt32.le_iff_toNat_le.1 (of_decide_eq_true h).2
        omega
      · obtain ⟨-, h⟩ := Bool.and_eq_true_iff.1 (show (decide _ && decide _) = true from h)
        have hlower : c.val.toNat ≤ 122 := UInt32.le_iff_toNat_le.1 (of_decide_eq_true h)
        omega
    · obtain ⟨-, h⟩ := Bool.and_eq_true_iff.1 (show (decide _ && decide _) = true from h)
      have hnine : c.val.toNat ≤ 57 := UInt32.le_iff_toNat_le.1 (of_decide_eq_true h)
      omega
  · rw [eq_of_beq h]
    decide

theorem isWord_of_isNamePart {c : Char} (h : isNamePart c = true) : isWord c = true :=
  (if_pos (toNat_of_isNamePart h)).trans h

theorem isBlank_of_isGap {c : Char} (h : Lexing.isGap c = true) : isBlank c = true := by
  rcases (Lexing.isGap_iff c).1 h with rfl | rfl | rfl | rfl <;> decide

end Text

/-! ## What a token calls -/

section

variable {t u : Token} {w : List Char} {p : Pending}

theorem leaves_of_plain (hsymbol : t.isSymbol = false) (hfunction : t.isFunction = false) :
    Leaves t p where
  nothing h := by
    rw [hsymbol] at h
    cases h
  function h := by
    rw [hfunction] at h
    cases h

/-- A parenthesis calls the name that is pending. -/
theorem Check.Pending.step_paren (p : Check.Pending) : p.step '(' = (.none, p.name) := by
  unfold step
  rw [if_neg (by decide), if_neg (by decide), if_pos rfl]

theorem name_of_keyword (k : Keyword) (ended : Bool) :
    (Check.Pending.word k.text.toList ended).name = [k.text] := by
  cases k <;> rfl

/-- A token calls the function before it, if it is a parenthesis, and what a string holds. -/
theorem Lexing.Spells.names (hs : Lexing.Spells w t) (hjoins : Joins u t) (hleaves : Leaves u p)
    (hseen : t.isSignificant = true) :
    Leaves t (p.read w).1 ∧ ∀ name ∈ (p.read w).2,
      IsFunctionName name ∨ ∃ text, t = .string text ∧ name ∈ namesCalled text.toList := by
  have hnone : '(' ∉ w → (p.read w).2 = [] := fun h => Check.Pending.read_of_not_paren h p
  cases hs with
  | whitespace => cases hseen
  | lineComment => cases hseen
  | blockComment => cases hseen
  | integer nonempty digits =>
    rw [hnone fun hmem => absurd (digits _ hmem) (by decide)]
    exact ⟨leaves_of_plain rfl rfl, by simp⟩
  | real whole_ne part_ne whole_digits part_digits =>
    rw [hnone]
    · exact ⟨leaves_of_plain rfl rfl, by simp⟩
    · intro hmem
      rcases List.mem_append.1 hmem with hmem | hmem
      · exact absurd (whole_digits _ hmem) (by decide)
      · exact absurd (part_digits _ ((List.mem_cons.1 hmem).resolve_left (by decide))) (by decide)
  | @string body inside =>
    refine ⟨leaves_of_plain rfl rfl, fun name hname => .inr ⟨_, rfl, ?_⟩⟩
    -- The quote at the start leaves nothing of what stands before it.
    rw [String.toList_ofList, namesCalled_eq]
    exact hname
  | symbol s =>
    by_cases hs : s = .leftParen
    · subst hs
      refine ⟨⟨fun _ => rfl, fun h => by cases h⟩, fun name hname => .inl ?_⟩
      have hname : name ∈ p.name := by
        simpa [OpSymbol.chars, Check.Pending.read, Check.Pending.step_paren] using hname
      rcases hjoins.paren rfl with hu | hu
      · rw [hleaves.nothing hu] at hname
        cases hname
      · obtain ⟨ended, rfl⟩ := hleaves.function hu
        cases u with
        | keyword k =>
          rw [Token.text, name_of_keyword, List.mem_singleton] at hname
          exact ⟨k, hu, hname⟩
        | _ => cases hu
    · refine ⟨⟨fun _ => ?_, fun h => by cases h⟩, ?_⟩
      · cases s <;> rfl
      · have hparen : '(' ∉ s.chars := by cases s <;> first | contradiction | decide
        rw [hnone hparen]
        simp
  | keyword k =>
    obtain ⟨c, cs, hk, hstart, hmore⟩ := Lexing.keyword_text_shape k
    have hword : ∀ d ∈ c :: cs, isWord d = true := List.forall_mem_cons.2
      ⟨isWord_of_isNamePart (isNamePart_of_isNameStart hstart),
        fun d hd => isWord_of_isNamePart (hmore d hd)⟩
    rw [hk] at hnone ⊢
    rw [hnone fun hmem => absurd (hword _ hmem) (by decide)]
    refine ⟨⟨fun h => (by cases h), fun h => ?_⟩, by simp⟩
    rw [hleaves.nothing (hjoins.function h), Check.Pending.none_read_word hword]
    exact ⟨false, by rw [Token.text, hk]⟩
  | @identifier c cs start more free =>
    rw [hnone]
    · exact ⟨leaves_of_plain rfl rfl, by simp⟩
    · intro hmem
      rcases List.mem_cons.1 hmem with rfl | hmem
      · exact absurd start (by decide)
      · exact absurd (more _ hmem) (by decide)

end

namespace Text

theorem beforeComment_go_eq (cs seen : List Char) :
    beforeComment.go cs seen = seen.reverse ++ beforeComment cs := by
  unfold beforeComment
  induction cs generalizing seen with
  | nil => simp [beforeComment.go]
  | cons c cs ih =>
    rw [beforeComment.go, beforeComment.go]
    split
    · simp
    · rw [ih, ih [c]]
      simp

theorem beforeComment_cons (c : Char) (cs : List Char) : beforeComment (c :: cs) =
    if c = '/' ∧ cs.head? = some '/' then [] else c :: beforeComment cs := by
  conv => lhs; unfold beforeComment; rw [beforeComment.go]
  rw [beforeComment_go_eq]
  rfl

/-- The text before a comment is cut off in the first part, or the comment begins behind that. -/
theorem beforeComment_append (xs ys : List Char) :
    beforeComment (xs ++ ys) <+: xs ∨ beforeComment (xs ++ ys) = xs ++ beforeComment ys := by
  induction xs with
  | nil => exact .inr rfl
  | cons c xs ih =>
    rw [List.cons_append, beforeComment_cons]
    split
    · exact .inl (List.nil_prefix)
    · rcases ih with ih | ih
      · exact .inl (List.cons_prefix_cons.2 ⟨rfl, ih⟩)
      · exact .inr (by rw [ih]; rfl)

theorem beforeComment_starts (cs : List Char) : beforeComment cs <+: cs := by
  rcases beforeComment_append cs [] with h | h
  · rwa [List.append_nil] at h
  · rw [List.append_nil] at h
    rw [h]
    exact ⟨[], by simp [beforeComment, beforeComment.go]⟩

/-- A carriage return at the end of a line begins no comment. -/
theorem beforeComment_dropSuffix_starts (cs : List Char) :
    beforeComment (dropSuffix '\r' cs) <+: beforeComment cs := by
  unfold dropSuffix
  split
  · next hlast =>
    obtain ⟨front, rfl⟩ := List.getLast?_eq_some_iff.1 hlast
    rw [List.dropLast_concat]
    clear hlast
    induction front with
    | nil => exact List.nil_prefix
    | cons c front ih =>
      have hhead : (front ++ ['\r']).head? = some '/' ↔ front.head? = some '/' := by
        cases front <;> simp
      rw [List.cons_append, beforeComment_cons, beforeComment_cons]
      simp only [hhead]
      split
      · exact List.prefix_rfl
      · exact List.cons_prefix_cons.2 ⟨rfl, ih⟩
  · exact List.prefix_rfl

end Text

/-- A line whose tokens may stand as they do calls, in front of its comment, only built-in functions
and what its strings hold. -/
theorem Lexing.LineReads.names {cs : List Char} {ts : List Token} (h : Lexing.LineReads cs ts)
    {u : Token} {p : Pending} (hchain : (u :: ts).IsChain Joins) (hleaves : Leaves u p) :
    ∀ name ∈ (p.read (beforeComment cs)).2,
      IsFunctionName name ∨ ∃ text, .string text ∈ ts ∧ name ∈ namesCalled text.toList := by
  have hblank : ∀ {g xs : List Char} {p : Pending}, (∀ c ∈ g, Lexing.isGap c = true) → xs <+: g →
      (p.read xs).2 = [] := by
    intro g xs p hg hxs
    refine Pending.read_of_not_paren (fun hmem => ?_) p
    exact absurd (hg _ (hxs.subset hmem)) (by decide)
  induction h generalizing u p with
  | @blank g gap =>
    rcases beforeComment_append g [] with hcut | hcut
    · rw [List.append_nil] at hcut
      rw [hblank gap hcut]
      simp
    · rw [List.append_nil] at hcut
      rw [hcut, hblank gap (by simp [beforeComment, beforeComment.go])]
      simp
  | @comment g body gap =>
    rcases beforeComment_append g ('/' :: '/' :: body) with hcut | hcut
    · rw [hblank gap hcut]
      simp
    · rw [hcut, hblank gap (by simp [beforeComment, beforeComment.go])]
      simp
  | @word g w rest t ts gap seen reading next ih =>
    obtain ⟨hjoins, hchain⟩ := List.isChain_cons_cons.1 hchain
    obtain ⟨hnone, hgap⟩ := Pending.read_gap (fun c hc => isBlank_of_isGap (gap c hc)) p
    have hgood : t.isError = false := by
      cases t <;> first | rfl | cases seen
    obtain ⟨hleft, hnames⟩ := (reading.spells hgood).names hjoins (hgap u hleaves) seen
    have hword : ∀ name ∈ (p.read (g ++ w)).2,
        IsFunctionName name ∨ ∃ text, .string text ∈ t :: ts ∧ name ∈ namesCalled text.toList := by
      intro name hname
      rw [Pending.read_append, hnone, List.nil_append] at hname
      refine (hnames name hname).imp_right ?_
      rintro ⟨text, rfl, hmem⟩
      exact ⟨text, List.mem_cons_self, hmem⟩
    rw [← List.append_assoc]
    intro name hname
    rcases beforeComment_append (g ++ w) rest with hcut | hcut
    · obtain ⟨more, hmore⟩ := hcut
      refine hword name ?_
      rw [← hmore, Pending.read_append]
      exact List.mem_append_left _ hname
    · rw [hcut, Pending.read_append] at hname
      rcases List.mem_append.1 hname with hname | hname
      · exact hword name hname
      · rw [Pending.read_append] at hname
        refine (ih hchain hleft name hname).imp_right ?_
        rintro ⟨text, hmem, hcalled⟩
        exact ⟨text, List.mem_cons_of_mem _ hmem, hcalled⟩

end EvlCheck
