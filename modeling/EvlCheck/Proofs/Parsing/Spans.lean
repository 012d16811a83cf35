/-
The spans of a parse tree are faithful to the source, whatever the source is. A node begins with the
first of its tokens and ends with the last, its children lie inside it one behind the other, and an
expression has exactly its terminals inside its span, as the parser sees the tokens.

The parser places nodes by indices (`Node.Placed`); what is left is to read indices as offsets. The
tokens that the parser sees are not empty and do not overlap, since the lexer cuts the source, so that
the order of the indices is the order of the offsets.
-/
import EvlCheck.Parsing.Parse
import EvlCheck.Proofs.Lexing.Tiling
import EvlCheck.Proofs.Parsing.Acceptance

namespace EvlCheck

/-! ## Visible tokens -/

/-- The tokens that the parser sees, without the end of the source. -/
def TokenizedSource.visible (s : TokenizedSource) : List SpannedToken :=
  s.tokens.toList.filter fun t => t.value.isSignificant && !t.value.isEof

/-- Tokens that are not empty and stand one behind the other. -/
structure Ordered (tokens : List SpannedToken) : Prop where
  nonempty : ∀ t ∈ tokens, t.span.start.offset < t.span.stop.offset
  pairwise : tokens.Pairwise fun a b => a.span.stop.offset ≤ b.span.start.offset

/-- The visible tokens of a source are in order, and the parser sees them and the end behind them. -/
theorem Lexing.tokenize_visible [Build] (p : LexicalPreferences) (source : String) :
    Ordered (tokenize p source).visible ∧
      ∃ front place, (tokenize p source).tokens.toList = front ++ [⟨.eof, place⟩] ∧
        front.filter (·.value.isSignificant) = (tokenize p source).visible := by
  have hvisible : ∀ {front place}, (tokenize p source).tokens.toList = front ++ [⟨.eof, place⟩] →
      (∀ t ∈ front, t.value ≠ .eof) →
      front.filter (·.value.isSignificant) = (tokenize p source).visible := by
    intro front place h hfront
    unfold TokenizedSource.visible
    rw [h, List.filter_append]
    have heof : ∀ t ∈ front, t.value.isEof = false := by
      intro t ht
      cases hv : t.value with
      | eof => exact absurd hv (hfront t ht)
      | _ => rfl
    have hlast : ([⟨.eof, place⟩] : List SpannedToken).filter
        (fun t => t.value.isSignificant && !t.value.isEof) = [] := rfl
    rw [hlast, List.append_nil]
    exact List.filter_congr fun t ht => by simp [heof t ht]
  by_cases h : source.utf8ByteSize ≤ Limit.sourceBytes
  · have hcut := cut_tokenize (p := p) h
    obtain ⟨front, hfront, hne, -⟩ := hcut.exists_front
    obtain ⟨-, hnonempty, hpairwise⟩ := hcut.ordered
    refine ⟨⟨fun t ht => ?_, hpairwise.sublist List.filter_sublist⟩, front, _, hfront,
      hvisible hfront hne⟩
    obtain ⟨hmem, hseen⟩ := List.mem_filter.1 ht
    refine hnonempty t hmem fun heof => ?_
    rw [heof] at hseen
    cases hseen
  · have htokens := tokenize_of_large (p := p) (Nat.lt_of_not_le h)
    have hnil : (tokenize p source).visible = [] := by
      unfold TokenizedSource.visible; rw [htokens]; rfl
    generalize Position.start.advanceAll source.toList = stop at htokens
    exact ⟨by rw [hnil]; exact ⟨by simp, .nil⟩, [⟨.error "", ⟨.start, stop⟩⟩], .point stop, htokens,
      hvisible htokens (by simp)⟩

namespace Ordered

variable {tokens : List SpannedToken} {a b : Nat} {s t : SpannedToken}

theorem stop_le_start (h : Ordered tokens) (ha : tokens[a]? = some s) (hb : tokens[b]? = some t)
    (hab : a < b) : s.span.stop.offset ≤ t.span.start.offset := by
  obtain ⟨hla, rfl⟩ := List.getElem?_eq_some_iff.1 ha
  obtain ⟨hlb, rfl⟩ := List.getElem?_eq_some_iff.1 hb
  exact List.pairwise_iff_getElem.1 h.pairwise a b hla hlb hab

theorem start_lt_stop (h : Ordered tokens) (ha : tokens[a]? = some s) :
    s.span.start.offset < s.span.stop.offset :=
  h.nonempty s (List.mem_of_getElem? ha)

theorem start_le_start (h : Ordered tokens) (ha : tokens[a]? = some s) (hb : tokens[b]? = some t)
    (hab : a ≤ b) : s.span.start.offset ≤ t.span.start.offset := by
  rcases Nat.lt_or_eq_of_le hab with hlt | rfl
  · have := h.stop_le_start ha hb hlt
    have := h.start_lt_stop ha
    omega
  · rw [ha] at hb
    cases hb
    exact Nat.le_refl _

theorem stop_le_stop (h : Ordered tokens) (ha : tokens[a]? = some s) (hb : tokens[b]? = some t)
    (hab : a ≤ b) : s.span.stop.offset ≤ t.span.stop.offset := by
  rcases Nat.lt_or_eq_of_le hab with hlt | rfl
  · have := h.stop_le_start ha hb hlt
    have := h.start_lt_stop hb
    omega
  · rw [ha] at hb
    cases hb
    exact Nat.le_refl _

/-- The smallest span over two tokens in order runs from the one to the other. -/
theorem merge_eq (h : Ordered tokens) (ha : tokens[a]? = some s) (hb : tokens[b]? = some t)
    (hab : a ≤ b) : s.span.merge t.span = ⟨s.span.start, t.span.stop⟩ := by
  rcases Nat.lt_or_eq_of_le hab with hlt | rfl
  · have := h.stop_le_start ha hb hlt
    have := h.start_lt_stop ha
    have := h.start_lt_stop hb
    unfold Span.merge
    rw [if_pos (by omega), if_neg (by omega)]
  · rw [ha] at hb
    cases hb
    exact Span.merge_self s.span

end Ordered

def Span.Holds (s : Span) (t : SpannedToken) : Prop :=
  s.start.offset ≤ t.span.start.offset ∧ t.span.stop.offset ≤ s.stop.offset

instance (s : Span) (t : SpannedToken) : Decidable (s.Holds t) :=
  inferInstanceAs (Decidable (_ ∧ _))

/-- The tokens inside the span from one token to another are those between the two. -/
theorem Ordered.filter_holds {tokens : List SpannedToken} (h : Ordered tokens) {a b : Nat}
    {s t : SpannedToken} (ha : tokens[a]? = some s) (hb : tokens[b]? = some t) (hab : a ≤ b) :
    tokens.filter (fun u => (Span.mk s.span.start t.span.stop).Holds u) =
      (tokens.drop a).take (b + 1 - a) := by
  have hsplit : tokens =
      tokens.take a ++ ((tokens.drop a).take (b + 1 - a) ++ tokens.drop (b + 1)) := by
    have hrest := List.take_append_drop (b + 1 - a) (tokens.drop a)
    rw [List.drop_drop, show a + (b + 1 - a) = b + 1 by omega] at hrest
    rw [hrest, List.take_append_drop]
  -- A token before the first stops where the first starts, so it starts too early.
  have hbefore : (tokens.take a).filter (fun u => (Span.mk s.span.start t.span.stop).Holds u) = [] := by
    refine List.filter_eq_nil_iff.2 fun u hu hin => ?_
    obtain ⟨i, hi⟩ := List.mem_iff_getElem?.1 hu
    rw [List.getElem?_take] at hi
    split at hi
    · next hlt =>
      have := h.stop_le_start hi ha hlt
      have := h.start_lt_stop hi
      have := (decide_eq_true_iff.1 hin).1
      simp only at this
      omega
    · cases hi
  have hinside : ((tokens.drop a).take (b + 1 - a)).filter
      (fun u => (Span.mk s.span.start t.span.stop).Holds u) = (tokens.drop a).take (b + 1 - a) := by
    refine List.filter_eq_self.2 fun u hu => ?_
    obtain ⟨i, hi⟩ := List.mem_iff_getElem?.1 hu
    rw [List.getElem?_take] at hi
    split at hi
    · next hlt =>
      rw [List.getElem?_drop] at hi
      exact decide_eq_true ⟨h.start_le_start ha hi (by omega), h.stop_le_stop hi hb (by omega)⟩
    · cases hi
  -- A token behind the last starts where the last stops, so it stops too late.
  have hbehind : (tokens.drop (b + 1)).filter
      (fun u => (Span.mk s.span.start t.span.stop).Holds u) = [] := by
    refine List.filter_eq_nil_iff.2 fun u hu hin => ?_
    obtain ⟨i, hi⟩ := List.mem_iff_getElem?.1 hu
    rw [List.getElem?_drop] at hi
    have := h.stop_le_start hb hi (by omega)
    have := h.start_lt_stop hi
    have := (decide_eq_true_iff.1 hin).2
    simp only at this
    omega
  conv_lhs => rw [hsplit]
  rw [List.filter_append, List.filter_append, hbefore, hinside, hbehind, List.nil_append,
    List.append_nil]

/-! ## Faithful nodes -/

namespace Node

/-- The node is another node or lies below it. -/
inductive Under (root : Node) : Node → Prop
  | self : Under root root
  | child {n m : Node} (h : Under root n) (hm : m ∈ n.children) : Under root m

/-- The span of the node tells what the node stands for. -/
structure Faithful (tokens : List SpannedToken) (n : Node) : Prop where
  /-- Every node but the root begins and ends with a token, and is not empty. -/
  ends : n.kind ≠ .program → n.span.start.offset < n.span.stop.offset ∧
    (∃ t ∈ tokens, t.span.start = n.span.start) ∧ ∃ t ∈ tokens, t.span.stop = n.span.stop
  inside : ∀ c ∈ n.children,
    n.span.start.offset ≤ c.span.start.offset ∧ c.span.stop.offset ≤ n.span.stop.offset
  disjoint : n.children.Pairwise fun c d => c.span.stop.offset ≤ d.span.start.offset
  /-- The tokens inside an expression are its terminals. -/
  terminals : ∀ e, n.kind = .expression e →
    (tokens.filter fun t => n.span.Holds t).map (·.value) = e.terminals

variable {row : Array StreamToken} {tokens : List SpannedToken} {last : SpannedToken}

theorem AllPlaced.mem {nodes : List Node} {a b : Nat} (h : AllPlaced row nodes a b) {c : Node}
    (hc : c ∈ nodes) : ∃ k l, a ≤ k ∧ c.Placed row k l ∧ l ≤ b := by
  induction nodes generalizing a with
  | nil => cases hc
  | cons n rest ih =>
    obtain ⟨k, l, hak, hn, hrest⟩ := h
    rcases List.mem_cons.1 hc with rfl | hc
    · exact ⟨k, l, hak, hn, hrest.le⟩
    · obtain ⟨k', l', hlk', hc', hlb⟩ := ih hrest hc
      have := hn.lt
      exact ⟨k', l', by omega, hc', hlb⟩

theorem AllPlaced.pairwise {nodes : List Node} {a b : Nat} (h : AllPlaced row nodes a b) :
    nodes.Pairwise fun c d =>
      ∃ k l k' l', c.Placed row k l ∧ d.Placed row k' l' ∧ l ≤ k' ∧ l' ≤ b := by
  induction nodes generalizing a with
  | nil => exact .nil
  | cons n rest ih =>
    obtain ⟨k, l, hak, hn, hrest⟩ := h
    refine List.pairwise_cons.2 ⟨fun d hd => ?_, ih hrest⟩
    obtain ⟨k', l', hlk', hd', hlb⟩ := hrest.mem hd
    exact ⟨k, l, k', l', hn, hd', hlk', hlb⟩

section

variable (hrow : row.toList.map StreamToken.spanned = tokens ++ [last]) (hordered : Ordered tokens)
include hrow

theorem getElem?_of_row {i : Nat} {t : StreamToken} (hi : i < tokens.length)
    (h : row[i]? = some t) : tokens[i]? = some t.spanned := by
  have hmap := congrArg (·[i]?) hrow
  simp only [List.getElem?_map, Array.getElem?_toList, h, Option.map_some,
    List.getElem?_append_left hi] at hmap
  exact hmap.symm

include hordered

/-- The span over some of the tokens runs from the first of them to the last. -/
theorem covers_ends {a b : Nat} {s : Span} (h : Covers row a b s) (hb : b ≤ tokens.length) :
    ∃ t u, tokens[a]? = some t ∧ tokens[b - 1]? = some u ∧ s = ⟨t.span.start, u.span.stop⟩ := by
  obtain ⟨hab, t, u, ht, hu, rfl⟩ := h
  have ht := getElem?_of_row hrow (by omega) ht
  have hu := getElem?_of_row hrow (by omega) hu
  exact ⟨t.spanned, u.spanned, ht, hu, hordered.merge_eq ht hu (by omega)⟩

theorem Placed.ends {n : Node} {a b : Nat} (h : n.Placed row a b) (hb : b ≤ tokens.length) :
    ∃ t u, tokens[a]? = some t ∧ tokens[b - 1]? = some u ∧ n.span = ⟨t.span.start, u.span.stop⟩ := by
  cases n
  exact covers_ends hrow hordered h.1 hb

/-- Children that are placed among the tokens of a span are inside of it, one behind the other. -/
theorem inside_disjoint {children : List Node} {a b : Nat} {s : Span} (hs : Covers row a b s)
    (hb : b ≤ tokens.length) (h : AllPlaced row children a b) :
    (∀ c ∈ children,
      s.start.offset ≤ c.span.start.offset ∧ c.span.stop.offset ≤ s.stop.offset) ∧
    children.Pairwise fun c d => c.span.stop.offset ≤ d.span.start.offset := by
  obtain ⟨t, u, ht, hu, rfl⟩ := covers_ends hrow hordered hs hb
  refine ⟨fun c hc => ?_, h.pairwise.imp ?_⟩
  · obtain ⟨k, l, hak, hc, hlb⟩ := h.mem hc
    have hlt := hc.lt
    obtain ⟨v, w, hv, hw, hspan⟩ := hc.ends hrow hordered (by omega)
    rw [hspan]
    exact ⟨hordered.start_le_start ht hv hak, hordered.stop_le_stop hw hu (by omega)⟩
  · rintro c d ⟨k, l, k', l', hc, hd, hlk, hlb⟩
    have hc0 := hc.lt
    have hd0 := hd.lt
    obtain ⟨v, w, -, hw, hspan⟩ := hc.ends hrow hordered (by omega)
    obtain ⟨v', w', hv', -, hspan'⟩ := hd.ends hrow hordered (by omega)
    rw [hspan, hspan']
    exact hordered.stop_le_start hw hv' (by omega)

theorem Placed.faithful {n : Node} {a b : Nat} (h : n.Placed row a b) (hb : b ≤ tokens.length) :
    n.Faithful tokens := by
  obtain ⟨t, u, ht, hu, hspan⟩ := h.ends hrow hordered hb
  have hlt := h.lt
  obtain ⟨kind, span, children⟩ := n
  obtain ⟨hcovers, hterminals, hchildren⟩ := h
  obtain ⟨hinside, hdisjoint⟩ := inside_disjoint hrow hordered hcovers hb hchildren
  refine ⟨fun _ => ⟨?_, ?_, ?_⟩, hinside, hdisjoint, fun e he => ?_⟩
  · have hstart := hordered.start_lt_stop ht
    have hstop := hordered.stop_le_stop ht hu (by omega)
    rw [hspan]
    exact Nat.lt_of_lt_of_le hstart hstop
  · exact ⟨t, List.mem_of_getElem? ht, by rw [hspan]⟩
  · exact ⟨u, List.mem_of_getElem? hu, by rw [hspan]⟩
  · rw [← hterminals e he, hspan, hordered.filter_holds ht hu (by omega)]
    have hvalues : valuesFrom row a b =
        (((row.toList.map StreamToken.spanned).drop a).take (b - a)).map (·.value) := by
      unfold valuesFrom
      rw [← List.map_drop, ← List.map_take, List.map_map]
      rfl
    rw [hvalues, hrow, show b - 1 + 1 - a = b - a by omega,
      List.drop_append_of_le_length (by omega), List.take_append_of_le_length]
    rw [List.length_drop]
    omega

end

/-- Whatever lies below a node whose children are placed is the node itself or placed. -/
theorem Under.placed {root n : Node} {a b : Nat} (h : Under root n)
    (hroot : AllPlaced row root.children a b) : n = root ∨ ∃ k l, n.Placed row k l ∧ l ≤ b := by
  induction h with
  | self => exact .inl rfl
  | @child n m h hm ih =>
    refine .inr ?_
    rcases ih with rfl | ⟨k, l, hn, hlb⟩
    · obtain ⟨k, l, -, hm, hlb⟩ := hroot.mem hm
      exact ⟨k, l, hm, hlb⟩
    · obtain ⟨kind, span, children⟩ := n
      obtain ⟨-, -, hchildren⟩ := hn
      obtain ⟨k', l', -, hm, hll⟩ := hchildren.mem hm
      exact ⟨k', l', hm, Nat.le_trans hll hlb⟩

end Node

/-! ## Whole sources -/

/-- The spans of a parse tree are faithful on every source, well-formed or not, and under all
preferences: every node but the program has a span that is not empty, starts where a visible token
starts and stops where one stops; the children of a node lie inside its span, disjoint and in the
order of the source; and the visible tokens inside the span of an expression are its terminals. -/
theorem parse_faithful [Build] (lexical : LexicalPreferences) (preferences : ParserPreferences)
    (source : String) {n : Node} (h : (parse lexical preferences source).tree.toNode.Under n) :
    n.Faithful (Lexing.tokenize lexical source).visible := by
  obtain ⟨hordered, front, place, htokens, hvisible⟩ := Lexing.tokenize_visible lexical source
  obtain ⟨reporter, hstart⟩ : ∃ reporter, (parse lexical preferences source).tree =
      (Parser.start (.ofTokens (Lexing.tokenize lexical source).tokens) preferences
        reporter).parseProgram.1 := ⟨_, rfl⟩
  obtain ⟨p, hready, -, hrow, -, htree, -⟩ :=
    Parser.exists_program_of_start htokens preferences reporter
  rw [hvisible] at hrow
  rw [hstart, htree] at h
  generalize (Lexing.tokenize lexical source).visible = tokens at hordered hrow ⊢
  rcases hprogram : Parsing.program p with ⟨tree, q⟩
  rw [hprogram] at h
  have hread := Parsing.program_read hready hprogram
  have hspan : tree.span = q.stream.spanFrom p.position := by
    have : (Parsing.program p).1.span = (Parsing.program p).2.stream.spanFrom p.position := rfl
    rwa [hprogram] at this
  have hb : q.position ≤ tokens.length := by
    have hq := q.stream.position_lt
    have hsize := congrArg List.length hrow
    rw [List.length_map, Array.length_toList, List.length_append, List.length_singleton] at hsize
    rw [hread.onward.tokens, hsize] at hq
    exact Nat.le_of_lt_succ hq
  have hchildren : tree.toNode.children = tree.statements.map Stmt.toNode := by
    simp [Program.toNode, Node.children, Stmt.toNodes_eq]
  have hplaced := hread.placed
  rw [← hchildren] at hplaced
  rcases h.placed hplaced with rfl | ⟨k, l, hn, hlb⟩
  -- The root is not placed itself, since a program may be without tokens.
  · have hinside : ∀ children, Node.AllPlaced p.stream.significant children p.position q.position →
        (∀ c ∈ children, tree.span.start.offset ≤ c.span.start.offset ∧
          c.span.stop.offset ≤ tree.span.stop.offset) ∧
        children.Pairwise fun c d => c.span.stop.offset ≤ d.span.start.offset := by
      rintro (_ | ⟨c, rest⟩) hplaced
      · simp
      -- With a child there are tokens, and the span of the program covers them.
      · have hlt : p.position < q.position := by
          obtain ⟨k, l, hk, hc, hrest⟩ := hplaced
          have := hc.lt
          have := hrest.le
          omega
        have hcovers := TokenStream.covers_spanFrom hlt
        rw [hread.onward.tokens, ← hspan] at hcovers
        exact Node.inside_disjoint hrow hordered hcovers hb hplaced
    obtain ⟨hinside, hdisjoint⟩ := hinside _ hplaced
    exact ⟨fun h => absurd rfl h, hinside, hdisjoint, fun e he => by cases he⟩
  · exact hn.faithful hrow hordered (Nat.le_trans hlb hb)

/-- Behind a missing name and in an unclosed block, spans are still faithful. -/
theorem parse_faithful_unclosed :
    let source := "int = 1\nwhile (x < 2) \x7b print(-x"
    let root := (parse {} {} source).tree.toNode
    root.children ≠ [] ∧ ∀ n ∈ root.children, n.Faithful (Lexing.tokenize {} source).visible := by
  intro source root
  refine ⟨?_, fun n hn => parse_faithful {} {} source (.child .self hn)⟩
  have h : root.children.isEmpty = false := by decide +kernel
  intro hnil
  rw [hnil] at h
  cases h

end EvlCheck
