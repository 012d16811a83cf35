/-
What the parser sees of a text, line by line. A text is put together from its lines (`Sees.line`), and a
run of words shows its tokens (`Run.sees`). So a line can be exchanged: where no comment runs over it, what
the parser sees in front of the line and behind it stays (`Cut.sorted`).
-/
import EvlCheck.Proofs.Fix.LineAt
import EvlCheck.Proofs.Lexing.Run

namespace EvlCheck.Lexing

open EvlCheck.Text

/-- The text is lexed without a fault, wherever it stands, and the parser sees the tokens. -/
def Sees (cs : List Char) (ts : List Token) : Prop :=
  ∀ place, ∃ all, Cut (Reading False) place cs all ∧ AllGood all ∧ (all.filter seen).map (·.value) = ts

/-! ## Where a text stands -/

theorem map_value_filter_seen {ts us : List SpannedToken} (h : ts.map (·.value) = us.map (·.value)) :
    (ts.filter seen).map (·.value) = (us.filter seen).map (·.value) := by
  have hseen : ∀ ts : List SpannedToken, (ts.filter seen).map (·.value) =
      (ts.map (·.value)).filter fun t => t.isSignificant && !t.isEof := by
    intro ts
    rw [List.filter_map]
    rfl
  rw [hseen, hseen, h]

/-- A text is cut in the same way wherever it stands. -/
theorem Cut.elsewhere {place : Position} {cs : List Char} {tokens : List SpannedToken}
    (h : Cut (Reading False) place cs tokens) (other : Position) :
    ∃ us, Cut (Reading False) other cs us ∧ us.map (·.value) = tokens.map (·.value) := by
  induction h generalizing other with
  | done => exact ⟨_, .done other, rfl⟩
  | @piece place taken rest t tokens nonempty inside text ok next ih =>
    obtain ⟨us, hus, hvalues⟩ := ih (other.advanceAll taken)
    exact ⟨_, .piece nonempty inside text ok hus, by rw [List.map_cons, List.map_cons, hvalues]⟩

theorem Cut.sees {place : Position} {cs : List Char} {tokens : List SpannedToken}
    (h : Cut (Reading False) place cs tokens) (hgood : AllGood tokens) :
    Sees cs ((tokens.filter seen).map (·.value)) := by
  intro other
  obtain ⟨us, hus, hvalues⟩ := h.elsewhere other
  refine ⟨us, hus, fun t ht => ?_, map_value_filter_seen hvalues⟩
  obtain ⟨u, hu, hvalue⟩ := List.mem_map.1 (hvalues ▸ List.mem_map_of_mem ht)
  rw [← hvalue]
  exact hgood u hu

/-! ## Texts put together -/

theorem seen_of_not_solid {t : SpannedToken} (h : solid t = false) : seen t = false ∧ t.value.isError = false := by
  obtain ⟨t, s⟩ := t
  cases t <;> first | exact ⟨rfl, rfl⟩ | cases h

theorem filter_solid_seen (ts : List SpannedToken) : (ts.filter solid).filter seen = ts.filter seen := by
  rw [List.filter_filter]
  refine List.filter_congr fun t _ => ?_
  cases ht : solid t with
  | true => exact Bool.and_true _
  | false => rw [(seen_of_not_solid ht).1]; rfl

theorem allGood_of_solid {ts us : List SpannedToken} (h : ∀ t ∈ us.filter solid, t ∈ ts) (hgood : AllGood ts) :
    AllGood us := by
  intro t ht
  cases hsolid : solid t with
  | true => exact hgood t (h t (List.mem_filter.2 ⟨ht, hsolid⟩))
  | false => exact (seen_of_not_solid hsolid).2

namespace Sees

variable {cs more : List Char} {ts us : List Token}

theorem nil : Sees [] [] := fun place => ⟨_, .done place, by simp [AllGood, Token.isError], rfl⟩

/-- Blanks in front show nothing. -/
theorem blanks {g : List Char} (hg : ∀ c ∈ g, isGap c = true) (h : Sees cs ts) : Sees (g ++ cs) ts := by
  intro place
  by_cases hne : g = []
  · subst hne
    exact h place
  · obtain ⟨all, hall, hgood, hseen⟩ := h (place.advanceAll g)
    obtain ⟨others, hothers, hsolid⟩ := hall.skip_blanks hne hg
    refine ⟨others, hothers, allGood_of_solid (fun t ht => ?_) hgood, ?_⟩
    · rw [hsolid] at ht
      exact List.mem_of_mem_filter ht
    · rw [← filter_solid_seen, hsolid, filter_solid_seen, hseen]

/-- A text and the lines behind it. -/
theorem line (h : Sees cs ts) (h' : Sees more us) : Sees (cs ++ '\n' :: more) (ts ++ us) := by
  intro place
  obtain ⟨front, hfront, hgood, hseen⟩ := h place
  obtain ⟨back, hback, hgood', hseen'⟩ := h' (place.advanceAll (cs ++ ['\n']))
  have hclosed : ∀ t ∈ front, ∀ rest, t.value ≠ .error (String.ofList ('/' :: '*' :: rest)) := by
    intro t ht rest hvalue
    have hnone := hgood t ht
    rw [hvalue] at hnone
    cases hnone
  obtain ⟨all, hall, hsolid⟩ := hfront.append_line hclosed hback
  refine ⟨all, hall, fun t ht => ?_, ?_⟩
  · cases ht' : solid t with
    | false => exact (seen_of_not_solid ht').2
    | true =>
      have hmem := List.mem_filter.2 ⟨ht, ht'⟩
      rw [hsolid] at hmem
      rcases List.mem_append.1 hmem with hmem | hmem
      · exact hgood t (List.mem_of_mem_filter hmem)
      · exact hgood' t (List.mem_of_mem_filter hmem)
  · have hinside : (front.filter fun t => solid t && !t.value.isEof).filter seen = front.filter seen := by
      rw [List.filter_filter]
      refine List.filter_congr fun t _ => ?_
      obtain ⟨t, s⟩ := t
      cases t <;> rfl
    rw [← filter_solid_seen, hsolid, List.filter_append, filter_solid_seen, hinside, List.map_append, hseen, hseen']

end Sees

/-- A run of words shows its tokens. -/
theorem Run.sees {cs : List Char} {ts : List Token} (h : Run none cs ts) : Sees cs ts := by
  induction h with
  | nil => exact .nil
  | @blank c cs ts gap more ih => exact ih.blanks (g := [c]) (by simpa using gap)
  | @word w rest t ts spells seen parts more ih =>
    intro place
    obtain ⟨all, hall, hgood, hvalues⟩ := ih (place.advanceAll w)
    have hnonempty : w ≠ [] := by
      obtain ⟨c, cs, rfl⟩ := spells.exists_cons
      exact List.cons_ne_nil c cs
    have hreading := reading_of_parts spells fun d hd => parts d (by rw [Option.or_none]; exact hd)
    refine ⟨_, .piece hnonempty spells.ne_eof spells.text_eq hreading hall,
      allGood_cons.2 ⟨isError_of_isSignificant seen, hgood⟩, ?_⟩
    have hsolid : Lexing.seen ⟨t, ⟨place, place.advanceAll w⟩⟩ = true := by
      unfold Lexing.seen
      rw [seen]
      cases t <;> first | rfl | exact absurd rfl spells.ne_eof
    rw [List.filter_cons_of_pos hsolid, List.map_cons, hvalues]

/-- What is neither a comment nor seen is blanks. -/
theorem Reading.gap_of_unseen {taken rest : List Char} {t : Token} (h : Reading False (taken ++ rest) taken t)
    (hgood : t.isError = false) (hcomment : t.isComment = false) (inside : t ≠ .eof) {s : Span}
    (hseen : seen ⟨t, s⟩ = false) : ∀ c ∈ taken, isGap c = true := by
  have hspells := h.spells hgood
  cases hspells with
  | whitespace nonempty blank => exact fun c hc => (isGap_iff c).2 (blank c hc)
  | lineComment | blockComment => cases hcomment
  | _ => cases hseen

theorem Run.head_ne_point {next : Option Char} {cs : List Char} {ts : List Token} (h : Run next cs ts) :
    ∀ d ∈ cs.head?, d ≠ '.' := by
  cases h with
  | nil => rintro d ⟨⟩
  | blank gap =>
    rintro d ⟨⟩ rfl
    cases gap
  | word spells seen =>
    rintro d hd rfl
    obtain ⟨c, cs, rfl⟩ := spells.exists_cons
    cases hd
    rcases spells.of_other rfl rfl with ⟨s, -, hs⟩ | ⟨-, body, hv, -⟩ | ⟨-, body, hv, -⟩
    · cases s <;> cases hs
    · cases hv
    · cases hv

/-- A text without comments is a run. -/
theorem Cut.run {place : Position} {cs : List Char} {tokens : List SpannedToken}
    (h : Cut (Reading False) place cs tokens) (hgood : AllGood tokens)
    (hcomment : ∀ t ∈ tokens, t.value.isComment = false) :
    Run none cs ((tokens.filter seen).map (·.value)) := by
  induction h with
  | done => exact .nil
  | @piece place taken rest t tokens nonempty inside text ok next ih =>
    rw [allGood_cons] at hgood
    rw [List.forall_mem_cons] at hcomment
    have hrest := ih hgood.2 hcomment.2
    cases hseen : seen ⟨t, ⟨place, place.advanceAll taken⟩⟩ with
    | false =>
      rw [List.filter_cons_of_neg (by simp [hseen])]
      exact hrest.blanks (ok.gap_of_unseen hgood.1 hcomment.1 inside hseen)
    | true =>
      have hsignificant : t.isSignificant = true := (Bool.and_eq_true_iff.1 hseen).1
      rw [List.filter_cons_of_pos hseen]
      refine .word (ok.spells hgood.1) hsignificant (fun d hd => ?_) hrest
      rw [Option.or_none] at hd
      obtain ⟨more, rfl⟩ := List.head?_eq_some_iff.1 hd
      exact ok.parts hsignificant (hrest.head_ne_point d rfl)

/-! ## A line and its surroundings -/

/-- What the parser sees above a line. -/
def visibleAbove (tokens : List SpannedToken) (n : Nat) : List Token :=
  ((tokens.filter seen).filter fun t => t.span.start.line < n).map (·.value)

/-- What the parser sees below a line. -/
def visibleBelow (tokens : List SpannedToken) (n : Nat) : List Token :=
  ((tokens.filter seen).filter fun t => n < t.span.start.line).map (·.value)

/-- No comment stands on a line, nor runs over it. -/
def CommentFree (tokens : List SpannedToken) (n : Nat) : Prop :=
  ∀ t ∈ tokens, t.value.isComment = true → t.span.start.line ≤ n → ¬ n ≤ t.span.stop.line

theorem dense_of_isComment {t : SpannedToken} (h : t.value.isComment = true) : dense t = true := by
  obtain ⟨t, s⟩ := t
  cases t <;> first | rfl | cases h

theorem CommentFree.of_dense {ts us : List SpannedToken} {n : Nat} (h : CommentFree ts n)
    (hsub : us.filter dense ⊆ ts.filter dense) : CommentFree us n := fun t ht hcomment =>
  h t (List.mem_of_mem_filter (hsub (List.mem_filter.2 ⟨ht, dense_of_isComment hcomment⟩))) hcomment

/-- A token begins no later than it ends. -/
theorem Cut.line_le {Ok : PieceProp} {place : Position} {cs : List Char} {tokens : List SpannedToken}
    (h : Cut Ok place cs tokens) {t : SpannedToken} (ht : t ∈ tokens) : t.span.start.line ≤ t.span.stop.line := by
  induction h with
  | done place =>
    cases List.mem_singleton.1 ht
    exact Nat.le_refl _
  | @piece place taken rest u tokens nonempty inside text ok next ih =>
    rcases List.mem_cons.1 ht with rfl | ht
    · exact Position.line_advanceAll place taken ▸ Nat.le_add_right _ _
    · exact ih ht

/-- A text is cut at a line feed where a line without comments begins or ends. -/
theorem Cut.at_commentFree {place : Position} {before behind : List Char} {tokens : List SpannedToken}
    (h : Cut (Reading False) place (before ++ '\n' :: behind) tokens) (hgood : AllGood tokens) {n : Nat}
    (hcomment : CommentFree tokens n)
    (hn : n = place.line + before.count '\n' ∨ n = place.line + before.count '\n' + 1) :
    ∃ ts us, Cut (Reading False) place before ts ∧ AllGood ts ∧
      Cut (Reading False) (place.advanceAll (before ++ ['\n'])) behind us ∧ AllGood us ∧
      tokens.filter dense = ts.filter dense ++ us.filter dense := by
  refine (h.at_lineFeed hgood rfl).resolve_right ?_
  rintro ⟨t, ht, ⟨text, hvalue⟩, hstart, hstop⟩
  exact hcomment t ht (by rw [hvalue]; rfl) (by omega) (by omega)

/-- The tokens of a text around a line. -/
structure Sorted (tokens : List SpannedToken) (n : Nat) (above on below : List SpannedToken) : Prop where
  tokens_eq : tokens.filter dense = above.filter dense ++ (on.filter dense ++ below.filter dense)
  above_line : ∀ t ∈ above.filter dense, t.span.start.line < n
  on_line : ∀ t ∈ on.filter dense, t.span.start.line = n
  below_line : ∀ t ∈ below.filter dense, n < t.span.start.line

theorem filter_dense_seen (ts : List SpannedToken) : (ts.filter dense).filter seen = ts.filter seen := by
  rw [List.filter_filter]
  refine List.filter_congr fun t _ => ?_
  cases ht : seen t with
  | false => rfl
  | true => rw [dense_of_seen ht]; rfl

/-- Where a test is the same for all, either all that is seen passes it or nothing. -/
theorem filter_seen_const {ts : List SpannedToken} {p : SpannedToken → Bool} {b : Bool}
    (h : ∀ t ∈ ts.filter dense, p t = b) :
    ((ts.filter dense).filter p).filter seen = if b then ts.filter seen else [] := by
  cases b with
  | true => rw [List.filter_eq_self.2 h, filter_dense_seen, if_pos rfl]
  | false =>
    have hnone : (ts.filter dense).filter p = [] := List.filter_eq_nil_iff.2 fun t ht => by simp [h t ht]
    rw [hnone]
    rfl

namespace Sorted

variable {tokens above on below : List SpannedToken} {n : Nat} (h : Sorted tokens n above on below)
include h

theorem filter_seen (p : SpannedToken → Bool) : (tokens.filter seen).filter p =
    ((above.filter dense).filter p).filter seen ++
      (((on.filter dense).filter p).filter seen ++ ((below.filter dense).filter p).filter seen) := by
  have hswap : ∀ ts : List SpannedToken, (ts.filter p).filter seen = (ts.filter seen).filter p := by
    intro ts
    rw [List.filter_filter, List.filter_filter]
    exact List.filter_congr fun t _ => Bool.and_comm _ _
  rw [← filter_dense_seen, h.tokens_eq, ← hswap, List.filter_append, List.filter_append, List.filter_append,
    List.filter_append]

theorem visibleAbove_eq : visibleAbove tokens n = (above.filter seen).map (·.value) := by
  rw [visibleAbove, h.filter_seen, filter_seen_const (b := true), filter_seen_const (b := false),
    filter_seen_const (b := false)]
  · simp
  · exact fun t ht => decide_eq_false (Nat.lt_asymm (h.below_line t ht))
  · exact fun t ht => decide_eq_false (Nat.not_lt.2 (Nat.le_of_eq (h.on_line t ht).symm))
  · exact fun t ht => decide_eq_true (h.above_line t ht)

theorem visibleOn_eq : visibleOn tokens n = (on.filter seen).map (·.value) := by
  rw [visibleOn, h.filter_seen, filter_seen_const (b := false), filter_seen_const (b := true),
    filter_seen_const (b := false)]
  · simp
  · exact fun t ht => decide_eq_false (Nat.ne_of_gt (h.below_line t ht))
  · exact fun t ht => decide_eq_true (h.on_line t ht)
  · exact fun t ht => decide_eq_false (Nat.ne_of_lt (h.above_line t ht))

theorem visibleBelow_eq : visibleBelow tokens n = (below.filter seen).map (·.value) := by
  rw [visibleBelow, h.filter_seen, filter_seen_const (b := false), filter_seen_const (b := false),
    filter_seen_const (b := true)]
  · simp
  · exact fun t ht => decide_eq_true (h.below_line t ht)
  · exact fun t ht => decide_eq_false (Nat.not_lt.2 (Nat.le_of_eq (h.on_line t ht)))
  · exact fun t ht => decide_eq_false (Nat.lt_asymm (h.above_line t ht))

/-- What is seen is what is seen above the line, on it and below it. -/
theorem map_value_seen : (tokens.filter seen).map (·.value) =
    visibleAbove tokens n ++ (visibleOn tokens n ++ visibleBelow tokens n) := by
  rw [h.visibleAbove_eq, h.visibleOn_eq, h.visibleBelow_eq, ← List.map_append, ← List.map_append,
    ← filter_dense_seen, h.tokens_eq, List.filter_append, List.filter_append, filter_dense_seen,
    filter_dense_seen, filter_dense_seen]

end Sorted

/-- What stands in front of a line is cut off where the line begins, and shows the same in front of any
other text. -/
structure Leading (n : Nat) (before : List Char) (place : Position) (tokens above rest : List SpannedToken) :
    Prop where
  line_eq : place.line = n
  good : AllGood rest
  tokens_eq : tokens.filter dense = above.filter dense ++ rest.filter dense
  above_line : ∀ t ∈ above.filter dense, t.span.start.line < n
  leads : ∀ {more ts}, Sees more ts → Sees (before ++ more) ((above.filter seen).map (·.value) ++ ts)

/-- What stands behind a line and its ending is cut off there, and shows the same behind any other line. -/
structure Trailing (n : Nat) (line ending terminator after : List Char) (place : Position)
    (rest on below : List SpannedToken) : Prop where
  cut : Cut (Reading False) place (line ++ ending) on
  good : AllGood on
  tokens_eq : rest.filter dense = on.filter dense ++ below.filter dense
  on_line : ∀ t ∈ on.filter dense, t.span.start.line = n
  below_line : ∀ t ∈ below.filter dense, n < t.span.start.line
  trails : ∀ {new ts}, Sees (new ++ ending) ts →
    Sees (new ++ (terminator ++ after)) (ts ++ (below.filter seen).map (·.value))
  after_sees : Sees after ((below.filter seen).map (·.value))

section

variable {cs before line terminator after ending : List Char} {n : Nat} {place : Position}
  {tokens rest : List SpannedToken}

theorem Cut.leading (h : Cut (Reading False) .start cs tokens) (hgood : AllGood tokens)
    (hat : LineAt cs n before line terminator after) (hcomment : CommentFree tokens n) :
    ∃ place above rest, Cut (Reading False) place (line ++ (terminator ++ after)) rest ∧
      Leading n before place tokens above rest := by
  have htext : cs = before ++ (line ++ (terminator ++ after)) := by
    rw [hat.text_eq, List.append_assoc, List.append_assoc]
  rcases hat.starts with rfl | hlast
  · rw [htext] at h
    exact ⟨.start, [], tokens, h, hat.number.symm, hgood, rfl, by simp, fun hmore => hmore⟩
  · obtain ⟨front, rfl⟩ := List.getLast?_eq_some_iff.1 hlast
    have hnumber := hat.number
    rw [List.count_append, List.count_singleton_self] at hnumber
    rw [htext, List.append_assoc, List.singleton_append] at h
    have hstart : Position.start.line = 1 := rfl
    obtain ⟨above, rest, hfront, hgoodfront, hrest, hgoodrest, hdense⟩ :=
      h.at_commentFree hgood hcomment (.inr (by omega))
    refine ⟨_, above, rest, hrest, ?_, hgoodrest, hdense, fun t ht => ?_, fun hmore => ?_⟩
    · rw [Position.line_advanceAll, List.count_append, List.count_singleton_self]
      omega
    · have := hfront.line_bounds (List.mem_of_mem_filter ht)
      omega
    · rw [List.append_assoc]
      exact (hfront.sees hgoodfront).line hmore

theorem Cut.on_line {on : List SpannedToken} (h : Cut (Reading False) place (line ++ ending) on)
    (hplace : place.line = n) (hline : '\n' ∉ line) (hending : '\n' ∉ ending) :
    ∀ t ∈ on.filter dense, t.span.start.line = n := by
  intro t ht
  have := h.line_bounds (List.mem_of_mem_filter ht)
  rw [List.count_append, List.count_eq_zero.2 hline, List.count_eq_zero.2 hending] at this
  omega

/-- A line feed ends the line. -/
theorem Cut.trailing_of_lineFeed (h : Cut (Reading False) place (line ++ (ending ++ '\n' :: after)) rest)
    (hgood : AllGood rest) (hplace : place.line = n) (hline : '\n' ∉ line) (hending : '\n' ∉ ending)
    (hcomment : CommentFree rest n) :
    ∃ on below, Trailing n line ending (ending ++ ['\n']) after place rest on below := by
  have htext : ∀ new, new ++ (ending ++ '\n' :: after) = new ++ ending ++ '\n' :: after := fun new =>
    (List.append_assoc new ending _).symm
  rw [htext] at h
  obtain ⟨on, below, hon, hgoodon, hbelow, hgoodbelow, hdense⟩ := h.at_commentFree hgood hcomment <| .inl <| by
    rw [List.count_append, List.count_eq_zero.2 hline, List.count_eq_zero.2 hending, hplace]
    rfl
  refine ⟨on, below, hon, hgoodon, hdense, hon.on_line hplace hline hending, fun t ht => ?_, fun hnew => ?_,
    hbelow.sees hgoodbelow⟩
  · have := hbelow.line_bounds (List.mem_of_mem_filter ht)
    rw [Position.line_advanceAll, List.count_append, List.count_singleton_self] at this
    omega
  · rw [List.append_assoc ending, List.singleton_append, htext]
    exact hnew.line (hbelow.sees hgoodbelow)

/-- The line is the last one. -/
theorem Cut.trailing_of_last (h : Cut (Reading False) place (line ++ ending) rest) (hgood : AllGood rest)
    (hplace : place.line = n) (hline : '\n' ∉ line) (hending : '\n' ∉ ending) :
    Trailing n line ending ending [] place rest rest [] where
  cut := h
  good := hgood
  tokens_eq := (List.append_nil _).symm
  on_line := h.on_line hplace hline hending
  below_line := by simp
  trails hnew := by simpa using hnew
  after_sees := .nil

theorem Cut.trailing (h : Cut (Reading False) place (line ++ (terminator ++ after)) rest) (hgood : AllGood rest)
    (hplace : place.line = n) (hat : LineAt cs n before line terminator after) (hcomment : CommentFree rest n) :
    ∃ ending on below, (∀ c ∈ ending, isGap c = true) ∧
      Trailing n line ending terminator after place rest on below := by
  rcases hat.ends with rfl | rfl | ⟨rfl, rfl | rfl⟩
  · obtain ⟨on, below, htrailing⟩ : ∃ on below, Trailing n line [] ['\n'] after place rest on below :=
      h.trailing_of_lineFeed hgood hplace hat.unbroken (by simp) hcomment
    exact ⟨[], on, below, by simp, htrailing⟩
  · obtain ⟨on, below, htrailing⟩ : ∃ on below, Trailing n line ['\r'] ['\r', '\n'] after place rest on below :=
      h.trailing_of_lineFeed hgood hplace hat.unbroken (by simp) hcomment
    exact ⟨['\r'], on, below, by simp [isGap], htrailing⟩
  · exact ⟨[], rest, [], by simp, h.trailing_of_last hgood hplace hat.unbroken (by simp)⟩
  · exact ⟨['\r'], rest, [], by simp [isGap], h.trailing_of_last hgood hplace hat.unbroken (by simp)⟩

/-- The tokens of a text are those above a line without comments, on it and below it, and the text can be
put together again with another text for the line. -/
theorem Cut.sorted (h : Cut (Reading False) .start cs tokens) (hgood : AllGood tokens)
    (hat : LineAt cs n before line terminator after) (hcomment : CommentFree tokens n) :
    ∃ ending place above on below, Sorted tokens n above on below ∧ (∀ c ∈ ending, isGap c = true) ∧
      Cut (Reading False) place (line ++ ending) on ∧ AllGood on ∧
      (∀ new ts, Sees (new ++ ending) ts → Sees (before ++ new ++ terminator ++ after)
        (visibleAbove tokens n ++ (ts ++ visibleBelow tokens n))) ∧
      Sees (before ++ after) (visibleAbove tokens n ++ visibleBelow tokens n) := by
  obtain ⟨place, above, rest, hrest, hleading⟩ := h.leading hgood hat hcomment
  obtain ⟨ending, on, below, hending, htrailing⟩ := hrest.trailing hleading.good hleading.line_eq hat
    (hcomment.of_dense (hleading.tokens_eq ▸ List.subset_append_right _ _))
  have hsorted : Sorted tokens n above on below :=
    ⟨by rw [hleading.tokens_eq, htrailing.tokens_eq], hleading.above_line, htrailing.on_line,
      htrailing.below_line⟩
  refine ⟨ending, place, above, on, below, hsorted, hending, htrailing.cut, htrailing.good,
    fun new ts hnew => ?_, ?_⟩
  · rw [hsorted.visibleAbove_eq, hsorted.visibleBelow_eq, List.append_assoc, List.append_assoc]
    exact hleading.leads (htrailing.trails hnew)
  · rw [hsorted.visibleAbove_eq, hsorted.visibleBelow_eq]
    exact hleading.leads htrailing.after_sees

end

end EvlCheck.Lexing
