/-
Moves over the tokens. A stream cannot stand outside of its row (`TokenStream.position_lt`). Here it is set
against a cursor that can: places are plain numbers, a token is found through the list of indices, and a
look-up beyond the end of a list has no result (`Cursor`). Whatever the tokens are and however the cursor
moves, no look-up is without a result, and the cursor is always where the stream is.

Where no token but the last is the end of the source, each move and each look is exact.
-/
import EvlCheck.Proofs.Token.Stream

namespace EvlCheck

/-! ## A cursor without bounds -/

/-- All tokens, the indices of the significant ones, and a place among these. -/
structure Cursor where
  all : Array SpannedToken
  indices : Array Nat
  position : Nat
  deriving Repr, DecidableEq

/-- A move of the cursor. -/
inductive Move where
  | advance
  | advanceIf (expected : Token)
  | expect (expected : Token)
  | save
  | restore (position : Nat)
  deriving Repr, DecidableEq

namespace Cursor

/-- The tokens, and behind them the end of the source if it is not the last. -/
def closed (tokens : Array SpannedToken) : Array SpannedToken :=
  if tokens.back?.any (·.value.isEof) then tokens
  else tokens.push ⟨.eof, .point ((tokens.back?.map (·.span.stop)).getD .start)⟩

def significantIndices (tokens : Array SpannedToken) : Array Nat :=
  tokens.zipIdx.filterMap fun (t, i) => if t.value.isSignificant then some i else none

def ofTokens (tokens : Array SpannedToken) : Cursor :=
  ⟨closed tokens, significantIndices (closed tokens), 0⟩

/-- The last place there is; a list without entries has none. -/
def last? (c : Cursor) : Option Nat :=
  if c.indices.size = 0 then none else some (c.indices.size - 1)

/-- The index of the significant token at a place, or of the last one beyond it. -/
def indexOf? (c : Cursor) (position : Nat) : Option Nat := do
  let last ← c.last?
  c.indices[min position last]?

def index? (c : Cursor) (n : Nat) : Option Nat := c.indexOf? (c.position + n)

def peek? (c : Cursor) (n : Nat) : Option SpannedToken := do
  let i ← c.index? n
  c.all[i]?

def current? (c : Cursor) : Option SpannedToken := c.peek? 0

def spanAt? (c : Cursor) (position : Nat) : Option Span :=
  (c.indices[position]?.bind fun i => c.all[i]?).map (·.span)

/-- The span from the significant token at `first` to the last one before the cursor. -/
def spanFrom? (c : Cursor) (first : Nat) : Option Span :=
  let stop? := if 1 ≤ c.position ∧ first ≤ c.position - 1 then c.spanAt? (c.position - 1) else none
  match c.spanAt? first, stop? with
  | some start, some stop => some (start.merge stop)
  | some start, none => some (.point start.start)
  | none, _ => c.current?.map fun t => .point t.span.start

/-- Moves on by one, unless at the end of the source, and looks at the token there. -/
def advance? (c : Cursor) : Option Cursor := do
  let t ← c.current?
  let c := if t.value.isEof then c else { c with position := c.position + 1 }
  let _ ← c.current?
  return c

def advanceIf? (c : Cursor) (expected : Token) : Option (Bool × Cursor) := do
  let t ← c.current?
  if t.value.sameKind expected then return (true, ← c.advance?) else return (false, c)

def expect? (c : Cursor) (expected : Token) : Option (Except StreamError SpannedToken × Cursor) := do
  let t ← c.current?
  if t.value.sameKind expected then return (.ok t, ← c.advance?)
  else if t.value.isEof then return (.error (.endOfStream expected.expectation t.span), c)
  else return (.error (.unexpectedToken expected.expectation t.value.text t.span), c)

def restore? (c : Cursor) (position : Nat) : Option Cursor := do
  return { c with position := min position (← c.last?) }

def move? (c : Cursor) : Move → Option Cursor
  | .advance => c.advance?
  | .advanceIf t => (c.advanceIf? t).map (·.2)
  | .expect t => (c.expect? t).map (·.2)
  | .save => some c
  | .restore n => c.restore? n

/-- Makes moves one after the other. -/
def after? (c : Cursor) (moves : List Move) : Option Cursor :=
  moves.foldlM move? c

end Cursor

/-! ## Spans in order -/

/-- The other span begins and ends no earlier. Two that begin at the same offset begin at the same place. -/
def Span.RisesTo (a b : Span) : Prop :=
  (a.start = b.start ∨ a.start.offset < b.start.offset) ∧ a.stop.offset ≤ b.stop.offset

theorem Span.RisesTo.refl (a : Span) : a.RisesTo a := ⟨.inl rfl, Nat.le_refl _⟩

theorem Span.RisesTo.merge_eq {a b : Span} (h : a.RisesTo b) : a.merge b = ⟨a.start, b.stop⟩ := by
  obtain ⟨hstart, hstop⟩ := h
  unfold Span.merge
  rw [if_neg (Nat.not_lt.2 hstop)]
  rcases hstart with hsame | hlt
  · rw [hsame, if_neg (Nat.lt_irrefl _)]
  · rw [if_pos hlt]

/-! ## The stream as a cursor -/

namespace TokenStream

def move (s : TokenStream) : Move → TokenStream
  | .advance => s.advance
  | .advanceIf t => (s.advanceIf t).2
  | .expect t =>
    match s.expect t with
    | .ok (_, s') => s'
    | .error _ => s
  | .save => s
  | .restore n => s.restore n

def after (s : TokenStream) (moves : List Move) : TokenStream :=
  moves.foldl move s

/-- The cursor over the same tokens at the same place. -/
def cursor (s : TokenStream) : Cursor :=
  ⟨s.all, s.significant.map (·.index), s.position⟩

/-- The stream of some tokens is one of tokens and the end of the source behind them, which stands
there or is added. -/
theorem ofTokens_cases (tokens : Array SpannedToken) :
    ∃ front place, ofTokens tokens = ofFront front place ∧ Cursor.closed tokens = front.push ⟨.eof, place⟩ ∧
      (tokens = front.push ⟨.eof, place⟩ ∨ tokens = front ∧ ∀ t ∈ tokens.back?, t.value ≠ .eof) := by
  cases hback : tokens.back? with
  | none =>
    obtain rfl := Array.back?_eq_none_iff.1 hback
    exact ⟨#[], .point .start, rfl, rfl, .inr ⟨rfl, nofun⟩⟩
  | some last =>
    obtain ⟨value, span⟩ := last
    by_cases heof : value = .eof
    · subst heof
      obtain ⟨front, rfl⟩ := Array.back?_eq_some_iff.1 hback
      refine ⟨front, span, ?_, ?_, .inl rfl⟩
      · simp [ofTokens]
      · simp [Cursor.closed, Token.isEof]
    · refine ⟨tokens, .point span.stop, ?_, ?_, .inr ⟨rfl, ?_⟩⟩
      · unfold ofTokens
        rw [hback]
        cases value with
        | eof => exact absurd rfl heof
        | _ => rfl
      · unfold Cursor.closed
        rw [hback]
        cases value with
        | eof => exact absurd rfl heof
        | _ => rfl
      · rintro t ⟨⟩
        exact heof

theorem map_index_significantTokens (tokens : Array SpannedToken) :
    (significantTokens tokens).map (·.index) = Cursor.significantIndices tokens := by
  unfold significantTokens Cursor.significantIndices
  rw [Array.map_filterMap]
  congr 1
  funext ⟨t, i⟩
  dsimp only
  split <;> rfl

theorem cursor_ofTokens (tokens : Array SpannedToken) : (ofTokens tokens).cursor = Cursor.ofTokens tokens := by
  obtain ⟨front, place, hstream, hclosed, -⟩ := ofTokens_cases tokens
  unfold Cursor.ofTokens
  rw [hstream, hclosed]
  have hindices : Cursor.significantIndices (front.push ⟨.eof, place⟩) =
      (Cursor.significantIndices front).push front.size := by
    have hnumbered : (front.push ⟨.eof, place⟩).zipIdx = front.zipIdx.push (⟨.eof, place⟩, front.size) := by
      apply Array.toList_inj.1
      simp [List.zipIdx_append]
    unfold Cursor.significantIndices
    rw [hnumbered]
    exact Array.filterMap_push_some rfl (Array.size_push _)
  rw [hindices, ← map_index_significantTokens]
  show (⟨front.push _, ((significantTokens front).push _).map (·.index), 0⟩ : Cursor) = _
  rw [Array.map_push]

/-! ## Looks -/

section

variable {s : TokenStream}

theorem peek_zero (s : TokenStream) : s.peek 0 = s.current := by
  have hmin : min s.position (s.size - 1) = s.position := by
    have := s.position_lt
    unfold size
    omega
  unfold peek clamped current
  simp only [Nat.add_zero, hmin]

theorem last?_cursor (s : TokenStream) : s.cursor.last? = some (s.size - 1) := by
  have hsize : (s.significant.map (·.index)).size = s.size := Array.size_map
  unfold Cursor.last? cursor
  dsimp only
  rw [hsize, if_neg (Nat.ne_of_gt s.size_pos)]

theorem index?_cursor (s : TokenStream) (n : Nat) : s.cursor.index? n = some (s.peek n).index := by
  have hlt : min (s.position + n) (s.size - 1) < s.significant.size := by
    have := s.size_pos
    unfold size at *
    omega
  unfold Cursor.index? Cursor.indexOf?
  rw [last?_cursor]
  show (s.significant.map (·.index))[min (s.position + n) (s.size - 1)]? = _
  rw [Array.getElem?_map, Array.getElem?_eq_getElem hlt]
  rfl

theorem peek?_cursor (h : s.Indexed) (n : Nat) : s.cursor.peek? n = some (s.peek n).spanned := by
  unfold Cursor.peek?
  rw [index?_cursor]
  exact h _ (Array.getElem_mem _)

theorem current?_cursor (h : s.Indexed) : s.cursor.current? = some s.current.spanned := by
  unfold Cursor.current?
  rw [peek?_cursor h, peek_zero]

theorem spanAt?_cursor (h : s.Indexed) (position : Nat) : s.cursor.spanAt? position = s.spanAt? position := by
  show (((s.significant.map (·.index))[position]?).bind fun i => s.all[i]?).map (·.span) = _
  unfold spanAt?
  rw [Array.getElem?_map]
  cases ht : s.significant[position]? with
  | none => rfl
  | some t =>
    rw [Option.map_some, Option.bind_some, h t (Array.mem_of_getElem? ht)]
    rfl

theorem spanFrom?_cursor (h : s.Indexed) (first : Nat) : s.cursor.spanFrom? first = some (s.spanFrom first) := by
  -- Both ask whether a token stands between the first and the cursor.
  have hbefore : (1 ≤ s.position ∧ first ≤ s.position - 1) ↔ first < s.position := by omega
  unfold Cursor.spanFrom? spanFrom
  rw [spanAt?_cursor h, spanAt?_cursor h, current?_cursor h]
  show (match s.spanAt? first,
      if 1 ≤ s.position ∧ first ≤ s.position - 1 then s.spanAt? (s.position - 1) else none with
    | some start, some stop => some (start.merge stop)
    | some start, none => some (.point start.start)
    | none, _ => some (.point s.current.span.start)) = _
  simp only [hbefore]
  cases s.spanAt? first with
  | none => rfl
  | some start =>
    by_cases hfirst : first < s.position
    · rw [if_pos hfirst]
      dsimp only
      rw [if_pos hfirst]
      cases s.spanAt? (s.position - 1) <;> rfl
    · rw [if_neg hfirst]
      dsimp only
      rw [if_neg hfirst]

/-! ## Moves -/

theorem row_move (s : TokenStream) (m : Move) :
    (s.move m).all = s.all ∧ (s.move m).significant = s.significant := by
  have hadvance : s.advance.all = s.all ∧ s.advance.significant = s.significant :=
    ⟨s.all_advance, s.significant_advance⟩
  cases m with
  | advance => exact hadvance
  | advanceIf t =>
    show (s.advanceIf t).2.all = s.all ∧ (s.advanceIf t).2.significant = s.significant
    unfold advanceIf
    split
    · exact hadvance
    · exact ⟨rfl, rfl⟩
  | expect t =>
    unfold move expect
    dsimp only
    split
    · next hfound =>
      split at hfound
      · cases hfound
        exact hadvance
      · split at hfound <;> cases hfound
    · exact ⟨rfl, rfl⟩
  | save => exact ⟨rfl, rfl⟩
  | restore n => exact ⟨rfl, rfl⟩

theorem row_after (s : TokenStream) (moves : List Move) :
    (s.after moves).all = s.all ∧ (s.after moves).significant = s.significant := by
  induction moves generalizing s with
  | nil => exact ⟨rfl, rfl⟩
  | cons m moves ih =>
    obtain ⟨hall, hrow⟩ := ih (s.move m)
    exact ⟨hall.trans (s.row_move m).1, hrow.trans (s.row_move m).2⟩

section

variable (h : s.Indexed) (he : s.Ended)
include h he

/-- Moving on by one never leaves the row, since its last token is the end of the source. -/
theorem advance?_cursor : s.cursor.advance? = some s.advance.cursor := by
  have hmoved : s.advance.Indexed := h.congr s.all_advance s.significant_advance
  have hnext : (if s.current.value.isEof then s.cursor else { s.cursor with position := s.position + 1 }) =
      s.advance.cursor := by
    cases hend : s.current.value.isEof with
    | true =>
      rw [if_pos rfl, advance_of_atEnd hend]
    | false =>
      have hne : s.current.value ≠ .eof := by
        intro heof
        rw [heof] at hend
        cases hend
      rw [if_neg Bool.false_ne_true]
      unfold cursor
      rw [s.all_advance, s.significant_advance, position_advance he hne]
  unfold Cursor.advance?
  rw [current?_cursor h]
  show ((if s.current.value.isEof then s.cursor else { s.cursor with position := s.position + 1 }).current?.bind
    fun _ => some (if s.current.value.isEof then s.cursor else { s.cursor with position := s.position + 1 })) = _
  rw [hnext, current?_cursor hmoved]
  rfl

theorem advanceIf?_cursor (t : Token) :
    s.cursor.advanceIf? t = some ((s.advanceIf t).1, (s.advanceIf t).2.cursor) := by
  unfold Cursor.advanceIf? advanceIf check
  rw [current?_cursor h, advance?_cursor h he]
  show (if s.current.value.sameKind t then some (true, s.advance.cursor) else some (false, s.cursor)) = _
  split <;> rfl

theorem expect?_cursor (t : Token) :
    s.cursor.expect? t = some ((s.expect t).map fun found => found.1.spanned, (s.move (.expect t)).cursor) := by
  unfold Cursor.expect? move expect
  rw [current?_cursor h, advance?_cursor h he]
  show (if s.current.value.sameKind t then
      some ((Except.ok s.current.spanned : Except StreamError _), s.advance.cursor)
    else if s.current.value.isEof then some (Except.error (.endOfStream t.expectation s.current.span), s.cursor)
    else some (Except.error (.unexpectedToken t.expectation s.current.value.text s.current.span), s.cursor)) = _
  dsimp only
  split
  · rfl
  · split <;> rfl

theorem move?_cursor (m : Move) : s.cursor.move? m = some (s.move m).cursor := by
  cases m with
  | advance => exact advance?_cursor h he
  | advanceIf t =>
    unfold Cursor.move?
    dsimp only
    rw [advanceIf?_cursor h he]
    rfl
  | expect t =>
    unfold Cursor.move?
    dsimp only
    rw [expect?_cursor h he]
    rfl
  | save => rfl
  | restore n =>
    show s.cursor.restore? n = _
    unfold Cursor.restore?
    rw [last?_cursor]
    rfl

theorem after?_cursor (moves : List Move) : s.cursor.after? moves = some (s.after moves).cursor := by
  unfold Cursor.after?
  induction moves generalizing s with
  | nil => rfl
  | cons m moves ih =>
    obtain ⟨hall, hrow⟩ := s.row_move m
    rw [List.foldlM_cons, move?_cursor h he]
    exact ih (h.congr hall hrow) (he.congr hrow)

end

/-- Whatever has happened in between, a place that was saved is found again. -/
theorem restore_after (s : TokenStream) (moves : List Move) : (s.after moves).restore s.position = s := by
  obtain ⟨hall, hrow⟩ := s.row_after moves
  -- The saved place is one of the row, so that the bound on places changes nothing.
  have hposition : min s.position ((s.after moves).size - 1) = s.position := by
    have := s.position_lt
    unfold size
    rw [hrow]
    omega
  obtain ⟨all, row, position, hlt⟩ := s
  unfold restore
  simp only [TokenStream.mk.injEq]
  exact ⟨hall, hrow, hposition⟩

end

/-! ## Where the end of the source is the last token -/

/-- The row of the stream, as the tokens stand among all. -/
def row (s : TokenStream) : List SpannedToken := s.significant.toList.map StreamToken.spanned

theorem length_row (s : TokenStream) : s.row.length = s.size := by
  unfold row size
  rw [List.length_map, Array.length_toList]

theorem row_ofTokens (tokens : Array SpannedToken) :
    (ofTokens tokens).row = (Cursor.closed tokens).toList.filter (·.value.isSignificant) := by
  obtain ⟨front, place, hstream, hclosed, -⟩ := ofTokens_cases tokens
  rw [hstream, hclosed, Array.toList_push, List.filter_append]
  exact map_spanned_ofFront front.toList place

theorem getElem?_row (s : TokenStream) : s.row[s.position]? = some s.current.spanned := by
  unfold row
  rw [List.getElem?_map, Array.getElem?_toList, s.getElem?_position]
  rfl

theorem getElem?_row_peek {s : TokenStream} {n : Nat} (h : s.position + n < s.size) :
    s.row[s.position + n]? = some (s.peek n).spanned := by
  have hmin : min (s.position + n) (s.size - 1) = s.position + n := by omega
  unfold row peek clamped
  rw [List.getElem?_map, Array.getElem?_toList, Array.getElem?_eq_getElem h]
  simp only [hmin, Option.map_some]
  rfl

/-- Beyond the row the look is at its last token. -/
theorem getElem?_row_peek_behind {s : TokenStream} {n : Nat} (h : s.size ≤ s.position + n) :
    s.row.getLast? = some (s.peek n).spanned := by
  have hmin : min (s.position + n) (s.size - 1) = s.size - 1 := by omega
  have hlast : s.size - 1 < s.significant.size := Nat.sub_lt s.size_pos Nat.one_pos
  rw [List.getLast?_eq_getElem?, s.length_row]
  unfold row peek clamped
  rw [List.getElem?_map, Array.getElem?_toList, Array.getElem?_eq_getElem hlast]
  simp only [hmin, Option.map_some]

theorem spanAt?_eq (s : TokenStream) (position : Nat) : s.spanAt? position = s.row[position]?.map (·.span) := by
  unfold spanAt? row
  rw [List.getElem?_map, Array.getElem?_toList, Option.map_map]
  rfl

section

variable {s : TokenStream} {seen : List SpannedToken} {place : Span} (hrow : s.row = seen ++ [⟨.eof, place⟩])
  (hseen : ∀ t ∈ seen, t.value ≠ .eof)
include hrow hseen

theorem current_eq_eof_iff : s.current.value = .eof ↔ s.position + 1 = s.row.length := by
  have hget := s.getElem?_row
  have hlt := s.position_lt
  rw [← size, ← s.length_row] at hlt
  rw [hrow, List.length_append, List.length_singleton] at hlt ⊢
  rw [hrow] at hget
  constructor
  · intro heof
    by_contra hne
    rw [List.getElem?_append_left (by omega)] at hget
    exact hseen _ (List.mem_of_getElem? hget) heof
  · intro hlast
    rw [List.getElem?_append_right (by omega), show s.position - seen.length = 0 by omega] at hget
    exact (congrArg Spanned.value (Option.some.inj hget)).symm

omit hseen in
theorem peek_exact (n : Nat) :
    s.row[s.position + n]? = some (s.peek n).spanned ∨
      s.row.length ≤ s.position + n ∧ (s.peek n).value = .eof := by
  rcases Nat.lt_or_ge (s.position + n) s.size with hlt | hge
  · exact .inl (getElem?_row_peek hlt)
  · have hlast := getElem?_row_peek_behind hge
    rw [hrow, List.getLast?_concat] at hlast
    exact .inr ⟨s.length_row ▸ hge, (congrArg Spanned.value (Option.some.inj hlast)).symm⟩

omit hseen in
/-- The span from an earlier token runs up to the last one before the cursor. -/
theorem spanFrom_eq (hrises : seen.Pairwise fun a b => a.span.RisesTo b.span) {first : Nat} {a b : SpannedToken}
    (hfirst : first < s.position) (ha : s.row[first]? = some a) (hb : s.row[s.position - 1]? = some b) :
    s.spanFrom first = ⟨a.span.start, b.span.stop⟩ := by
  have hlt := s.position_lt
  rw [← size, ← s.length_row, hrow, List.length_append, List.length_singleton] at hlt
  unfold spanFrom
  rw [s.spanAt?_eq, s.spanAt?_eq, ha, hb]
  dsimp only [Option.map_some]
  rw [if_pos hfirst]
  refine Span.RisesTo.merge_eq ?_
  rw [hrow, List.getElem?_append_left (by omega)] at ha hb
  obtain ⟨hla, rfl⟩ := List.getElem?_eq_some_iff.1 ha
  obtain ⟨hlb, rfl⟩ := List.getElem?_eq_some_iff.1 hb
  rcases Nat.lt_or_ge first (s.position - 1) with hbefore | hsame
  · exact List.pairwise_iff_getElem.1 hrises _ _ hla hlb hbefore
  · obtain rfl : first = s.position - 1 := by omega
    exact .refl _

end

/-- Only tokens that were given stand in the row before its last, which is the end of the source. -/
theorem exists_seen (tokens : Array SpannedToken) :
    ∃ seen place, (Cursor.closed tokens).toList.filter (·.value.isSignificant) = seen ++ [⟨.eof, place⟩] ∧
      seen.Sublist tokens.toList ∧
      ((∀ t ∈ tokens.toList.dropLast, t.value ≠ .eof) → ∀ t ∈ seen, t.value ≠ .eof) := by
  obtain ⟨front, place, -, hclosed, hfront⟩ := ofTokens_cases tokens
  refine ⟨front.toList.filter (·.value.isSignificant), place, ?_, List.filter_sublist.trans ?_, fun hlast t ht => ?_⟩
  · rw [hclosed, Array.toList_push, List.filter_append]
    rfl
  · rcases hfront with rfl | ⟨rfl, -⟩
    · rw [Array.toList_push]
      exact List.sublist_append_left _ _
    · exact .refl _
  · have hmem := (List.mem_filter.1 ht).1
    rcases hfront with rfl | ⟨rfl, hback⟩
    · rw [Array.toList_push, List.dropLast_concat] at hlast
      exact hlast t hmem
    · -- Nothing was the end of the source before it was added.
      rcases List.eq_nil_or_concat tokens.toList with hnil | ⟨init, last, hconcat⟩
      · rw [hnil] at hmem
        cases hmem
      · rw [List.concat_eq_append] at hconcat
        rw [hconcat, List.dropLast_concat] at hlast
        rw [hconcat] at hmem
        rcases List.mem_append.1 hmem with hmem | hmem
        · exact hlast t hmem
        · rw [List.mem_singleton.1 hmem]
          refine hback last ?_
          rw [← Array.getLast?_toList, hconcat, List.getLast?_concat]
          rfl

/-- Moves over any tokens are safe: the cursor without bounds has a result for each of them and for each
look behind them, and it is where the stream is, which is within the row of the significant tokens. An
expectation that fails moves nothing, and a saved place is found again. Moves are exact where the end of
the source is at most the last token: a look ahead is at the token so many places behind in the row, or
at the end of the source; the cursor moves on by one up to the last place, where the end of the source is,
and stays there; and the span from an earlier place runs from the token there to the last one before the
cursor, if the spans of the tokens rise. -/
theorem after_safe_and_exact (tokens : Array SpannedToken) (moves : List Move) :
    let s := (ofTokens tokens).after moves
    let row := (Cursor.closed tokens).toList.filter (·.value.isSignificant)
    (Cursor.ofTokens tokens).after? moves = some s.cursor ∧ s.cursor.position < row.length ∧
    (∀ n, s.cursor.peek? n = some (s.peek n).spanned ∧ s.cursor.index? n = some (s.peek n).index ∧
      s.cursor.spanFrom? n = some (s.spanFrom n)) ∧
    (∀ t e c, s.cursor.expect? t = some (.error e, c) → c = s.cursor) ∧
    (∀ more, s.cursor.after? (more ++ [.restore s.cursor.position]) = some s.cursor) ∧
    ((∀ t ∈ tokens.toList.dropLast, t.value ≠ .eof) →
      (∀ n, row[s.position + n]? = some (s.peek n).spanned ∨
        row.length ≤ s.position + n ∧ (s.peek n).value = .eof) ∧
      (s.current.value = .eof ↔ s.position + 1 = row.length) ∧
      s.cursor.advance? = some s.advance.cursor ∧
      s.advance.position = (if s.current.value = .eof then s.position else s.position + 1) ∧
      ((tokens.toList.Pairwise fun a b => a.span.RisesTo b.span) →
        ∀ first a b, first < s.position → row[first]? = some a → row[s.position - 1]? = some b →
          s.spanFrom first = ⟨a.span.start, b.span.stop⟩)) := by
  intro s row
  obtain ⟨hall, hsignificant⟩ := (ofTokens tokens).row_after moves
  have hindexed : s.Indexed := (indexed_ofTokens tokens).congr hall hsignificant
  have hended : s.Ended := (ended_ofTokens_any tokens).congr hsignificant
  -- Moves change the position alone, so the row is that of the start.
  have hrow : s.row = row := by
    refine Eq.trans ?_ (row_ofTokens tokens)
    unfold TokenStream.row
    rw [hsignificant]
  refine ⟨?_, ?_, fun n => ⟨peek?_cursor hindexed n, s.index?_cursor n, spanFrom?_cursor hindexed n⟩, ?_, ?_, ?_⟩
  · rw [← cursor_ofTokens]
    exact after?_cursor (indexed_ofTokens tokens) (ended_ofTokens_any tokens) moves
  · rw [← hrow, s.length_row]
    exact s.position_lt
  · intro t e c hfailed
    rw [expect?_cursor hindexed hended] at hfailed
    obtain ⟨herror, rfl⟩ := Prod.mk.inj (Option.some.inj hfailed)
    unfold move
    dsimp only
    cases hexpect : s.expect t with
    | error e => rfl
    | ok found =>
      rw [hexpect] at herror
      cases herror
  · intro more
    have hrestored := after?_cursor hindexed hended (more ++ [.restore s.cursor.position])
    have hafter : s.after (more ++ [.restore s.cursor.position]) = s := by
      unfold after
      rw [List.foldl_append]
      exact s.restore_after more
    rwa [hafter] at hrestored
  · intro hlast
    -- Only if no end stands within the tokens does the row have its one end at the end.
    obtain ⟨seen, place, hseen, hsublist, hne⟩ := exists_seen tokens
    have hends := hrow.trans hseen
    refine ⟨?_, ?_, advance?_cursor hindexed hended, ?_, ?_⟩
    · rw [← hrow]
      exact peek_exact hends
    · rw [← hrow]
      exact current_eq_eof_iff hends (hne hlast)
    · split
      · next heof =>
        rw [advance_of_atEnd (by unfold atEnd; rw [heof]; rfl)]
      · next heof => exact position_advance hended heof
    · intro hrises first a b hfirst ha hb
      rw [← hrow] at ha hb
      exact spanFrom_eq hends (hrises.sublist hsublist) hfirst ha hb

end TokenStream

end EvlCheck
