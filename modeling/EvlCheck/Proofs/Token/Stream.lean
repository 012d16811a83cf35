/-
The row of tokens that the parser sees. It holds the significant tokens of a source in their order
and ends with the end of the source, so that the cursor moves by one over every other token.
-/
import EvlCheck.Token.Stream
import Mathlib.Tactic.Common

namespace EvlCheck

/-! ## Tokens of a kind -/

/-- Two tokens of one kind are the same where the kind fixes the text. -/
theorem Token.eq_of_sameKind_symbol {t : Token} {s : OpSymbol} (h : t.sameKind (.symbol s) = true) :
    t = .symbol s := by
  cases t <;> simp [Token.sameKind] at h
  rw [h]

theorem Token.eq_of_sameKind_keyword {t : Token} {k : Keyword} (h : t.sameKind (.keyword k) = true) :
    t = .keyword k := by
  cases t <;> simp [Token.sameKind] at h
  rw [h]

/-! ## Rows of tokens -/

/-- The token as it stands in the list of all tokens. -/
def StreamToken.spanned (t : StreamToken) : SpannedToken := ⟨t.value, t.span⟩

namespace TokenStream

/-- The parser sees the significant tokens, in their order. -/
theorem map_spanned_significantTokens (tokens : Array SpannedToken) :
    (significantTokens tokens).toList.map StreamToken.spanned =
      tokens.toList.filter (·.value.isSignificant) := by
  have hlist : ∀ (l : List SpannedToken) (k : Nat),
      ((l.zipIdx k).filterMap fun x =>
        if x.1.value.isSignificant then some (StreamToken.mk x.2 x.1.value x.1.span) else none).map
          StreamToken.spanned = l.filter (·.value.isSignificant) := by
    intro l
    induction l with
    | nil => intro k; rfl
    | cons t l ih =>
      intro k
      by_cases ht : t.value.isSignificant = true
      · simp [ht, ih, StreamToken.spanned]
      · simp [ht, ih]
  simpa [significantTokens] using hlist tokens.toList 0

/-- A stream over tokens that end with the end of the source. -/
theorem ofTokens_eq {tokens : Array SpannedToken} {front : List SpannedToken} {place : Span}
    (h : tokens.toList = front ++ [⟨.eof, place⟩]) : ofTokens tokens = ofFront front.toArray place := by
  have hpush : tokens = front.toArray.push ⟨.eof, place⟩ := by
    apply Array.toList_inj.1
    simpa using h
  subst hpush
  unfold ofTokens
  simp

theorem map_spanned_ofFront (front : List SpannedToken) (place : Span) :
    (ofFront front.toArray place).significant.toList.map StreamToken.spanned =
      front.filter (·.value.isSignificant) ++ [⟨.eof, place⟩] := by
  simp [ofFront, map_spanned_significantTokens, StreamToken.spanned]

theorem map_spanned_ofTokens {tokens : Array SpannedToken} {front : List SpannedToken} {place : Span}
    (h : tokens.toList = front ++ [⟨.eof, place⟩]) :
    (ofTokens tokens).significant.toList.map StreamToken.spanned =
      front.filter (·.value.isSignificant) ++ [⟨.eof, place⟩] := by
  rw [ofTokens_eq h, map_spanned_ofFront]

/-- Where the end of the source is missing, it is added behind the last token. -/
theorem ofTokens_of_ne_eof {front : List SpannedToken} {last : SpannedToken} (h : last.value ≠ .eof) :
    ofTokens (front ++ [last]).toArray = ofFront (front ++ [last]).toArray (.point last.span.stop) := by
  obtain ⟨value, span⟩ := last
  unfold ofTokens
  rw [List.back?_toArray, List.getLast?_concat]
  cases value with
  | eof => exact absurd rfl h
  | _ => rfl

/-- Tokens that stand before others do not change what is seen of these, up to the place of the
end. -/
theorem exists_rows {before : List SpannedToken} (rest : List SpannedToken)
    (hbefore : ∀ t ∈ before, t.value.isSignificant = true ∧ t.value ≠ .eof) :
    ∃ (seen ends : List SpannedToken) (place place' : Span),
      rest.filter (·.value.isSignificant) = seen ++ ends ∧ (∀ t ∈ ends, t.value = .eof) ∧
      (ofTokens (before ++ rest).toArray).significant.toList.map StreamToken.spanned =
        before ++ (seen ++ [⟨.eof, place⟩]) ∧
      (ofTokens rest.toArray).significant.toList.map StreamToken.spanned =
        seen ++ [⟨.eof, place'⟩] := by
  have hseen : before.filter (·.value.isSignificant) = before :=
    List.filter_eq_self.2 fun t ht => (hbefore t ht).1
  rcases List.eq_nil_or_concat rest with rfl | ⟨front, last, rfl⟩
  · -- There are no other tokens, so the end is added behind those before, if there are any.
    obtain ⟨place, hplace⟩ : ∃ place,
        ofTokens (before ++ []).toArray = ofFront before.toArray place := by
      rw [List.append_nil]
      rcases List.eq_nil_or_concat before with rfl | ⟨front, last, rfl⟩
      · exact ⟨_, rfl⟩
      · rw [List.concat_eq_append] at hbefore ⊢
        exact ⟨_, ofTokens_of_ne_eof (hbefore last (by simp)).2⟩
    refine ⟨[], [], place, .point .start, rfl, by simp, ?_, rfl⟩
    rw [hplace, map_spanned_ofFront, hseen, List.nil_append]
  · rw [List.concat_eq_append]
    by_cases heof : last.value = .eof
    · obtain ⟨value, place⟩ := last
      cases heof
      refine ⟨front.filter (·.value.isSignificant), [⟨.eof, place⟩], place, place, ?_, ?_, ?_, ?_⟩
      · rw [List.filter_append]
        rfl
      · rintro t (_ | ⟨_, ht⟩)
        · rfl
        · cases ht
      · rw [map_spanned_ofTokens (List.append_assoc before front _).symm, List.filter_append, hseen,
          List.append_assoc]
      · exact map_spanned_ofTokens rfl
    · refine ⟨(front ++ [last]).filter (·.value.isSignificant), [], .point last.span.stop,
        .point last.span.stop, (List.append_nil _).symm, by simp, ?_, ?_⟩
      · rw [← List.append_assoc, ofTokens_of_ne_eof heof, map_spanned_ofFront, List.append_assoc,
          List.filter_append, hseen, List.append_assoc]
      · rw [ofTokens_of_ne_eof heof, map_spanned_ofFront]

/-- The last token is the end of the source. -/
def Ended (s : TokenStream) : Prop :=
  ∃ t, s.significant.back? = some t ∧ t.value = .eof

theorem Ended.congr {s s' : TokenStream} (h : s.Ended) (hrow : s'.significant = s.significant) :
    s'.Ended := by
  obtain ⟨t, ht, heof⟩ := h
  exact ⟨t, by rw [hrow]; exact ht, heof⟩

theorem getElem?_position (s : TokenStream) :
    s.significant[s.position]? = some s.current := by
  have := s.position_lt
  simp [current]

/-- Away from the end of the source the cursor moves by one. -/
theorem position_advance {s : TokenStream} (he : s.Ended)
    (hc : s.current.value ≠ .eof) : s.advance.position = s.position + 1 := by
  obtain ⟨t, hback, ht⟩ := he
  have hp := s.position_lt
  have hlt : s.position + 1 < s.significant.size := by
    by_contra hlt
    have hlast : s.position = s.significant.size - 1 := by omega
    rw [Array.back?_eq_getElem?, ← hlast, s.getElem?_position] at hback
    cases hback
    exact hc ht
  have hend : s.atEnd = false := by
    unfold atEnd
    cases hv : s.current.value with
    | eof => exact absurd hv hc
    | _ => rfl
  simp [advance, hend, hlt]

/-- The token behind the cursor is the one that the next place of the cursor is at. -/
theorem peek_one {s s' : TokenStream} (hrow : s'.significant = s.significant)
    (hpos : s'.position = s.position + 1) : s.peek 1 = s'.current := by
  have hlt := s'.position_lt
  have hget := s'.getElem?_position
  rw [hrow, hpos] at hlt hget
  have hmin : min (s.position + 1) (s.size - 1) = s.position + 1 := by unfold size; omega
  rw [Array.getElem?_eq_getElem hlt, Option.some.injEq] at hget
  rw [← hget]
  unfold peek clamped
  simp only [hmin]

@[simp] theorem significant_advance (s : TokenStream) :
    s.advance.significant = s.significant := by
  unfold advance
  split
  · rfl
  · split <;> rfl

@[simp] theorem all_advance (s : TokenStream) : s.advance.all = s.all := by
  unfold advance
  split
  · rfl
  · split <;> rfl

/-- A row whose last token is the end of the source. -/
theorem ended_of_row {s : TokenStream} {front : List SpannedToken} {place : Span}
    (h : s.significant.toList.map StreamToken.spanned = front ++ [⟨.eof, place⟩]) : s.Ended := by
  have hlast := congrArg List.getLast? h
  rw [List.getLast?_map, List.getLast?_concat, Array.getLast?_toList, Option.map_eq_some_iff] at hlast
  obtain ⟨t, ht, hspanned⟩ := hlast
  exact ⟨t, ht, congrArg Spanned.value hspanned⟩

theorem ended_ofFront (front : Array SpannedToken) (place : Span) : (ofFront front place).Ended :=
  ⟨⟨front.size, .eof, place⟩, by simp [ofFront], rfl⟩

theorem ended_ofTokens {tokens : Array SpannedToken} {front : List SpannedToken} {place : Span}
    (h : tokens.toList = front ++ [⟨.eof, place⟩]) : (ofTokens tokens).Ended := by
  rw [ofTokens_eq h]
  exact ended_ofFront _ _

/-- So it is where the end of the source had to be added. -/
theorem ended_ofTokens_any (tokens : Array SpannedToken) : (ofTokens tokens).Ended := by
  unfold ofTokens
  split
  · exact ended_ofFront _ _
  · exact ended_ofFront _ _
  · exact ended_ofFront _ _

theorem size_ofTokens (front : List SpannedToken) (place : Span) :
    (ofTokens (front ++ [⟨.eof, place⟩] : List SpannedToken).toArray).size =
      (front.filter (·.value.isSignificant)).length + 1 := by
  have hrow := congrArg List.length
    (map_spanned_ofTokens (show (front ++ [⟨.eof, place⟩] : List SpannedToken).toArray.toList =
      front ++ [⟨.eof, place⟩] from rfl))
  rw [List.length_map, List.length_append] at hrow
  exact hrow

theorem position_ofTokens (tokens : Array SpannedToken) : (ofTokens tokens).position = 0 := by
  unfold ofTokens
  split <;> rfl

/-! ## Indices -/

/-- Each token that the parser sees is found among all tokens by its index. -/
def Indexed (s : TokenStream) : Prop :=
  ∀ t ∈ s.significant, s.all[t.index]? = some t.spanned

theorem Indexed.congr {s s' : TokenStream} (h : s.Indexed) (hall : s'.all = s.all)
    (hrow : s'.significant = s.significant) : s'.Indexed := by
  unfold Indexed
  rw [hall, hrow]
  exact h

theorem indexed_ofFront (front : Array SpannedToken) (place : Span) :
    (ofFront front place).Indexed := by
  intro t ht
  rcases Array.mem_push.1 ht with ht | rfl
  · obtain ⟨⟨u, i⟩, hmem, hsome⟩ := Array.mem_filterMap.1 ht
    have hget : front[i]? = some u := Array.mk_mem_zipIdx_iff_getElem?.1 hmem
    dsimp only at hsome
    split at hsome
    · cases hsome
      have hlt : i < front.size := (Array.getElem?_eq_some_iff.1 hget).1
      show (front.push _)[i]? = some u
      rw [Array.getElem?_push_lt hlt, ← hget, Array.getElem?_eq_getElem hlt]
    · cases hsome
  · exact Array.getElem?_push_size

theorem indexed_ofTokens (tokens : Array SpannedToken) : (ofTokens tokens).Indexed := by
  unfold ofTokens
  split
  · exact indexed_ofFront _ _
  · exact indexed_ofFront _ _
  · exact indexed_ofFront _ _

/-- The token under the cursor is found by its index. -/
theorem Indexed.current {s : TokenStream} (h : s.Indexed) :
    s.all[s.current.index]? = some s.current.spanned :=
  h _ (Array.mem_of_getElem? s.getElem?_position)

end TokenStream

end EvlCheck
