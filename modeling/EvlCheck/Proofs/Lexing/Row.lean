/-
Tokens in a text. Where nothing but blanks stands between the tokens that the parser sees, a text is a
row of their words with gaps between them, and each token has the place of its word (`Row`). A row can be
cut at any token; so the part of the text that some of its tokens stand for is the slice of their span.
-/
import EvlCheck.Proofs.Check.UntypedText
import EvlCheck.Proofs.Parsing.Extents

namespace EvlCheck

open Text

/-- A comment, on a line or between marks. -/
def Token.isComment : Token → Bool
  | .lineComment _ | .blockComment _ => true
  | _ => false

namespace Lexing

/-- The span of a text behind another. -/
def spanBehind (before w : List Char) : Span :=
  ⟨Position.start.advanceAll before, Position.start.advanceAll (before ++ w)⟩

/-- Behind the text `before` the tokens stand in a text, which begins with the first of them and ends with the
last, with gaps between them. -/
inductive Row : List Char → List SpannedToken → List Char → Prop
  | last {before w : List Char} {t : Token} (spells : Spells w t) :
      Row before [⟨t, spanBehind before w⟩] w
  | cons {before w g rest : List Char} {t : Token} {ts : List SpannedToken} (spells : Spells w t)
      (gap : ∀ c ∈ g, isGap c = true) (next : Row (before ++ w ++ g) ts rest) :
      Row before (⟨t, spanBehind before w⟩ :: ts) (w ++ (g ++ rest))

namespace Row

variable {before w : List Char} {ts us : List SpannedToken}

theorem ne_nil (h : Row before ts w) : ts ≠ [] := by
  cases h <;> exact List.cons_ne_nil _ _

theorem text_ne_nil (h : Row before ts w) : w ≠ [] := by
  cases h with
  | last spells | cons spells =>
    obtain ⟨c, cs, rfl⟩ := spells.exists_cons
    exact List.cons_ne_nil _ _

/-- A row is cut in front of a token. -/
theorem split (h : Row before (ts ++ us) w) (hts : ts ≠ []) (hus : us ≠ []) :
    ∃ v g v', w = v ++ (g ++ v') ∧ Row before ts v ∧ (∀ c ∈ g, isGap c = true) ∧
      Row (before ++ v ++ g) us v' := by
  induction ts generalizing before w with
  | nil => exact absurd rfl hts
  | cons t ts ih =>
    generalize hall : t :: ts ++ us = all at h
    cases h with
    | last => exact absurd (List.append_eq_nil_iff.1 (List.cons_eq_cons.1 hall).2).2 hus
    | @cons _ w g rest _ _ spells gap next =>
      obtain ⟨rfl, rfl⟩ := List.cons_eq_cons.1 hall
      by_cases hne : ts = []
      · subst hne
        exact ⟨w, g, rest, rfl, .last spells, gap, next⟩
      · obtain ⟨v, g', v', rfl, hv, hgap, hv'⟩ := ih next hne
        refine ⟨w ++ (g ++ v), g', v', by simp only [List.append_assoc], .cons spells gap hv, hgap, ?_⟩
        simpa only [List.append_assoc] using hv'

/-- The first token of a row of several. -/
theorem uncons {t : SpannedToken} (h : Row before (t :: ts) w) (hts : ts ≠ []) :
    ∃ v g v', w = v ++ (g ++ v') ∧ Spells v t.value ∧ (∀ c ∈ g, isGap c = true) ∧
      Row (before ++ v ++ g) ts v' := by
  cases h with
  | last => exact absurd rfl hts
  | cons spells gap next => exact ⟨_, _, _, rfl, spells, gap, next⟩

/-- The last token of a row of several. -/
theorem unconcat {t : SpannedToken} (h : Row before (ts ++ [t]) w) (hts : ts ≠ []) :
    ∃ v g v', w = v ++ (g ++ v') ∧ Row before ts v ∧ (∀ c ∈ g, isGap c = true) ∧ Spells v' t.value := by
  obtain ⟨v, g, v', hw, hv, hgap, hlast⟩ := h.split hts (List.cons_ne_nil _ _)
  refine ⟨v, g, v', hw, hv, hgap, ?_⟩
  cases hlast with
  | last spells => exact spells
  | cons _ _ next => exact absurd rfl next.ne_nil

theorem single {t : SpannedToken} (h : Row before [t] w) : Spells w t.value := by
  cases h with
  | last spells => exact spells
  | cons _ _ next => exact absurd rfl next.ne_nil

theorem offset_start (before w : List Char) : (spanBehind before w).start.offset = byteSize before := by
  unfold spanBehind
  rw [Position.offset_advanceAll]
  exact Nat.zero_add _

theorem offset_stop (before w : List Char) :
    (spanBehind before w).stop.offset = byteSize before + byteSize w := by
  unfold spanBehind
  rw [Position.offset_advanceAll, byteSize_append]
  exact Nat.zero_add _

/-- The first token begins where the row does, and the last one ends where it does. Of several tokens the
first is before the last. -/
theorem ends (h : Row before ts w) {first last : SpannedToken} (hfirst : ts.head? = some first)
    (hlast : ts.getLast? = some last) :
    first.span.start = (spanBehind before w).start ∧ last.span.stop = (spanBehind before w).stop ∧
      (first = last ∨ first.span.start.offset < last.span.start.offset ∧
        first.span.stop.offset < last.span.stop.offset) := by
  induction h generalizing first with
  | last =>
    cases hfirst
    cases hlast
    exact ⟨rfl, rfl, .inl rfl⟩
  | @cons before w g rest t ts spells gap next ih =>
    cases hfirst
    rw [List.getLast?_cons_of_ne_nil next.ne_nil] at hlast
    obtain ⟨second, hsecond⟩ := Option.isSome_iff_exists.1 (List.isSome_head?.2 next.ne_nil)
    obtain ⟨hstart, hstop, horder⟩ := ih hsecond hlast
    have hword : 0 < byteSize w := byteSize_pos (by obtain ⟨c, cs, rfl⟩ := spells.exists_cons; simp)
    have hbehind : byteSize (before ++ w ++ g) ≤ last.span.start.offset := by
      have hsecond_start : second.span.start.offset = byteSize (before ++ w ++ g) := by
        rw [hstart, offset_start]
      rcases horder with rfl | ⟨hlt, -⟩ <;> omega
    have hlong : byteSize (before ++ w ++ g) < last.span.stop.offset := by
      rw [hstop, offset_stop]
      have hrest : 0 < byteSize rest := byteSize_pos next.text_ne_nil
      omega
    refine ⟨rfl, ?_, .inr ⟨?_, ?_⟩⟩
    · rw [hstop]
      unfold spanBehind
      simp only [List.append_assoc]
    · rw [offset_start]
      rw [byteSize_append, byteSize_append] at hbehind
      omega
    · rw [offset_stop]
      rw [byteSize_append, byteSize_append] at hlong
      omega

/-- A span over the tokens is that of the text of the row. -/
theorem span_eq (h : Row before ts w) {s : Span} (hs : s.Over ts) : s = spanBehind before w := by
  obtain ⟨first, last, hfirst, hlast, rfl⟩ := hs
  obtain ⟨hstart, hstop, rfl | ⟨hlt, hlt'⟩⟩ := h.ends hfirst hlast
  · rw [Span.merge_self]
    exact congrArg₂ Span.mk hstart hstop
  · unfold Span.merge
    rw [if_pos hlt, if_neg (Nat.lt_asymm hlt'), hstart, hstop]

/-- The text that an expression stands for is the slice of its span. -/
theorem slice_eq (h : Row before ts w) {s : Span} (hs : s.Over ts) (after : List Char) :
    s.slice (before ++ w ++ after) = w := by
  rw [h.span_eq hs]
  exact Span.slice_piece before w after

end Row

/-! ## The row of a text -/

/-- Without errors and comments the visible tokens of a text are a row in it, with gaps at both ends. -/
theorem Cut.row {limited : Prop} {before cs : List Char} {tokens : List SpannedToken}
    (h : Cut (Reading limited) (Position.start.advanceAll before) cs tokens)
    (herror : ∀ t ∈ tokens, t.value.isError = false ∧ t.value.isComment = false) :
    ∃ g w g', cs = g ++ (w ++ g') ∧ (∀ c ∈ g, isGap c = true) ∧ (∀ c ∈ g', isGap c = true) ∧
      ((tokens.filter fun t => t.value.isSignificant && !t.value.isEof) = [] → w = []) ∧
      ((tokens.filter fun t => t.value.isSignificant && !t.value.isEof) ≠ [] →
        Row (before ++ g) (tokens.filter fun t => t.value.isSignificant && !t.value.isEof) w) := by
  generalize hplace : Position.start.advanceAll before = place at h
  induction h generalizing before with
  | done place => exact ⟨[], [], [], rfl, by simp, by simp, fun _ => rfl, fun hne => absurd rfl hne⟩
  | @piece place taken rest t tokens nonempty inside text ok next ih =>
    subst hplace
    rw [List.forall_mem_cons] at herror
    have hspells : Spells taken t := by
      cases ok with
      | word longest => exact longest.spells
      | fault | stopped => cases herror.1.1
    obtain ⟨g, w, g', rfl, hg, hg', hnone, hsome⟩ :=
      ih herror.2 (Position.advanceAll_append .start before taken)
    rw [List.filter_cons]
    cases hseen : t.isSignificant with
    | true =>
      have heof : t.isEof = false := by cases t <;> first | rfl | exact absurd rfl inside
      simp only [heof, Bool.not_false, Bool.and_true, if_true]
      have hspan : (⟨t, ⟨Position.start.advanceAll before, (Position.start.advanceAll before).advanceAll taken⟩⟩ :
          SpannedToken) = ⟨t, spanBehind before taken⟩ := by
        rw [spanBehind, Position.advanceAll_append]
      rw [hspan]
      by_cases hlast : (tokens.filter fun t => t.value.isSignificant && !t.value.isEof) = []
      · rw [hlast, hnone hlast]
        refine ⟨[], taken, g ++ g', rfl, by simp, fun c hc => ?_, fun h => (nomatch h), fun _ => ?_⟩
        · exact (List.mem_append.1 hc).elim (hg c) (hg' c)
        · rw [List.append_nil]
          exact .last hspells
      · refine ⟨[], taken ++ (g ++ w), g', by simp, by simp, hg', fun h => (nomatch h), fun _ => ?_⟩
        rw [List.append_nil]
        exact .cons hspells hg (hsome hlast)
    | false =>
      simp only [Bool.false_and, Bool.false_eq_true, if_false]
      have hgaps : ∀ c ∈ taken, isGap c = true := by
        cases hspells with
        | whitespace _ blank => exact fun c hc => (isGap_iff c).2 (blank c hc)
        | lineComment | blockComment => cases herror.1.2
        | _ => cases hseen
      refine ⟨taken ++ g, w, g', by simp, fun d hd => ?_, hg', hnone, fun hne => ?_⟩
      · exact (List.mem_append.1 hd).elim (hgaps d) (hg d)
      · rw [← List.append_assoc]
        exact hsome hne

end Lexing

end EvlCheck
