/-
Sources that are lexed without an error token. Such a source exceeds no limit, so its tokens are the one
cut of its text (`Cut.unlimited`). The limits hold of the tokens as well: the text of each of them can be
written, and there are no more of them than permitted (`tokenize_permitted`).
-/
import EvlCheck.Proofs.Lexing.Spaced

namespace EvlCheck

open Text

/-- The limits of the lexer permit the text of a token. -/
def Token.Permitted [Build] : Token → Prop
  | .identifier name => name.length ≤ Limit.identifierChars
  | .string text => text.utf8ByteSize ≤ Limit.stringBytes
  | _ => True

namespace Lexing

/-! ## Limits of one token -/

theorem isError_of_isSignificant {t : Token} (h : t.isSignificant = true) : t.isError = false := by
  cases t <;> first | rfl | cases h

theorem permitted_commentOutcome [Build] (make : String → Token) (hmake : ∀ s, (make s).Permitted)
    {taken : List Char} {t : Token} (h : commentOutcome make taken = .ok t) : t.Permitted := by
  unfold commentOutcome at h
  dsimp only at h
  split at h
  · cases h
  · cases h
    exact hmake _

theorem permitted_wordOutcome [Build] {taken : List Char} {t : Token}
    (h : wordOutcome taken = .ok t) :
    t.Permitted := by
  unfold wordOutcome at h
  dsimp only at h
  split at h
  · cases h
  · cases h
    unfold Token.ofWord
    split
    · trivial
    · simp only [Token.Permitted, String.length_ofList]
      omega

/-- A lexeme that is a token is within the limits. -/
theorem permitted_of_scan [Build] {c : Char} {cs : List Char} {t : Token}
    (h : (scan c cs).outcome = .ok t) : t.Permitted := by
  unfold scan at h
  split at h
  · cases h
    trivial
  split at h
  · exact permitted_commentOutcome .lineComment (fun _ => trivial) h
  split at h
  · unfold scanBlockComment at h
    split at h
    · exact permitted_commentOutcome .blockComment (fun _ => trivial) h
    · cases h
  split at h
  · unfold scanNumber at h
    dsimp only at h
    split at h
    · split at h <;> cases h <;> trivial
    · cases h
      trivial
  split at h
  · unfold scanString at h
    split at h
    · dsimp only at h
      split at h
      · cases h
      · next hsize =>
        cases h
        rw [Token.Permitted, utf8ByteSize_ofList]
        exact Nat.le_of_not_lt hsize
    · cases h
  split at h
  · exact permitted_wordOutcome h
  · have hsingle : ∀ {rest : List Char}, (scanSingle c rest).outcome = .ok t → t.Permitted := by
      intro rest hsingle
      unfold scanSingle at hsingle
      split at hsingle <;> cases hsingle
      trivial
    unfold scanSymbol at h
    split at h
    · split at h
      · cases h
        trivial
      · exact hsingle h
    · exact hsingle h

/-- A word of a terminal within the limits can be written. -/
theorem Spells.writable [Build] {w : List Char} {t : Token} (h : Spells w t)
    (hseen : t.isSignificant = true) (hpermitted : t.Permitted) : t.Writable := by
  have htext : t.text.toList = w := by rw [h.text_eq, String.toList_ofList]
  rw [← htext] at h
  cases t with
  | keyword | symbol => trivial
  | integer | real => exact h
  | identifier | string => exact ⟨h, hpermitted⟩
  | eof => exact absurd rfl h.ne_eof
  | _ => cases hseen

/-- Lexing without a fault finds tokens that can be written, no more of them than permitted. -/
theorem tokenizeFrom_permitted [Build] (p : LexicalPreferences) (cs : List Char) (place : Position)
    (counted : Nat) (tokens : Array SpannedToken) (reports : Array LexReport) :
    ∃ more, (tokenizeFrom p cs place counted tokens reports).tokens.toList = tokens.toList ++ more ∧
      (AllGood more → counted ≤ Limit.tokens →
        (∀ t ∈ more, seen t = true → t.value.Writable) ∧
          counted + (more.filter seen).length ≤ Limit.tokens) := by
  fun_induction tokenizeFrom p cs place counted tokens reports with
  | case1 place counted tokens reports =>
    refine ⟨[⟨.eof, .point place⟩], by simp, fun _ hcounted => ⟨?_, hcounted⟩⟩
    simp [seen, Token.isEof]
  | case2 place counted tokens reports c rest h =>
    refine ⟨_, by simp [breach]; rfl, fun hgood => ?_⟩
    exact absurd (hgood _ List.mem_cons_self) (by simp [Token.isError])
  | case3 place counted tokens reports c rest h lexeme stop t hok ih =>
    obtain ⟨more, hmore, hkept⟩ := ih
    refine ⟨⟨t, ⟨place, stop⟩⟩ :: more, hmore.trans (by simp), fun hgood hcounted => ?_⟩
    obtain ⟨-, hgood⟩ := allGood_cons.1 hgood
    have hreads := reads_scan c rest
    rw [Reads, hok] at hreads
    cases hseen : seen ⟨t, ⟨place, stop⟩⟩ with
    | true =>
      have hsignificant : t.isSignificant = true := by
        unfold seen at hseen
        exact (Bool.and_eq_true_iff.1 hseen).1
      have ht : t.Writable := hreads.1.spells.writable hsignificant (permitted_of_scan hok)
      rw [dif_pos (ht.counts p)] at hkept
      obtain ⟨hwritable, hlength⟩ := hkept hgood (by omega)
      rw [List.filter_cons_of_pos hseen, List.length_cons]
      exact ⟨List.forall_mem_cons.2 ⟨fun _ => ht, hwritable⟩, by omega⟩
    | false =>
      obtain ⟨hwritable, hlength⟩ := hkept hgood (by split <;> omega)
      rw [List.filter_cons_of_neg (by simp [hseen])]
      refine ⟨List.forall_mem_cons.2 ⟨fun htrue => ?_, hwritable⟩, ?_⟩
      · rw [hseen] at htrue
        cases htrue
      · split at hlength <;> omega
  | case4 place counted tokens reports c rest h lexeme fault hfault hb =>
    refine ⟨_, by simp [breach]; rfl, fun hgood => ?_⟩
    exact absurd (hgood _ List.mem_cons_self) (by simp [Token.isError])
  | case5 place counted tokens reports c rest h lexeme stop fault hfault hb text ih =>
    obtain ⟨more, hmore, -⟩ := ih
    refine ⟨⟨.error text, ⟨place, stop⟩⟩ :: more, by rw [hmore]; simp, fun hgood => ?_⟩
    exact absurd (hgood _ List.mem_cons_self) (by simp [Token.isError])

/-! ## Limits of a source -/

/-- A text that is too large to be lexed is an error. -/
theorem utf8ByteSize_le_of_errorless [Build] {p : LexicalPreferences} {source : String}
    (h : ∀ t ∈ (tokenize p source).tokens, t.value.isError = false) :
    source.utf8ByteSize ≤ Limit.sourceBytes := by
  by_contra hlt
  have hlarge := tokenize_of_large (p := p) (Nat.lt_of_not_le hlt)
  have herror := h ⟨.error "", ⟨.start, Position.start.advanceAll source.toList⟩⟩ <| by
    rw [← Array.mem_toList_iff, hlarge]
    exact .head _
  cases herror

/-- A cut without errors is the same cut where no limit stops the lexing. -/
theorem Cut.unlimited {limited : Prop} {place : Position} {cs : List Char}
    {tokens : List SpannedToken} (h : Cut (Reading limited) place cs tokens) (hgood : AllGood tokens) :
    Cut (Reading False) place cs tokens := by
  induction h with
  | done place => exact .done place
  | @piece place taken rest t tokens nonempty inside text ok next ih =>
    obtain ⟨ht, hgood⟩ := allGood_cons.1 hgood
    refine .piece nonempty inside text ?_ (ih hgood)
    cases ok with
    | word longest sound => exact .word longest sound
    | fault faulty => exact .fault faulty
    | stopped breach => cases ht

/-- The parser sees the tokens that are seen, and the end. -/
theorem Cut.significant {Ok : PieceProp} {place : Position} {cs : List Char} {tokens : List SpannedToken}
    (h : Cut Ok place cs tokens) : (tokens.filter (·.value.isSignificant)).map (·.value) =
      (tokens.filter seen).map (·.value) ++ [.eof] := by
  induction h with
  | done place => rfl
  | @piece place taken rest t tokens nonempty inside text ok next ih =>
    have hseen : seen ⟨t, ⟨place, place.advanceAll taken⟩⟩ = t.isSignificant := by
      unfold seen
      cases t <;> first | exact Bool.and_true _ | exact absurd rfl inside
    rw [List.filter_cons, List.filter_cons, hseen]
    split
    · rw [List.map_cons, List.map_cons, ih, List.cons_append]
    · exact ih

/-- A text that is lexed without an error token is read as the tokens. -/
theorem readAs_of_errorless [Build] {p : LexicalPreferences} {source : String}
    (h : ∀ t ∈ (tokenize p source).tokens, t.value.isError = false) :
    ∃ ts, ReadAs source.toList ts ∧ (tokenize p source).tokens.toList.map (·.value) = ts ++ [.eof] :=
  ((cut_tokenize (utf8ByteSize_le_of_errorless h)).unlimited
    fun t ht => h t (Array.mem_toList_iff.1 ht)).readAs not_false

theorem tokenize_permitted [Build] {p : LexicalPreferences} {source : String}
    (h : ∀ t ∈ (tokenize p source).tokens, t.value.isError = false) :
    (∀ t ∈ (tokenize p source).tokens.toList, seen t = true → t.value.Writable) ∧
      ((tokenize p source).tokens.toList.filter seen).length ≤ Limit.tokens := by
  have hrun := tokenize_of_le (p := p) (utf8ByteSize_le_of_errorless h)
  obtain ⟨more, hmore, hkept⟩ := tokenizeFrom_permitted p source.toList .start 0 #[] #[]
  rw [← hrun] at hmore
  rw [show (tokenize p source).tokens.toList = more from hmore]
  have hgood : AllGood more := fun t ht => h t (by rw [← Array.mem_toList_iff, hmore]; exact ht)
  obtain ⟨hwritable, hlength⟩ := hkept hgood (Nat.zero_le _)
  exact ⟨hwritable, by omega⟩

/-- The text of a token is part of the source. -/
theorem infix_of_mem_tokenize [Build] {p : LexicalPreferences} {source : String}
    (h : source.utf8ByteSize ≤ Limit.sourceBytes) {t : SpannedToken}
    (ht : t ∈ (tokenize p source).tokens.toList) (hne : t.value ≠ .eof) :
    t.value.text.toList <:+: source.toList := by
  obtain ⟨before, taken, after, hsource, -, htext, -, -⟩ := (cut_tokenize h).exists_piece ht hne
  rw [htext, String.toList_ofList, hsource]
  exact ⟨before, after, rfl⟩

end Lexing

end EvlCheck
