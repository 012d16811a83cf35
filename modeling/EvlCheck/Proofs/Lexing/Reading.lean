/-
A text has one reading. Where no limit is exceeded the lexer leaves no choice: the first piece of a
text, the token that it makes, and so all tokens follow from the text (`ReadAs.unique`).

So the tokens of a text that is put together are found by putting readings together. A word is read
as itself when the character behind it goes on with no word that begins with it (`Stops`).
-/
import EvlCheck.Proofs.Lexing.Tiling

namespace EvlCheck.Lexing

open EvlCheck.Text

/-! ## One reading -/

/-- The text is cut into pieces that are read as the tokens, where no limit stops the lexing. -/
inductive ReadAs : List Char → List Token → Prop
  | nil : ReadAs [] []
  | piece {taken rest : List Char} {t : Token} {ts : List Token} (nonempty : taken ≠ [])
      (reading : Reading False (taken ++ rest) taken t) (next : ReadAs rest ts) :
      ReadAs (taken ++ rest) (t :: ts)

theorem Faulty.unique {cs v w : List Char} (hv : Faulty cs v) (hw : Faulty cs w) : v = w := by
  cases hv with
  | unclosedString =>
    cases hw with
    | unclosedString => rfl
    | stray quote => exact absurd rfl quote
  | @unclosedComment rest =>
    cases hw with
    | unclosedComment => rfl
    -- A slash is a word by itself.
    | stray quote hnone => exact absurd (Spells.symbol .divide) (hnone _ _ ⟨'*' :: rest, rfl⟩)
  | stray quote hnone =>
    cases hw with
    | unclosedString => exact absurd rfl quote
    | @unclosedComment rest => exact absurd (Spells.symbol .divide) (hnone _ _ ⟨'*' :: rest, rfl⟩)
    | stray => rfl

theorem Reading.unique {cs v w : List Char} {t u : Token} (hv : Reading False cs v t)
    (hw : Reading False cs w u) : v = w ∧ t = u := by
  cases hv with
  | word longest sound =>
    cases hw with
    | word longest' =>
      rcases longest.longest _ _ longest'.at_head longest'.spells with hlt | ⟨rfl, rfl⟩
      · rcases longest'.longest _ _ longest.at_head longest.spells with hlt' | ⟨rfl, rfl⟩
        · omega
        · exact ⟨rfl, rfl⟩
      · exact ⟨rfl, rfl⟩
    | fault faulty => exact absurd faulty (sound _)
    | stopped breach => exact breach.elim
  | fault faulty =>
    cases hw with
    | word longest sound => exact absurd faulty (sound _)
    | fault faulty' =>
      have heq := faulty.unique faulty'
      exact ⟨heq, by rw [heq]⟩
    | stopped breach => exact breach.elim
  | stopped breach => exact breach.elim

/-- No text is read as two different lists of tokens. -/
theorem ReadAs.unique {cs : List Char} {ts us : List Token} (h : ReadAs cs ts) (h' : ReadAs cs us) :
    ts = us := by
  induction h generalizing us with
  | nil =>
    generalize hcs : ([] : List Char) = cs at h'
    cases h' with
    | nil => rfl
    | piece nonempty => simp [nonempty] at hcs
  | @piece taken rest t ts nonempty reading next ih =>
    generalize hcs : taken ++ rest = cs at h'
    cases h' with
    | nil => simp [nonempty] at hcs
    | @piece taken' rest' t' us nonempty' reading' next' =>
      rw [← hcs] at reading'
      obtain ⟨rfl, rfl⟩ := reading.unique reading'
      rw [ih (List.append_cancel_left hcs ▸ next')]

/-- A text that is cut without a limit being exceeded is read as the tokens. -/
theorem Cut.readAs {limited : Prop} (hlimit : ¬ limited) {place : Position} {cs : List Char}
    {tokens : List SpannedToken} (h : Cut (Reading limited) place cs tokens) :
    ∃ ts, ReadAs cs ts ∧ tokens.map (·.value) = ts ++ [.eof] := by
  induction h with
  | done place => exact ⟨[], .nil, rfl⟩
  | @piece place taken rest t tokens nonempty inside text ok next ih =>
    obtain ⟨ts, hts, hvalues⟩ := ih
    refine ⟨t :: ts, .piece nonempty (ok.unlimited hlimit) hts, ?_⟩
    rw [List.map_cons, hvalues]
    rfl

theorem readAs_tokenize [Build] {p : LexicalPreferences} {source : String}
    (h : ¬ (tokenize p source).Limited) :
    ∃ ts, ReadAs source.toList ts ∧ (tokenize p source).tokens.toList.map (·.value) = ts ++ [.eof] := by
  have hsize : source.utf8ByteSize ≤ Limit.sourceBytes := by
    by_contra hlt
    exact h (limited_of_large (Nat.lt_of_not_le hlt))
  exact (cut_tokenize hsize).readAs h

/-! ## Where a word stops -/

/-- No word that begins with a word of the token's terminal goes on with the character. -/
def Stops (d : Char) : Token → Prop
  | .integer _ | .real _ => d.isDigit = false ∧ d ≠ '.'
  | .keyword _ | .identifier _ => isNamePart d = false
  | .whitespace _ => isGap d = false
  | .symbol _ => d ≠ '=' ∧ d ≠ '/' ∧ d ≠ '*'
  | .string _ => True
  | _ => False

section

variable {w more : List Char} {d : Char} {t u : Token}

/-- A number goes on with digits, but for its point. -/
theorem isDigit_of_spells {c : Char} {cs : List Char} (hc : c.isDigit = true) (hd : d ≠ '.')
    (h : Spells (c :: cs ++ d :: more) u) : d.isDigit = true := by
  have hmem : d ∈ c :: cs ++ d :: more := by simp
  rcases h.of_digit rfl hc with ⟨-, hall⟩ | ⟨-, whole, part, hv, -, hwhole, hpart⟩
  · exact hall d hmem
  · rw [hv, List.mem_append, List.mem_cons] at hmem
    rcases hmem with hmem | hmem | hmem
    · exact hwhole d hmem
    · exact absurd hmem hd
    · exact hpart d hmem

theorem not_spells_number (hne : w ≠ []) (hfirst : ∀ c ∈ w.head?, c.isDigit = true)
    (hd : d.isDigit = false ∧ d ≠ '.') : ¬ Spells (w ++ d :: more) u := by
  intro h
  obtain ⟨c, cs, rfl⟩ := List.exists_cons_of_ne_nil hne
  have hdigit := isDigit_of_spells (hfirst c rfl) hd.2 h
  rw [hd.1] at hdigit
  cases hdigit

theorem not_spells_word {c : Char} {cs : List Char} (hc : isNameStart c = true)
    (hd : isNamePart d = false) : ¬ Spells (c :: cs ++ d :: more) u := by
  intro h
  obtain ⟨-, hall⟩ := h.of_letter rfl hc
  have := hall d (by simp)
  rw [hd] at this
  cases this

/-- A string has no quote inside that closes it earlier. -/
theorem not_spells_string {body : List Char} (hbody : StringBody body) :
    ¬ Spells ('"' :: (body ++ ['"']) ++ d :: more) u := by
  intro h
  obtain ⟨-, body', hv, hbody'⟩ := h.of_quote rfl
  have htext : body ++ '"' :: d :: more = body' ++ '"' :: [] := by
    rw [← hv]
    simp
  have hclose := closeString_body hbody [] (d :: more)
  rw [htext, closeString_body hbody' [] []] at hclose
  simp at hclose

/-- A symbol of two characters ends in an equals sign. -/
theorem symbol_second {s : OpSymbol} {c : Char} (h : s.chars = [c, d]) : d = '=' := by
  cases s <;> simp [OpSymbol.chars] at h <;> exact h.2.symm

theorem not_spells_symbol (s : OpSymbol) (hd : d ≠ '=' ∧ d ≠ '/' ∧ d ≠ '*') :
    ¬ Spells (s.chars ++ d :: more) u := by
  intro h
  obtain ⟨c, cs, hs, hkind⟩ := headKind_symbol_chars s
  rw [hs] at h
  have hslash : ∀ {e : Char} {body : List Char}, c :: cs ++ d :: more = '/' :: e :: body →
      s.chars = '/' :: e :: (cs.tail) ∨ d = e := by
    intro e body hv
    cases cs with
    | nil =>
      cases hv
      exact .inr rfl
    | cons c' cs =>
      cases hv
      exact .inl hs
  rcases h.of_other rfl hkind with ⟨s', -, hs'⟩ | ⟨-, body, hv, -⟩ | ⟨-, body, hv, -⟩
  · have hlength := symbol_chars_length_le s'
    rw [hs'] at hlength
    cases cs with
    | nil =>
      cases more with
      | nil => exact hd.1 (symbol_second hs')
      | cons e more => simp at hlength
    | cons c' cs => simp at hlength
  · rcases hslash hv with hcomment | rfl
    · exact (symbol_chars_ne_comment s _).1 hcomment
    · exact hd.2.1 rfl
  · rcases hslash hv with hcomment | rfl
    · exact (symbol_chars_ne_comment s _).2 hcomment
    · exact hd.2.2 rfl

/-- A word is not the beginning of a longer one that goes on with a character at which it stops. -/
theorem not_spells_of_stops (h : Spells w t) (hd : Stops d t) : ¬ Spells (w ++ d :: more) u := by
  cases h with
  | whitespace nonempty blank =>
    intro h
    obtain ⟨c, cs, rfl⟩ := List.exists_cons_of_ne_nil nonempty
    obtain ⟨-, hall⟩ := h.of_gap rfl ((isGap_iff c).2 (blank c (by simp)))
    have hgap := hall d (by simp)
    rw [show isGap d = false from hd] at hgap
    cases hgap
  | lineComment => exact hd.elim
  | blockComment => exact hd.elim
  | integer nonempty digits =>
    exact not_spells_number nonempty (fun c hc => digits c (List.mem_of_head? hc)) hd
  | @real whole part whole_ne part_ne whole_digits part_digits =>
    refine not_spells_number (by simp) (fun c hc => ?_) hd
    rw [List.head?_append_of_ne_nil _ whole_ne] at hc
    exact whole_digits c (List.mem_of_head? hc)
  | string inside => exact not_spells_string inside
  | symbol s => exact not_spells_symbol s hd
  | keyword k =>
    obtain ⟨c, cs, hk, hstart, -⟩ := keyword_text_shape k
    rw [hk]
    exact not_spells_word hstart hd
  | identifier start =>
    exact not_spells_word (by simpa [isNameStart] using start) hd

end

/-- A word is read as itself where no other word begins with it and goes on with what follows. -/
theorem reading_of_unextended {w rest : List Char} {t : Token} (h : Spells w t)
    (hends : ∀ d ∈ rest.head?, ∀ more u, ¬ Spells (w ++ d :: more) u) : Reading False (w ++ rest) w t := by
  have hhead : w <+: w ++ rest := List.prefix_append w rest
  refine .word (.of_le hhead h fun v u hv hu => ?_) (not_faulty hhead h ?_)
  · by_contra hlt
    obtain ⟨more, rfl⟩ := List.prefix_of_prefix_length_le hhead hv (by omega)
    rw [List.prefix_append_right_inj] at hv
    cases more with
    | nil => simp at hlt
    | cons d more =>
      obtain ⟨after, rfl⟩ := hv
      exact hends d rfl more u hu
  · -- A slash in front of a star goes on to a comment, so the word is a comment, which is closed.
    intro after hcomment
    obtain ⟨c, cs, rfl⟩ := h.exists_cons
    obtain ⟨rfl, hbehind⟩ := List.cons_eq_cons.1 hcomment
    have hopens : Spells ['/', '*', '*', '/'] (.blockComment _) := @Spells.blockComment [] (by decide)
    rcases h.of_other rfl rfl with ⟨s, rfl, hs⟩ | ⟨-, body, hv, -⟩ | ⟨-, body, hv, -⟩
    · cases cs with
      | nil =>
        cases hbehind
        exact absurd hopens (hends '*' rfl ['*', '/'] _)
      | cons c cs =>
        cases hbehind
        exact absurd hs (symbol_chars_ne_comment s cs).2
    · cases hv
      cases hbehind
    · cases hv
      cases hbehind
      exact ⟨body, rest, by simp⟩

/-- A word is read as itself where it stops. -/
theorem reading_of_stops {w rest : List Char} {t : Token} (h : Spells w t)
    (hstop : ∀ d ∈ rest.head?, Stops d t) : Reading False (w ++ rest) w t :=
  reading_of_unextended h fun d hd _ _ => not_spells_of_stops h (hstop d hd)

namespace ReadAs

variable {rest : List Char} {ts : List Token}

theorem word {w : List Char} {t : Token} (hs : Spells w t) (hstop : ∀ d ∈ rest.head?, Stops d t)
    (h : ReadAs rest ts) : ReadAs (w ++ rest) (t :: ts) := by
  obtain ⟨c, cs, hw⟩ := hs.exists_cons
  exact .piece (by simp [hw]) (reading_of_stops hs hstop) h

theorem blank (hstop : ∀ d ∈ rest.head?, isGap d = false) (h : ReadAs rest ts) :
    ReadAs (' ' :: rest) (.whitespace " " :: ts) := by
  have hs : Spells [' '] (.whitespace " ") := .whitespace (by simp) (by simp)
  exact .word hs hstop h

/-- A square bracket belongs to no terminal. -/
theorem bracket {c : Char} (hc : c = '[' ∨ c = ']') (h : ReadAs rest ts) :
    ReadAs (c :: rest) (.error c.toString :: ts) := by
  have hkind : headKind c = .other ∧ c ≠ '"' ∧ c ≠ '/' ∧ ∀ s : OpSymbol, s.chars.head? ≠ some c := by
    rcases hc with rfl | rfl
    · exact ⟨rfl, by decide, by decide, fun s => by cases s <;> decide⟩
    · exact ⟨rfl, by decide, by decide, fun s => by cases s <;> decide⟩
  have hnone : ∀ w t, w <+: c :: rest → ¬ Spells w t := by
    intro w t hw hs
    obtain ⟨d, ds, rfl⟩ := hs.exists_cons
    obtain ⟨rfl, -⟩ := List.cons_prefix_cons.1 hw
    rcases hs.of_other rfl hkind.1 with ⟨s, -, hv⟩ | ⟨-, body, hv, -⟩ | ⟨-, body, hv, -⟩
    · exact hkind.2.2.2 s (by rw [hv]; rfl)
    · exact hkind.2.2.1 (List.cons_eq_cons.1 hv).1
    · exact hkind.2.2.1 (List.cons_eq_cons.1 hv).1
  have hreading : Reading False ([c] ++ rest) [c] (.error c.toString) :=
    .fault (.stray hkind.2.1 hnone)
  exact .piece (by simp) hreading h

end ReadAs

end EvlCheck.Lexing
