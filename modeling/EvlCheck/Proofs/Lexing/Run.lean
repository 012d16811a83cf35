/-
Texts without comments, as words between blanks. Whether a word ends where it does is told by the character
behind it alone (`Parts`), so a run of words depends on what follows it by no more than a first character.
Runs are put together (`Run.append`), taken apart where a character stands that is always a token of its own
(`Run.split`) or where a token stands (`Run.at_token`), and no text is two runs (`Run.unique`).
-/
import EvlCheck.Proofs.Check.NormalForm
import EvlCheck.Proofs.Lexing.Written
import Mathlib.Data.Bool.AllAny

namespace EvlCheck.Lexing

open EvlCheck.Text

/-! ## Where words part -/

/-- No word begins with the text and goes on with the character. -/
def Parts (w : List Char) (d : Char) : Prop := ∀ more u, ¬ Spells (w ++ d :: more) u

section

variable {w : List Char} {d : Char} {t : Token}

theorem parts_of_stops (h : Spells w t) (hd : Stops d t) : Parts w d := fun _ _ => not_spells_of_stops h hd

/-- A word that parts from what follows is read. -/
theorem reading_of_parts {rest : List Char} (h : Spells w t) (hparts : ∀ d ∈ rest.head?, Parts w d) :
    Reading False (w ++ rest) w t :=
  reading_of_unextended h hparts

/-- No word is longer by the next character than the one that is read. -/
theorem Reading.not_spells_concat {rest : List Char} (h : Reading False (w ++ d :: rest) w t)
    (hgood : t.isError = false) (u : Token) : ¬ Spells (w ++ [d]) u := by
  intro hu
  cases h with
  | fault => cases hgood
  | stopped breach => exact breach
  | word longest =>
    rcases longest.longest (w ++ [d]) u ⟨rest, by simp⟩ hu with hlt | ⟨heq, -⟩
    · rw [List.length_append] at hlt
      omega
    · simpa using congrArg List.length heq

theorem parts_integer (hne : w ≠ []) (hdigits : ∀ c ∈ w, c.isDigit = true) (hd : d ≠ '.')
    (hshort : ∀ u, ¬ Spells (w ++ [d]) u) : Parts w d := by
  intro more u hu
  obtain ⟨c, cs, rfl⟩ := List.exists_cons_of_ne_nil hne
  have hlast := isDigit_of_spells (hdigits c List.mem_cons_self) hd hu
  exact hshort _ (.integer (by simp) (List.forall_mem_append.2 ⟨hdigits, by simpa using hlast⟩))

theorem parts_real {whole part : List Char} (hne : whole ≠ []) (hwhole : ∀ c ∈ whole, c.isDigit = true)
    (hpart : ∀ c ∈ part, c.isDigit = true) (hd : d ≠ '.')
    (hshort : ∀ u, ¬ Spells (whole ++ '.' :: part ++ [d]) u) : Parts (whole ++ '.' :: part) d := by
  intro more u hu
  obtain ⟨c, cs, rfl⟩ := List.exists_cons_of_ne_nil hne
  have hlast := isDigit_of_spells (hwhole c List.mem_cons_self) hd hu
  have hlonger : Spells ((c :: cs) ++ '.' :: (part ++ [d])) _ := .real hne (by simp) hwhole
    (List.forall_mem_append.2 ⟨hpart, by simpa using hlast⟩)
  exact hshort _ (by simpa using hlonger)

/-- A symbol goes on with one character at most, unless it opens a comment. -/
theorem parts_symbol {s : OpSymbol} (hshort : ∀ u, ¬ Spells (s.chars ++ [d]) u)
    (hends : s.chars = ['/'] → d ≠ '/' ∧ d ≠ '*') : Parts s.chars d := by
  obtain ⟨c, cs, hs, hkind⟩ := headKind_symbol_chars s
  have hsecond : ∀ {e : Char} {more body : List Char}, s.chars ++ d :: more = '/' :: e :: body →
      e = '/' ∨ e = '*' → s.chars = ['/'] ∧ d = e := by
    intro e more body hv he
    rw [hs] at hv
    cases cs with
    | nil =>
      cases hv
      exact ⟨hs, rfl⟩
    | cons c' cs =>
      cases hv
      rcases he with rfl | rfl
      · exact absurd hs (symbol_chars_ne_comment s cs).1
      · exact absurd hs (symbol_chars_ne_comment s cs).2
  intro more u hu
  rw [hs] at hu
  rcases hu.of_other rfl hkind with ⟨s', -, hs'⟩ | ⟨-, body, hv, -⟩ | ⟨-, body, hv, -⟩
  · have hlength := symbol_chars_length_le s'
    rw [hs', List.length_append, List.length_cons, List.length_cons] at hlength
    obtain rfl : more = [] := List.length_eq_zero_iff.1 (by omega)
    rw [← hs] at hu
    exact hshort u hu
  · obtain ⟨hslash, rfl⟩ := hsecond (by rw [hs]; exact hv) (.inl rfl)
    exact (hends hslash).1 rfl
  · obtain ⟨hslash, rfl⟩ := hsecond (by rw [hs]; exact hv) (.inr rfl)
    exact (hends hslash).2 rfl

/-- A word that is read parts from the character behind it; a point might go on with a number. -/
theorem Reading.parts {rest : List Char} (h : Reading False (w ++ d :: rest) w t)
    (ht : t.isSignificant = true) (hd : d ≠ '.') : Parts w d := by
  have hgood := isError_of_isSignificant ht
  have hshort := h.not_spells_concat hgood
  cases h.spells hgood with
  | whitespace | lineComment | blockComment => cases ht
  | integer nonempty digits => exact parts_integer nonempty digits hd hshort
  | real whole_ne part_ne whole_digits part_digits =>
    exact parts_real whole_ne whole_digits part_digits hd hshort
  | string inside => exact fun more u hu => not_spells_string inside hu
  | keyword k =>
    obtain ⟨c, cs, hk, hc, hcs⟩ := keyword_text_shape k
    rw [hk] at h ⊢
    exact fun more u hu => not_spells_word hc (h.word_ends hgood hc hcs d rfl) hu
  | @identifier c cs start more_part free =>
    have hc : isNameStart c = true := by simpa [isNameStart] using start
    have hcs : ∀ e ∈ cs, isNamePart e = true := fun e he => by simpa [isNamePart] using more_part e he
    exact fun more u hu => not_spells_word hc (h.word_ends hgood hc hcs d rfl) hu
  | symbol s =>
    refine parts_symbol hshort fun hslash => ?_
    rw [hslash] at h
    have hends := Reading.slash_ends h hgood
    exact ⟨fun he => hends.1 (congrArg some he), fun he => hends.2 (congrArg some he)⟩

end

/-- Every word that the parser sees parts from the character. -/
def Separates (d : Char) : Prop := ∀ w t, Spells w t → t.isSignificant = true → Parts w d

theorem separates_delimiter {d : Char} (hd : d ∈ delimiters) : Separates d :=
  fun _ _ hs ht => parts_of_stops hs (stops_delimiter hd ht hs)

theorem separates_gap {d : Char} (hd : isGap d = true) : Separates d := by
  intro w t hs ht
  have hpart : isNamePart d = false := by
    cases hpart : isNamePart d with
    | false => rfl
    | true =>
      have hblank := isBlank_of_isNamePart hpart
      rw [isBlank_of_isGap hd] at hblank
      cases hblank
  have hother : ∀ {c : Char}, isGap c = false → d ≠ c := by
    rintro c hc rfl
    rw [hd] at hc
    cases hc
  have hdigit : d.isDigit = false := by
    cases hdigit : d.isDigit with
    | false => rfl
    | true => simp [isNamePart, Char.isAlphanum, hdigit] at hpart
  refine parts_of_stops hs ?_
  cases hs with
  | whitespace | lineComment | blockComment => cases ht
  | integer | real => exact ⟨hdigit, hother rfl⟩
  | string => trivial
  | symbol => exact ⟨hother rfl, hother rfl, hother rfl⟩
  | keyword | identifier => exact hpart

/-! ## Characters that are always alone -/

/-- A word of the parser that has the character, and is no string, is the character. -/
def Lone (c : Char) : Prop :=
  ∀ w t, Spells w t → t.isSignificant = true → w.head? ≠ some '"' → c ∈ w → w = [c]

/-- A word that is no string is a symbol, or has letters, digits and points only. -/
theorem Spells.symbol_or_part {w : List Char} {t : Token} (hw : Spells w t) (ht : t.isSignificant = true)
    (hquote : w.head? ≠ some '"') : (∃ s : OpSymbol, w = s.chars) ∨ ∀ c ∈ w, isNamePart c = true ∨ c = '.' := by
  cases hsymbol : t.isSymbol with
  | true =>
    cases hw with
    | symbol s => exact .inl ⟨s, rfl⟩
    | _ => cases hsymbol
  | false =>
    refine .inr (hw.isNamePart_or_point ht hsymbol ?_)
    rintro text rfl
    cases hw
    exact hquote rfl

theorem lone_of_isBlank {c : Char} (h : isBlank c = true) : Lone c := by
  intro w t hw ht hquote hc
  rcases hw.symbol_or_part ht hquote with ⟨s, rfl⟩ | hpart
  · have hsymbol : ∀ s : OpSymbol, ∀ d ∈ s.chars, isBlank d = false := by
      intro s
      cases s <;> exact List.all_iff_forall_prop.1 (by decide)
    rw [hsymbol s c hc] at h
    cases h
  · rcases hpart c hc with hc | rfl
    · rw [isBlank_of_isNamePart hc] at h
      cases h
    · cases h

theorem lone_of_mem {c : Char} (h : c ∈ [',', '(', ')']) : Lone c := by
  intro w t hw ht hquote hc
  rcases hw.symbol_or_part ht hquote with ⟨s, rfl⟩ | hpart
  · have hsymbol : ∀ s : OpSymbol, ∀ d ∈ s.chars, d ∈ [',', '(', ')'] → s.chars = [d] := by
      intro s
      cases s <;> exact List.all_iff_forall_prop.1 (by decide)
    exact hsymbol s c hc h
  · have hnone : ∀ d ∈ [',', '(', ')'], isNamePart d = false ∧ d ≠ '.' :=
      List.all_iff_forall_prop.1 (by decide)
    rcases hpart c hc with hc | rfl
    · rw [(hnone c h).1] at hc
      cases hc
    · exact absurd rfl (hnone _ h).2

/-- A word that ends in a comma or a parenthesis parts from everything. -/
theorem parts_alone {w : List Char} {t : Token} {c : Char} (hs : Spells w t) (ht : t.isSignificant = true)
    (hlast : w.getLast? = some c) (hc : c ∈ [',', '(', ')']) (d : Char) : Parts w d := by
  have hfirst : w.head? ≠ some '"' := by
    intro hhead
    obtain ⟨cs, rfl⟩ := List.head?_eq_some_iff.1 hhead
    obtain ⟨-, body, rfl, -⟩ := hs.of_quote rfl
    rw [← List.cons_append, List.getLast?_concat] at hlast
    cases hlast
    exact absurd hc (by decide)
  obtain rfl := lone_of_mem hc w t hs ht hfirst (List.mem_of_getLast? hlast)
  have hkind : ∀ e ∈ [',', '(', ')'], headKind e = .other ∧ e ≠ '/' := List.all_iff_forall_prop.1 (by decide)
  intro more u hu
  rcases hu.of_other rfl (hkind c hc).1 with ⟨s, -, hs'⟩ | ⟨-, body, hv, -⟩ | ⟨-, body, hv, -⟩
  · have hsymbol : ∀ s : OpSymbol, ∀ e ∈ [',', '(', ')'], s.chars.head? = some e → s.chars.length = 1 := by
      intro s
      cases s <;> exact List.all_iff_forall_prop.1 (by decide)
    have hlength := hsymbol s c hc (by rw [hs']; rfl)
    rw [hs'] at hlength
    simp at hlength
  · exact (hkind c hc).2 (List.cons_eq_cons.1 hv).1
  · exact (hkind c hc).2 (List.cons_eq_cons.1 hv).1

/-! ## Runs of words -/

/-- The text is words that are read as the tokens, with blanks between them, where `next` is the
character behind the text. -/
inductive Run (next : Option Char) : List Char → List Token → Prop
  | nil : Run next [] []
  | blank {c : Char} {cs : List Char} {ts : List Token} (gap : isGap c = true) (more : Run next cs ts) :
      Run next (c :: cs) ts
  | word {w rest : List Char} {t : Token} {ts : List Token} (spells : Spells w t)
      (seen : t.isSignificant = true) (parts : ∀ d ∈ rest.head?.or next, Parts w d)
      (more : Run next rest ts) : Run next (w ++ rest) (t :: ts)

namespace Run

variable {next : Option Char} {xs ys g : List Char} {ts us : List Token}

theorem blanks (hg : ∀ c ∈ g, isGap c = true) (h : Run next xs ts) : Run next (g ++ xs) ts := by
  induction g with
  | nil => exact h
  | cons c g ih =>
    rw [List.forall_mem_cons] at hg
    exact .blank hg.1 (ih hg.2)

theorem of_blanks (hg : ∀ c ∈ g, isGap c = true) : Run next g [] := by
  have h : Run next (g ++ []) [] := blanks hg nil
  rwa [List.append_nil] at h

theorem single {w : List Char} {t : Token} (hs : Spells w t) (ht : t.isSignificant = true)
    (hparts : ∀ d ∈ next, Parts w d) : Run next w [t] := by
  have h : Run next (w ++ []) [t] := word hs ht hparts nil
  rwa [List.append_nil] at h

/-- A comma or a parenthesis. -/
theorem symbol {s : OpSymbol} {c : Char} (hs : s.chars = [c]) (hc : c ∈ [',', '(', ')']) (next : Option Char) :
    Run next [c] [.symbol s] :=
  have hspells : Spells [c] (.symbol s) := hs ▸ .symbol s
  .single hspells rfl fun d _ => parts_alone hspells rfl rfl hc d

theorem append (h : Run (ys.head?.or next) xs ts) (h' : Run next ys us) : Run next (xs ++ ys) (ts ++ us) := by
  induction h with
  | nil => exact h'
  | blank gap more ih => exact .blank gap ih
  | @word w rest t ts spells seen parts more ih =>
    rw [List.append_assoc]
    refine .word spells seen ?_ ih
    rw [List.head?_append, Option.or_assoc]
    exact parts

theorem join {c : Char} (h : Run (some c) xs ts) (h' : Run next (c :: ys) us) :
    Run next (xs ++ c :: ys) (ts ++ us) := @append next xs (c :: ys) ts us h h'

theorem isSignificant (h : Run next xs ts) : ∀ t ∈ ts, t.isSignificant = true := by
  induction h with
  | nil => exact List.forall_mem_nil _
  | blank gap more ih => exact ih
  | word spells seen parts more ih => exact List.forall_mem_cons.2 ⟨seen, ih⟩

theorem eq_nil (h : Run next [] ts) : ts = [] := by
  generalize hcs : ([] : List Char) = cs at h
  cases h with
  | nil => rfl
  | blank => cases hcs
  | word spells =>
    obtain ⟨c, cs, rfl⟩ := spells.exists_cons
    cases hcs

/-- In front of a character that separates a run stays as it is. -/
theorem before {d : Char} (h : Run next xs ts) (hd : Separates d) : Run (some d) xs ts := by
  induction h with
  | nil => exact .nil
  | blank gap more ih => exact .blank gap ih
  | @word w rest t ts spells seen parts more ih =>
    refine .word spells seen (fun e he => ?_) ih
    cases rest with
    | nil =>
      cases he
      exact hd _ _ spells seen
    | cons c rest => exact parts e he

theorem alone (h : Run next xs ts) : Run none xs ts := by
  induction h with
  | nil => exact .nil
  | blank gap more ih => exact .blank gap ih
  | @word w rest t ts spells seen parts more ih =>
    refine .word spells seen (fun e he => parts e ?_) ih
    cases rest with
    | nil => cases he
    | cons c rest => exact he

theorem blanks_behind (hg : ∀ c ∈ g, isGap c = true) (h : Run next xs ts) : Run none (xs ++ g) ts := by
  cases g with
  | nil =>
    rw [List.append_nil]
    exact h.alone
  | cons c g =>
    have hgap : Run none (c :: g) [] := of_blanks hg
    have hjoin := (h.before (separates_gap (hg c List.mem_cons_self))).join hgap
    rwa [List.append_nil] at hjoin

/-- So it does in front of anything, where it ends in a blank, a comma or a parenthesis. -/
theorem before_any {c : Char} (h : Run next xs ts) (hlast : xs.getLast? = some c)
    (hc : isBlank c = true ∨ c ∈ [',', '(', ')']) (next' : Option Char) : Run next' xs ts := by
  induction h with
  | nil => exact .nil
  | @blank c' cs ts gap more ih =>
    refine .blank gap ?_
    by_cases hne : cs = []
    · subst hne
      rw [more.eq_nil]
      exact .nil
    · exact ih (by rwa [List.getLast?_cons_of_ne_nil hne] at hlast)
  | @word w rest t ts spells seen parts more ih =>
    by_cases hne : rest = []
    · subst hne
      rw [List.append_nil] at hlast
      rw [more.eq_nil, List.append_nil]
      refine .single spells seen fun e _ => ?_
      rcases hc with hc | hc
      · rw [(spells.tight seen).last c hlast] at hc
        cases hc
      · exact parts_alone spells seen hlast hc e
    · rw [List.getLast?_append_of_ne_nil _ hne] at hlast
      refine .word spells seen (fun e he => parts e ?_) (ih hlast)
      obtain ⟨f, rest, rfl⟩ := List.exists_cons_of_ne_nil hne
      exact he

theorem lineReads (h : Run none xs ts) : LineReads xs ts := by
  induction h with
  | nil => exact .blank (List.forall_mem_nil _)
  | @blank c cs ts gap more ih => exact LineReads.skip (g := [c]) (by simpa using gap) ih
  | @word w rest t ts spells seen parts more ih =>
    refine LineReads.word (g := []) (List.forall_mem_nil _) seen (reading_of_parts spells fun d hd => parts d ?_) ih
    rw [Option.or_none]
    exact hd

/-! ### Taking runs apart -/

/-- A word begins with no blank. -/
theorem first_of_append {w rest cs : List Char} {t : Token} {c : Char} (hs : Spells w t) (ht : t.isSignificant = true)
    (h : w ++ rest = c :: cs) : isBlank c = false := by
  refine (hs.tight ht).first c ?_
  obtain ⟨d, ds, rfl⟩ := hs.exists_cons
  exact congrArg some (List.cons_eq_cons.1 h).1

/-- A blank in front is not part of a word. -/
theorem of_blank {c : Char} (hc : isBlank c = true) (h : Run next (c :: xs) ts) :
    isGap c = true ∧ Run next xs ts := by
  generalize hcs : c :: xs = cs at h
  cases h with
  | nil => cases hcs
  | blank gap more =>
    cases hcs
    exact ⟨gap, more⟩
  | @word w rest t ts spells seen parts more =>
    rw [first_of_append spells seen hcs.symm] at hc
    cases hc

theorem of_blanks_front (hg : ∀ c ∈ g, isBlank c = true) (h : Run next (g ++ xs) ts) :
    Run next xs ts ∧ ∀ c ∈ g, isGap c = true := by
  induction g with
  | nil => exact ⟨h, List.forall_mem_nil _⟩
  | cons c g ih =>
    rw [List.forall_mem_cons] at hg ⊢
    obtain ⟨hgap, hrest⟩ := of_blank hg.1 h
    exact ⟨(ih hg.2 hrest).1, hgap, (ih hg.2 hrest).2⟩

theorem nil_of_blanks (hg : ∀ c ∈ g, isBlank c = true) (h : Run next g ts) : ts = [] := by
  rw [← List.append_nil g] at h
  exact (h.of_blanks_front hg).1.eq_nil

/-- Nor are blanks behind. -/
theorem of_blanks_behind (hg : ∀ c ∈ g, isBlank c = true) (h : Run next (xs ++ g) ts) :
    Run (g.head?.or next) xs ts := by
  generalize hcs : xs ++ g = cs at h
  induction h generalizing xs with
  | nil =>
    rw [(List.append_eq_nil_iff.1 hcs).1]
    exact .nil
  | @blank c cs ts gap more ih =>
    cases xs with
    | nil =>
      cases hcs
      rw [more.nil_of_blanks (List.forall_mem_cons.1 hg).2]
      exact .nil
    | cons d xs =>
      cases hcs
      exact .blank gap (ih rfl)
  | @word w rest t ts spells seen parts more ih =>
    rcases List.append_eq_append_iff.1 hcs with ⟨m, rfl, rfl⟩ | ⟨m, rfl, rfl⟩
    · rw [List.forall_mem_append] at hg
      have hm : m = [] := by
        refine List.eq_nil_iff_forall_not_mem.2 fun c hc => ?_
        have hlast := (spells.tight seen).last
        rw [List.getLast?_append_of_ne_nil _ (List.ne_nil_of_mem hc)] at hlast
        have hblank := hlast _ (List.getLast?_eq_some_getLast (List.ne_nil_of_mem hc))
        rw [hg.1 _ (List.getLast_mem _)] at hblank
        cases hblank
      subst hm
      rw [more.nil_of_blanks hg.2]
      rw [List.append_nil] at spells parts
      exact .single spells seen parts
    · refine .word spells seen ?_ (ih rfl)
      rwa [List.head?_append, Option.or_assoc] at parts

theorem of_trim (h : Run next xs ts) : Run none (trim xs) ts := by
  obtain ⟨g, g', hg, hg', hxs⟩ := Check.exists_trim xs
  rw [hxs] at h
  exact ((h.of_blanks_front hg).1.of_blanks_behind hg').alone

/-- A character of a run is a blank or stands in a word. -/
theorem exists_of_mem (h : Run next xs ts) {c : Char} (hc : c ∈ xs) :
    isGap c = true ∨ ∃ t ∈ ts, ∃ w, Spells w t ∧ c ∈ w := by
  induction h with
  | nil => cases hc
  | @blank d cs ts gap more ih =>
    rcases List.mem_cons.1 hc with rfl | hc
    · exact .inl gap
    · exact ih hc
  | @word w rest t ts spells seen parts more ih =>
    rcases List.mem_append.1 hc with hc | hc
    · exact .inr ⟨t, List.mem_cons_self, w, spells, hc⟩
    · refine (ih hc).imp_right ?_
      rintro ⟨t, ht, hw⟩
      exact ⟨t, List.mem_cons_of_mem _ ht, hw⟩

theorem uncons {t : Token} (h : Run next xs (t :: ts)) :
    ∃ g w rest, xs = g ++ (w ++ rest) ∧ (∀ c ∈ g, isGap c = true) ∧ Spells w t ∧ t.isSignificant = true ∧
      (∀ d ∈ rest.head?.or next, Parts w d) ∧ Run next rest ts := by
  generalize hts : t :: ts = all at h
  induction h with
  | nil => cases hts
  | @blank c cs all gap more ih =>
    obtain ⟨g, w, rest, rfl, hg, hrest⟩ := ih hts
    exact ⟨c :: g, w, rest, rfl, List.forall_mem_cons.2 ⟨gap, hg⟩, hrest⟩
  | @word w rest u us spells seen parts more ih =>
    cases hts
    exact ⟨[], w, rest, rfl, List.forall_mem_nil _, spells, seen, parts, more⟩

theorem gap_of_nil (h : Run next xs []) : ∀ c ∈ xs, isGap c = true := by
  generalize hts : ([] : List Token) = all at h
  induction h with
  | nil => exact List.forall_mem_nil _
  | blank gap more ih => exact List.forall_mem_cons.2 ⟨gap, ih hts⟩
  | word => cases hts

/-- A run is taken apart between two tokens. -/
theorem divide (h : Run next xs (ts ++ us)) :
    ∃ ys zs, xs = ys ++ zs ∧ Run (zs.head?.or next) ys ts ∧ Run next zs us := by
  induction ts generalizing xs with
  | nil => exact ⟨[], xs, rfl, .nil, h⟩
  | cons t ts ih =>
    obtain ⟨g, w, rest, rfl, hg, hw, ht, hparts, hrest⟩ := uncons h
    obtain ⟨ys, zs, rfl, hys, hzs⟩ := ih hrest
    refine ⟨g ++ (w ++ ys), zs, by simp, blanks hg (.word hw ht ?_ hys), hzs⟩
    rwa [List.head?_append, Option.or_assoc] at hparts

/-- Each token has its word in the text. -/
theorem exists_word (h : Run next xs ts) {t : Token} (ht : t ∈ ts) : ∃ w, Spells w t ∧ w <:+: xs := by
  obtain ⟨us, vs, rfl⟩ := List.append_of_mem ht
  obtain ⟨ys, zs, rfl, -, hzs⟩ := h.divide
  obtain ⟨g, w, rest, rfl, -, hw, -⟩ := hzs.uncons
  exact ⟨w, hw, ys ++ g, rest, by simp⟩

/-- Without quotes there are no strings. -/
theorem ne_string (h : Run next xs ts) (hquote : '"' ∉ xs) : ∀ t ∈ ts, ∀ text, t ≠ .string text := by
  rintro t ht text rfl
  obtain ⟨w, hw, hpart⟩ := h.exists_word ht
  cases hw
  exact hquote (hpart.subset List.mem_cons_self)

/-- A run is taken apart at a symbol. -/
theorem at_symbol {s : OpSymbol} {c : Char} (hs : s.chars = [c]) (h : Run next xs (ts ++ .symbol s :: us)) :
    ∃ ys zs, xs = ys ++ c :: zs ∧ Run (some c) ys ts ∧ Run next zs us := by
  obtain ⟨ys, zs, rfl, hys, hzs⟩ := h.divide
  obtain ⟨g, w, rest, rfl, hg, hw, -, -, hrest⟩ := hzs.uncons
  cases hw
  rw [hs] at hys ⊢
  have hnext : (g ++ ([c] ++ rest)).head?.or next = g.head?.or (some c) := by cases g <;> rfl
  have hblanks := Run.append (hnext ▸ hys) (of_blanks hg)
  rw [List.append_nil] at hblanks
  exact ⟨ys ++ g, rest, by simp, hblanks, hrest⟩

/-- A text that does not end in a blank ends in the word of the last token. -/
theorem last (h : Run next xs ts) {c : Char} (hlast : xs.getLast? = some c) (hc : isGap c = false) :
    ∃ ys w us t, xs = ys ++ w ∧ ts = us ++ [t] ∧ Spells w t ∧ t.isSignificant = true ∧ Run w.head? ys us := by
  have hends : ∀ {g : List Char}, (∀ d ∈ g, isGap d = true) → g.getLast? ≠ some c := by
    intro g hg hmem
    rw [hg c (List.mem_of_getLast? hmem)] at hc
    cases hc
  rcases List.eq_nil_or_concat ts with rfl | ⟨us, t, rfl⟩
  · exact absurd hlast (hends h.gap_of_nil)
  · rw [List.concat_eq_append] at h ⊢
    obtain ⟨ys, zs, rfl, hys, hzs⟩ := h.divide
    obtain ⟨g, w, rest, rfl, hg, hw, ht, -, hrest⟩ := hzs.uncons
    obtain rfl : rest = [] := by
      by_contra hne
      rw [← List.append_assoc, ← List.append_assoc, List.getLast?_append_of_ne_nil _ hne] at hlast
      exact hends hrest.gap_of_nil hlast
    obtain ⟨d, w, rfl⟩ := hw.exists_cons
    have hnext : (g ++ (d :: w ++ [])).head?.or next = g.head?.or (some d) := by cases g <;> rfl
    have hblanks := Run.append (hnext ▸ hys) (of_blanks hg)
    rw [List.append_nil] at hblanks
    exact ⟨ys ++ g, d :: w, us, t, by simp, rfl, hw, ht, hblanks⟩

end Run

/-! ### Taking runs apart at a character -/

namespace Run

variable {next : Option Char} {xs ys : List Char} {ts us : List Token}

/-- Where no string begins before it, a run is taken apart at a character that is always alone. -/
theorem split {c : Char} (hc : Lone c) (hquote : '"' ∉ xs)
    (hat : xs.getLast? = some c ∨ ys.head? = some c) (h : Run next (xs ++ ys) ts) :
    ∃ us vs, ts = us ++ vs ∧ Run (ys.head?.or next) xs us ∧ Run next ys vs := by
  generalize hcs : xs ++ ys = cs at h
  induction h generalizing xs with
  | nil =>
    obtain ⟨rfl, rfl⟩ := List.append_eq_nil_iff.1 hcs
    exact ⟨[], [], rfl, .nil, .nil⟩
  | @blank d cs ts gap more ih =>
    cases xs with
    | nil => exact ⟨[], ts, rfl, .nil, by cases hcs; exact .blank gap more⟩
    | cons e xs =>
      cases hcs
      by_cases hne : xs = []
      · subst hne
        exact ⟨[], ts, rfl, .blank gap .nil, more⟩
      · rw [List.getLast?_cons_of_ne_nil hne] at hat
        obtain ⟨us, vs, rfl, hus, hvs⟩ := ih (fun h => hquote (.tail _ h)) hat rfl
        exact ⟨us, vs, rfl, .blank gap hus, hvs⟩
  | @word w rest t ts spells seen parts more ih =>
    by_cases hxs : xs = []
    · subst hxs
      refine ⟨[], t :: ts, rfl, .nil, ?_⟩
      cases hcs
      exact .word spells seen parts more
    rcases List.append_eq_append_iff.1 hcs with ⟨m, rfl, rfl⟩ | ⟨m, rfl, rfl⟩
    · by_cases hm : m = []
      · subst hm
        rw [List.append_nil] at spells parts
        exact ⟨[t], ts, rfl, .single spells seen parts, more⟩
      · -- The word has the character and another one.
        have hmem : c ∈ xs ++ m := by
          rcases hat with hat | hat
          · exact List.mem_append_left _ (List.mem_of_getLast? hat)
          · rw [List.head?_append_of_ne_nil _ hm] at hat
            exact List.mem_append_right _ (List.mem_of_head? hat)
        have hfirst : (xs ++ m).head? ≠ some '"' := by
          rw [List.head?_append_of_ne_nil _ hxs]
          exact fun h => hquote (List.mem_of_head? h)
        have hlength := congrArg List.length (hc _ _ spells seen hfirst hmem)
        rw [List.length_append, List.length_singleton] at hlength
        have := List.length_pos_iff.2 hxs
        have := List.length_pos_iff.2 hm
        omega
    · by_cases hm : m = []
      · subst hm
        rw [List.append_nil]
        exact ⟨[t], ts, rfl, .single spells seen parts, more⟩
      · rw [List.getLast?_append_of_ne_nil _ hm] at hat
        obtain ⟨us, vs, rfl, hus, hvs⟩ := ih (fun h => hquote (List.mem_append_right _ h)) hat rfl
        refine ⟨t :: us, vs, rfl, .word spells seen ?_ hus, hvs⟩
        rwa [List.head?_append, Option.or_assoc] at parts

/-- No text is two runs. -/
theorem unique (h : Run next xs ts) (h' : Run next xs us) : ts = us := by
  induction h generalizing us with
  | nil => exact h'.eq_nil.symm
  | @blank c cs ts gap more ih =>
    exact ih (h'.of_blank (isBlank_of_isGap gap)).2
  | @word w rest t ts spells seen parts more ih =>
    have hlonger : ∀ {v more behind : List Char} {u : Token}, Spells (v ++ more) u →
        (∀ d ∈ (more ++ behind).head?.or next, Parts v d) → more = [] := by
      intro v more behind u hu hparts
      cases more with
      | nil => rfl
      | cons d more => exact absurd hu (hparts d rfl more u)
    generalize hcs : w ++ rest = cs at h'
    cases h' with
    | nil =>
      obtain ⟨c, cs, rfl⟩ := spells.exists_cons
      cases hcs
    | @blank c cs us gap more' =>
      have hblank := isBlank_of_isGap gap
      rw [first_of_append spells seen hcs] at hblank
      cases hblank
    | @word w' rest' t' us spells' seen' parts' more' =>
      have hsame : w = w' := by
        rcases List.append_eq_append_iff.1 hcs with ⟨m, rfl, rfl⟩ | ⟨m, rfl, rfl⟩
        · rw [hlonger spells' parts, List.append_nil]
        · rw [hlonger spells parts', List.append_nil]
      subst hsame
      rw [spells.unique spells', ih (List.append_cancel_left hcs ▸ more')]

/-- No semicolon ends a run. -/
theorem getLast?_ne (h : Run next xs ts) : xs.getLast? ≠ some ';' := by
  intro hlast
  obtain ⟨ys, w, us, t, rfl, -, hw, ht, -⟩ := h.last hlast rfl
  obtain ⟨c, w, rfl⟩ := hw.exists_cons
  rw [List.getLast?_append_of_ne_nil _ (List.cons_ne_nil c w)] at hlast
  exact hw.getLast?_ne ht hlast

/-- A comma or a parenthesis that stands behind no quote is one of the tokens. -/
theorem split_symbol {s : OpSymbol} {c : Char} (hs : s.chars = [c]) (hc : c ∈ [',', '(', ')']) (hquote : '"' ∉ xs)
    (h : Run next (xs ++ c :: ys) ts) :
    ∃ us vs, ts = us ++ .symbol s :: vs ∧ Run (some c) xs us ∧ Run next ys vs := by
  have hplain : '"' ∉ [c] := by
    rintro hmem
    rw [← List.mem_singleton.1 hmem] at hc
    exact absurd hc (by decide)
  obtain ⟨us, vs, rfl, hus, hvs⟩ := h.split (lone_of_mem hc) hquote (.inr rfl)
  obtain ⟨ts, vs, rfl, hts, hys⟩ := @split next [c] ys vs c (lone_of_mem hc) hplain (.inl rfl) hvs
  obtain rfl := hts.unique (.symbol hs hc _)
  exact ⟨us, vs, rfl, hus, hys⟩

/-- Where there are no strings, a comma or a parenthesis in the text is one of the tokens. -/
theorem symbol_mem_iff {s : OpSymbol} {c : Char} (hs : s.chars = [c]) (hc : c ∈ [',', '(', ')'])
    (hquote : '"' ∉ xs) (h : Run next xs ts) : .symbol s ∈ ts ↔ c ∈ xs := by
  constructor
  · intro ht
    obtain ⟨w, hw, hpart⟩ := h.exists_word ht
    cases hw
    rw [hs] at hpart
    exact hpart.subset List.mem_cons_self
  · intro hmem
    obtain ⟨ys, zs, rfl⟩ := List.append_of_mem hmem
    rw [List.mem_append, not_or] at hquote
    obtain ⟨us, vs, rfl, -⟩ := h.split_symbol hs hc hquote.1
    simp

/-- A name between blanks, commas and parentheses can be exchanged for another one. -/
theorem exchange {c : Char} {cs : List Char} {t : Token} (h : Run none (xs ++ (c :: cs ++ ys)) ts)
    (hs : Spells (c :: cs) t) (ht : t.isSignificant = true) (hc : isNameStart c = true)
    (hquote : '"' ∉ xs ++ c :: cs) (hfront : ∀ d ∈ xs.getLast?, isBlank d = true ∨ d ∈ [',', '(', ')'])
    (hback : ∀ d ∈ ys.head?, isBlank d = true ∨ d ∈ [',', '(', ')']) :
    ∃ us vs, ts = us ++ t :: vs ∧ ∀ {c' : Char} {cs' : List Char} {t' : Token}, Spells (c' :: cs') t' →
      t'.isSignificant = true → isNameStart c' = true → Run none (xs ++ (c' :: cs' ++ ys)) (us ++ t' :: vs) := by
  have hends : ∀ d ∈ ys.head?, isNamePart d = false := by
    intro d hd
    have hnone : ∀ e ∈ [',', '(', ')'], isNamePart e = false := List.all_iff_forall_prop.1 (by decide)
    rcases hback d hd with hblank | hmem
    · cases hpart : isNamePart d with
      | false => rfl
      | true =>
        rw [isBlank_of_isNamePart hpart] at hblank
        cases hblank
    · exact hnone d hmem
  have hparts : ∀ {e : Char} {es : List Char}, isNameStart e = true → ∀ d ∈ ys.head?.or none, Parts (e :: es) d := by
    intro e es he d hd more u
    rw [Option.or_none] at hd
    exact not_spells_word he (hends d hd)
  rw [List.mem_append, not_or] at hquote
  -- The run is taken apart in front of the name, and behind it.
  obtain ⟨us, rest, rfl, hus, hrest⟩ : ∃ us vs, ts = us ++ vs ∧
      Run ((c :: cs ++ ys).head?.or none) xs us ∧ Run none (c :: cs ++ ys) vs := by
    cases hlast : xs.getLast? with
    | none =>
      obtain rfl := List.getLast?_eq_none_iff.1 hlast
      exact ⟨[], ts, rfl, .nil, h⟩
    | some d =>
      have hlone : Lone d := by
        rcases hfront d hlast with hblank | hmem
        · exact lone_of_isBlank hblank
        · exact lone_of_mem hmem
      exact h.split hlone hquote.1 (.inl hlast)
  obtain ⟨ws, vs, rfl, hws, hvs⟩ : ∃ us vs, rest = us ++ vs ∧ Run (ys.head?.or none) (c :: cs) us ∧ Run none ys vs := by
    cases hhead : ys.head? with
    | none =>
      obtain rfl := List.head?_eq_none_iff.1 hhead
      rw [List.append_nil] at hrest
      exact ⟨rest, [], (List.append_nil _).symm, hrest, .nil⟩
    | some d =>
      have hlone : Lone d := by
        rcases hback d hhead with hblank | hmem
        · exact lone_of_isBlank hblank
        · exact lone_of_mem hmem
      have hsplit := hrest.split hlone hquote.2 (.inr hhead)
      rwa [hhead] at hsplit
  obtain rfl := hws.unique (.single hs ht (hparts hc))
  refine ⟨us, vs, rfl, fun {c' cs' t'} hs' ht' hc' => ?_⟩
  have hxs : Run (some c') xs us := by
    cases hlast : xs.getLast? with
    | none =>
      obtain rfl := List.getLast?_eq_none_iff.1 hlast
      rw [hus.eq_nil]
      exact .nil
    | some d => exact hus.before_any hlast (hfront d hlast) _
  exact hxs.join ((single hs' ht' (hparts hc')).append hvs)

end Run

end EvlCheck.Lexing
