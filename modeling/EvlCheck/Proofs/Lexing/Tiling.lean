/-
Lexing loses nothing. The tokens of a source are pieces of it in their order, each at the place
where the one before it stops, and the end of the source stands behind the last of them; this holds
whether lexing reads to the end or a limit stops it early.

The proof follows the lexer once (`cut_tokenizeFrom`) and leaves open what is said of each piece, so
that the same induction also carries what a piece is (`Proofs/Lexing/LongestMatch`).
-/
import EvlCheck.Lexing.Tokenize
import EvlCheck.Proofs.Lexing.LongestMatch
import Mathlib.Data.List.Chain
import Mathlib.Data.Char

namespace EvlCheck

/-! ## Bytes and slices -/

namespace Text

theorem byteSize_pos {cs : List Char} (h : cs ≠ []) : 0 < byteSize cs := by
  cases cs with
  | nil => exact absurd rfl h
  | cons c cs =>
    have := c.utf8Size_pos
    rw [byteSize_cons]; omega

theorem byteSize_le (cs : List Char) : byteSize cs ≤ 4 * cs.length := by
  induction cs with
  | nil => exact Nat.le_refl _
  | cons c cs ih =>
    have := c.utf8Size_le_four
    rw [byteSize_cons, List.length_cons]
    omega

theorem utf8ByteSize_ofList (cs : List Char) : (String.ofList cs).utf8ByteSize = byteSize cs := by
  induction cs with
  | nil => rfl
  | cons c cs ih =>
    have hcons : String.ofList (c :: cs) = String.singleton c ++ String.ofList cs := by
      rw [String.singleton_eq_ofList, ← String.ofList_append, List.singleton_append]
    rw [hcons, String.utf8ByteSize_append, String.utf8ByteSize_singleton, ih, byteSize_cons]

end Text

/-- Counting off the bytes of the first part of a text splits the text behind that part. -/
theorem splitBytes?_append (as bs : List Char) :
    splitBytes? (Text.byteSize as) (as ++ bs) = some (as, bs) := by
  induction as with
  | nil => simp [splitBytes?]
  | cons c as ih =>
    have hc := c.utf8Size_pos
    obtain ⟨n, hn⟩ : ∃ n, c.utf8Size + Text.byteSize as = n + 1 :=
      ⟨c.utf8Size + Text.byteSize as - 1, by omega⟩
    have hrest : n + 1 - c.utf8Size = Text.byteSize as := by omega
    rw [Text.byteSize_cons, hn, List.cons_append, splitBytes?, if_pos (by omega), hrest, ih]
    rfl

/-- The span of a piece of a text, counted from the start, covers exactly that piece. -/
theorem Span.slice_piece (before piece after : List Char) :
    (Span.mk (Position.start.advanceAll before) (Position.start.advanceAll (before ++ piece))).slice
      (before ++ piece ++ after) = piece := by
  have h0 : (Position.start.advanceAll before).offset = Text.byteSize before := by
    rw [Position.offset_advanceAll]; exact Nat.zero_add _
  have h1 : (Position.start.advanceAll (before ++ piece)).offset =
      Text.byteSize before + Text.byteSize piece := by
    rw [Position.offset_advanceAll, Text.byteSize_append]; exact Nat.zero_add _
  have hlen : Text.byteSize before + Text.byteSize piece - Text.byteSize before =
      Text.byteSize piece := by omega
  unfold Span.slice Span.length
  simp only [h0, h1, hlen]
  rw [if_neg (by omega), List.append_assoc, splitBytes?_append]
  simp only
  rw [splitBytes?_append]

/-- Some report tells of a limit that the source exceeds. -/
def TokenizedSource.Limited (s : TokenizedSource) : Prop :=
  ∃ r ∈ s.reports, r.fault.isBreach = true

namespace Lexing

/-! ## Cutting a text into tokens -/

/-- What can be said of a token and the piece of text that it is made of: the text from the piece
on, the piece, and the token. -/
abbrev PieceProp := List Char → List Char → Token → Prop

/-- A text is cut, from a place on, into tokens that stand one behind the other, with the end of
the source as the last. Each piece has a character, is the text of its token, and is as `Ok` says. -/
inductive Cut (Ok : PieceProp) : Position → List Char → List SpannedToken → Prop
  | done (place : Position) : Cut Ok place [] [⟨.eof, .point place⟩]
  | piece {place : Position} {taken rest : List Char} {t : Token} {tokens : List SpannedToken}
      (nonempty : taken ≠ []) (inside : t ≠ .eof) (text : t.text = String.ofList taken)
      (ok : Ok (taken ++ rest) taken t) (next : Cut Ok (place.advanceAll taken) rest tokens) :
      Cut Ok place (taken ++ rest) (⟨t, ⟨place, place.advanceAll taken⟩⟩ :: tokens)

namespace Cut

variable {Ok : PieceProp} {place : Position} {cs : List Char} {tokens : List SpannedToken}

theorem start_head? (h : Cut Ok place cs tokens) :
    tokens.head?.map (·.span.start) = some place := by
  cases h <;> rfl

/-- Each token starts where the one before it stops. -/
theorem isChain (h : Cut Ok place cs tokens) :
    tokens.IsChain fun a b => a.span.stop = b.span.start := by
  induction h with
  | done => exact .singleton _
  | @piece place taken rest t tokens nonempty inside text ok next ih =>
    cases tokens with
    | nil => exact .singleton _
    | cons b tokens =>
      have hb := next.start_head?
      simp only [List.head?_cons, Option.map_some, Option.some.injEq] at hb
      exact .cons_cons hb.symm ih

/-- No token starts before the place of the text, none but the end is empty, and none reaches into
one behind it. -/
theorem ordered (h : Cut Ok place cs tokens) :
    (∀ t ∈ tokens, place.offset ≤ t.span.start.offset) ∧
      (∀ t ∈ tokens, t.value ≠ .eof → t.span.start.offset < t.span.stop.offset) ∧
      tokens.Pairwise fun a b => a.span.stop.offset ≤ b.span.start.offset := by
  induction h with
  | done place => simp [Span.point]
  | @piece place taken rest t tokens nonempty inside text ok next ih =>
    obtain ⟨hbehind, hnonempty, hpairwise⟩ := ih
    have hpos := Text.byteSize_pos nonempty
    have hstop : (place.advanceAll taken).offset = place.offset + Text.byteSize taken :=
      Position.offset_advanceAll place taken
    refine ⟨?_, ?_, List.pairwise_cons.2 ⟨hbehind, hpairwise⟩⟩
    · rintro u (_ | ⟨_, hu⟩)
      · exact Nat.le_refl _
      · have := hbehind u hu; omega
    · rintro u (_ | ⟨_, hu⟩) hne
      · show place.offset < (place.advanceAll taken).offset
        omega
      · exact hnonempty u hu hne

/-- The end of the source is the last token and no other, and lies behind the whole text. -/
theorem exists_front (h : Cut Ok place cs tokens) :
    ∃ front, tokens = front ++ [⟨.eof, .point (place.advanceAll cs)⟩] ∧
      (∀ t ∈ front, t.value ≠ .eof) ∧ String.join (front.map (·.value.text)) = String.ofList cs := by
  induction h with
  | done place => exact ⟨[], rfl, by simp, rfl⟩
  | @piece place taken rest t tokens nonempty inside text ok next ih =>
    obtain ⟨front, rfl, hfront, htext⟩ := ih
    refine ⟨⟨t, ⟨place, place.advanceAll taken⟩⟩ :: front, ?_, ?_, ?_⟩
    · rw [Position.advanceAll_append]; rfl
    · simpa using ⟨inside, hfront⟩
    · rw [List.map_cons, String.join_cons, htext, text, String.ofList_append]

/-- Each token but the end is a piece of the text, and its span runs from before the piece to
behind it. -/
theorem exists_piece (h : Cut Ok place cs tokens) {t : SpannedToken} (ht : t ∈ tokens)
    (hne : t.value ≠ .eof) :
    ∃ before taken after, cs = before ++ taken ++ after ∧ taken ≠ [] ∧
      t.value.text = String.ofList taken ∧
      t.span = ⟨place.advanceAll before, place.advanceAll (before ++ taken)⟩ ∧
      Ok (taken ++ after) taken t.value := by
  induction h with
  | done => simp only [List.mem_singleton] at ht; subst ht; exact absurd rfl hne
  | @piece place piece rest u tokens nonempty inside text ok next ih =>
    rcases List.mem_cons.1 ht with rfl | ht
    · exact ⟨[], piece, rest, rfl, nonempty, text, rfl, ok⟩
    · obtain ⟨before, taken, after, rfl, hne', htext, hspan, hok⟩ := ih ht
      refine ⟨piece ++ before, taken, after, by simp, hne', htext, ?_, hok⟩
      rw [hspan, List.append_assoc, Position.advanceAll_append place piece,
        Position.advanceAll_append place piece]

theorem imp {Ok' : PieceProp} (himp : ∀ cs taken t, Ok cs taken t → Ok' cs taken t)
    (h : Cut Ok place cs tokens) : Cut Ok' place cs tokens := by
  induction h with
  | done place => exact .done place
  | piece nonempty inside text ok next ih =>
    exact .piece nonempty inside text (himp _ _ _ ok) ih

end Cut

/-! ## The lexer cuts -/

/-- What the token of a piece can be: the longest word, an error where the text is at fault, or,
where a limit stops the lexing, an error whatever the text. -/
inductive Reading (limited : Prop) (cs taken : List Char) : Token → Prop
  | word {t : Token} (longest : Longest cs taken t) (sound : ∀ v, ¬ Faulty cs v) :
      Reading limited cs taken t
  | fault (faulty : Faulty cs taken) : Reading limited cs taken (.error (String.ofList taken))
  | stopped (breach : limited) : Reading limited cs taken (.error (String.ofList taken))

theorem Reading.unlimited {limited : Prop} {cs taken : List Char} {t : Token}
    (h : Reading limited cs taken t) (hlimit : ¬ limited) : Reading False cs taken t := by
  cases h with
  | word longest sound => exact .word longest sound
  | fault faulty => exact .fault faulty
  | stopped breach => exact absurd breach hlimit

theorem limited_breach (cs : List Char) (place : Position) {fault : LexFault}
    (tokens : Array SpannedToken) (reports : Array LexReport) (h : fault.isBreach = true) :
    (breach cs place fault tokens reports).Limited :=
  ⟨_, Array.mem_push_self, h⟩

theorem cut_breach {cs : List Char} (hcs : cs ≠ []) (place : Position) {fault : LexFault}
    (tokens : Array SpannedToken) (reports : Array LexReport) (h : fault.isBreach = true) :
    ∃ more, (breach cs place fault tokens reports).tokens.toList = tokens.toList ++ more ∧
      Cut (Reading (breach cs place fault tokens reports).Limited) place cs more := by
  refine ⟨[⟨.error (String.ofList cs), ⟨place, place.advanceAll cs⟩⟩,
    ⟨.eof, .point (place.advanceAll cs)⟩], by simp [breach], ?_⟩
  have hstopped := limited_breach cs place tokens reports h
  generalize (breach cs place fault tokens reports).Limited = limited at hstopped
  have hreading : Reading limited (cs ++ []) cs (.error (String.ofList cs)) := .stopped hstopped
  simpa using Cut.piece hcs (by simp) rfl hreading (.done (place.advanceAll cs))

/-- A scanned lexeme is the first piece of a cut. -/
theorem Cut.scanned [Build] {Ok : PieceProp} {place : Position} {c : Char} {rest : List Char}
    {t : Token} {more : List SpannedToken} (hne : t ≠ .eof)
    (ht : t.text = String.ofList (scan c rest).taken) (hok : Ok (c :: rest) (scan c rest).taken t)
    (h : Cut Ok (place.advanceAll (scan c rest).taken) (scan c rest).rest more) :
    Cut Ok place (c :: rest) (⟨t, ⟨place, place.advanceAll (scan c rest).taken⟩⟩ :: more) := by
  rw [← scan_append c rest] at hok
  have := Cut.piece (scan_taken_ne_nil c rest) hne ht hok h
  rwa [scan_append] at this

/-- Lexing from a place on adds a cut of the text from there to the tokens so far. -/
theorem cut_tokenizeFrom [Build] (p : LexicalPreferences) (cs : List Char) (place : Position)
    (counted : Nat) (tokens : Array SpannedToken) (reports : Array LexReport) :
    ∃ more, (tokenizeFrom p cs place counted tokens reports).tokens.toList = tokens.toList ++ more ∧
      Cut (Reading (tokenizeFrom p cs place counted tokens reports).Limited) place cs more := by
  fun_induction tokenizeFrom p cs place counted tokens reports with
  -- The end of the source.
  | case1 place counted tokens reports => exact ⟨_, by simp, .done place⟩
  -- There are too many tokens.
  | case2 place counted tokens reports c rest h =>
    exact cut_breach (by simp) place tokens reports rfl
  -- A token.
  | case3 place counted tokens reports c rest h lexeme stop t hok ih =>
    obtain ⟨more, hmore, hcut⟩ := ih
    have hreads := reads_scan c rest
    rw [Reads, hok] at hreads
    refine ⟨⟨t, ⟨place, stop⟩⟩ :: more, hmore.trans (by simp), ?_⟩
    exact .scanned hreads.1.spells.ne_eof hreads.1.spells.text_eq (.word hreads.1 hreads.2) hcut
  -- A lexeme that exceeds a limit.
  | case4 place counted tokens reports c rest h lexeme fault hfault hb =>
    exact cut_breach (by simp) place tokens reports hb
  -- Text at fault, behind which the lexing goes on.
  | case5 place counted tokens reports c rest h lexeme stop fault hfault hb text ih =>
    obtain ⟨more, hmore, hcut⟩ := ih
    have hreads := reads_scan c rest
    rw [Reads, hfault] at hreads
    refine ⟨⟨.error text, ⟨place, stop⟩⟩ :: more, by rw [hmore]; simp, ?_⟩
    exact .scanned (by simp) rfl (.fault (hreads (by simpa using hb))) hcut

/-! ## Whole sources -/

theorem start_advanceAll_offset (cs : List Char) :
    (Position.start.advanceAll cs).offset = Text.byteSize cs := by
  rw [Position.offset_advanceAll]; exact Nat.zero_add _

theorem tokenize_of_le [Build] {p : LexicalPreferences} {source : String}
    (h : source.utf8ByteSize ≤ Limit.sourceBytes) :
    tokenize p source = tokenizeFrom p source.toList .start 0 #[] #[] := by
  simp only [tokenize]
  rw [if_neg (by omega)]

theorem cut_tokenize [Build] {p : LexicalPreferences} {source : String}
    (h : source.utf8ByteSize ≤ Limit.sourceBytes) :
    Cut (Reading (tokenize p source).Limited) .start source.toList (tokenize p source).tokens.toList := by
  obtain ⟨more, hmore, hcut⟩ := cut_tokenizeFrom p source.toList .start 0 #[] #[]
  rw [tokenize_of_le h, hmore]
  exact hcut

theorem tokenize_of_large [Build] {p : LexicalPreferences} {source : String}
    (h : Limit.sourceBytes < source.utf8ByteSize) :
    (tokenize p source).tokens.toList =
      [⟨.error "", ⟨.start, Position.start.advanceAll source.toList⟩⟩,
        ⟨.eof, .point (Position.start.advanceAll source.toList)⟩] := by
  simp only [tokenize]
  rw [if_pos h]

theorem limited_of_large [Build] {p : LexicalPreferences} {source : String}
    (h : Limit.sourceBytes < source.utf8ByteSize) : (tokenize p source).Limited := by
  unfold TokenizedSource.Limited
  simp only [tokenize]
  rw [if_pos h]
  exact ⟨⟨.sourceTooLarge source.utf8ByteSize, .start, none⟩, by simp, rfl⟩

/-- The tokens of a source tile it. The end of the source is the last token and no other, and lies
behind the whole text; the first token starts at the start, each further one where the one before it
stops, and none but the end is empty. Where the source is within its limit each token has the text
that its span covers, so that the texts one behind the other are the source, whether or not another
limit stops the lexing early; a larger source is one error token without text. -/
theorem tokenize_tiles [Build] (p : LexicalPreferences) (source : String) :
    let tokens := (tokenize p source).tokens.toList
    let stop := Position.start.advanceAll source.toList
    ∃ front, tokens = front ++ [⟨.eof, .point stop⟩] ∧
      (∀ t ∈ front, t.value ≠ .eof ∧ t.span.start.offset < t.span.stop.offset) ∧
      tokens.head?.map (·.span.start) = some .start ∧
      tokens.IsChain (fun a b => a.span.stop = b.span.start) ∧
      if source.utf8ByteSize ≤ Limit.sourceBytes then
        (∀ t ∈ front, t.value.text.toList = t.span.slice source.toList) ∧
          String.join (front.map (·.value.text)) = source
      else front = [⟨.error "", ⟨.start, stop⟩⟩] := by
  intro tokens stop
  by_cases h : source.utf8ByteSize ≤ Limit.sourceBytes
  · have hcut := cut_tokenize (p := p) h
    obtain ⟨front, hfront, hne, htext⟩ := hcut.exists_front
    refine ⟨front, hfront, fun t ht => ⟨hne t ht, ?_⟩, hcut.start_head?, hcut.isChain, ?_⟩
    · have hmem : t ∈ (tokenize p source).tokens.toList := by rw [hfront]; simp [ht]
      obtain ⟨before, taken, after, -, htaken, -, hspan, -⟩ := hcut.exists_piece hmem (hne t ht)
      have := Text.byteSize_pos htaken
      rw [hspan]
      simp only [start_advanceAll_offset, Text.byteSize_append]
      omega
    · rw [if_pos h]
      refine ⟨fun t ht => ?_, by rw [htext, String.ofList_toList]⟩
      have hmem : t ∈ (tokenize p source).tokens.toList := by rw [hfront]; simp [ht]
      obtain ⟨before, taken, after, hsource, -, htext', hspan, -⟩ := hcut.exists_piece hmem (hne t ht)
      rw [htext', hspan, hsource, Span.slice_piece, String.toList_ofList]
  · have htokens := tokenize_of_large (p := p) (Nat.lt_of_not_le h)
    refine ⟨[⟨.error "", ⟨.start, stop⟩⟩], htokens, ?_, ?_, ?_, by rw [if_neg h]⟩
    · intro t ht
      rw [List.mem_singleton] at ht
      subst ht
      -- Only a source with characters exceeds the limit.
      have hne : source.toList ≠ [] := by
        intro hnil
        rw [String.toList_eq_nil_iff] at hnil
        subst hnil
        exact h (Nat.zero_le _)
      have := Text.byteSize_pos hne
      refine ⟨by simp, ?_⟩
      simp only [stop, start_advanceAll_offset]
      exact this
    · rw [show tokens = _ from htokens]; rfl
    · rw [show tokens = _ from htokens]
      exact .cons_cons rfl (.singleton _)

/-- The lexer takes the longest match. Where no limit is exceeded, each token but the end stands for
a piece of the source and has the piece's place as its span. The token is an error exactly where the
text at that place is at fault, and then the piece is the one at fault; any other token is made of
the longest word of a terminal at the head of the text. -/
theorem tokenize_longest [Build] (p : LexicalPreferences) (source : String)
    (h : ¬ (tokenize p source).Limited) {t : SpannedToken}
    (ht : t ∈ (tokenize p source).tokens) (hne : t.value ≠ .eof) :
    ∃ before taken after, source.toList = before ++ taken ++ after ∧
      t.span = ⟨Position.start.advanceAll before, Position.start.advanceAll (before ++ taken)⟩ ∧
      if t.value.isError then
        Faulty (taken ++ after) taken ∧ t.value = .error (String.ofList taken)
      else (∀ piece, ¬ Faulty (taken ++ after) piece) ∧ Longest (taken ++ after) taken t.value := by
  have hsize : source.utf8ByteSize ≤ Limit.sourceBytes := by
    by_contra hlt
    exact h (limited_of_large (Nat.lt_of_not_le hlt))
  have hmem : t ∈ (tokenize p source).tokens.toList := Array.mem_toList_iff.2 ht
  obtain ⟨before, taken, after, hsource, -, -, hspan, hreading⟩ :=
    (cut_tokenize hsize).exists_piece hmem hne
  refine ⟨before, taken, after, hsource, hspan, ?_⟩
  -- The reading of the piece says which of the two it is; a limit was not met.
  generalize t.value = token at hreading ⊢
  cases hreading with
  | word longest sound =>
    have herror : token.isError = false := by
      cases token with
      | error s => exact absurd rfl (longest.spells.ne_error s)
      | _ => rfl
    rw [if_neg (by simp [herror])]
    exact ⟨sound, longest⟩
  | fault faulty =>
    simp only [Token.isError, if_true]
    exact ⟨faulty, trivial⟩
  | stopped limited => exact absurd limited h

/-- A string with an escaped quote, between a symbol of two characters and a number with a point. -/
theorem tokenize_longest_escaped_quote :
    let source := "x /= \"a\\\"b\" 7.5 !"
    let found : SpannedToken := ⟨.string "\"a\\\"b\"", ⟨⟨5, 1, 6⟩, ⟨11, 1, 12⟩⟩⟩
    ¬ (tokenize {} source).Limited ∧ found ∈ (tokenize {} source).tokens ∧ found.value ≠ .eof ∧
      ∃ before taken after, source.toList = before ++ taken ++ after ∧
        found.span = ⟨Position.start.advanceAll before, Position.start.advanceAll (before ++ taken)⟩ ∧
        if found.value.isError then
          Faulty (taken ++ after) taken ∧ found.value = .error (String.ofList taken)
        else
          (∀ piece, ¬ Faulty (taken ++ after) piece) ∧ Longest (taken ++ after) taken found.value := by
  intro source found
  have hlimit : ¬ (tokenize {} source).Limited := by
    unfold TokenizedSource.Limited
    decide +kernel
  have hfound : found ∈ (tokenize {} source).tokens := by decide +kernel
  exact ⟨hlimit, hfound, by decide, tokenize_longest {} source hlimit hfound (by decide)⟩

end Lexing

end EvlCheck
