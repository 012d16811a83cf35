/-
Line changes that keep a statement well-formed. The changes look for characters, not for tokens, so each is
followed on a run of words: another type stands where a type stood (`exists_retargeted`, `exists_retyped`),
a cast around the whole of what is assigned (`exists_assigned`), and casts around the arguments of a call,
where the line has no other parentheses (`exists_castArgs`).
-/
import EvlCheck.Proofs.Check.StatementText
import EvlCheck.Proofs.Fix.FixedArgs
import EvlCheck.Proofs.Lexing.Sees
import EvlCheck.Proofs.Tree.Hole

namespace EvlCheck

open Text Check Lexing

theorem spells_type (type : ValueType) : ∃ c cs, type.text.toList = c :: cs ∧ isNameStart c = true ∧
    Spells (c :: cs) (.keyword type.keyword) := by
  have hs : Spells type.keyword.text.toList (.keyword type.keyword) := .keyword _
  cases type <;> exact ⟨_, _, rfl, by decide, hs⟩

/-- The line is a statement of the grammar, which nests no deeper than `depth`. -/
def Writes (line : List Char) (depth : Nat) : Prop :=
  ∃ s : Stmt, Run none line s.terminals ∧ s.Grammatical ∧ s.nesting ≤ depth

namespace Lexing

/-- Where no other parenthesis opens, the first comma is the one behind the expression. -/
theorem Run.before_comma {cs : List Char} {e : Expr} {ts : List Token}
    (h : Run none cs (e.terminals ++ .symbol .comma :: ts)) (hquote : '"' ∉ cs) (hopening : '(' ∉ cs) :
    ∃ xs ys, cs = xs ++ ',' :: ys ∧ ',' ∉ xs ∧ Run (some ',') xs e.terminals ∧ Run none ys ts := by
  obtain ⟨xs, ys, rfl, hxs, hys⟩ := h.at_symbol (s := .comma) rfl
  rw [List.mem_append, not_or] at hquote hopening
  refine ⟨xs, ys, rfl, fun hmem => ?_, hxs, hys⟩
  rw [← hxs.symbol_mem_iff (s := .comma) rfl (by decide) hquote.1] at hmem
  rw [← hxs.symbol_mem_iff (s := .leftParen) rfl (by decide) hquote.1] at hopening
  exact e.comma_not_mem hopening.1 hmem

end Lexing

namespace LineChange

/-! ## Casts -/

theorem run_castText {next next' : Option Char} {inner : List Char} {ts : List Token} (h : Run next inner ts)
    (type : ValueType) : Run next' (castText inner type.text)
      (.keyword .cast :: .symbol .leftParen :: (ts ++ [.symbol .comma, .keyword type.keyword, .symbol .rightParen])) := by
  obtain ⟨c, cs, htext, hc, hspells⟩ := spells_type type
  have htype : Run next' (type.text.toList ++ [')']) [.keyword type.keyword, .symbol .rightParen] := by
    rw [htext]
    refine Run.join (.single hspells rfl fun d hd => ?_) (.symbol (s := .rightParen) rfl (by decide) next')
    cases hd
    exact separates_delimiter (by decide) _ _ hspells rfl
  have hcomma : Run next' (',' :: ' ' :: (type.text.toList ++ [')']))
      [.symbol .comma, .keyword type.keyword, .symbol .rightParen] :=
    (Run.symbol (s := .comma) rfl (by decide) (some ' ')).join (.blank rfl htype)
  have hinner := (h.before (separates_delimiter (by decide))).join hcomma
  have hcast : Run (some '(') "cast".toList [.keyword .cast] :=
    .single (.keyword .cast) rfl fun d hd => by
      cases hd
      exact separates_delimiter (by decide) _ _ (.keyword .cast) rfl
  rw [castText_eq]
  exact hcast.join ((Run.symbol (s := .leftParen) rfl (by decide) _).append hinner)

/-! ## Declarations -/

/-- The line of a declaration of a value, cut at its equals sign. Another value is as good. -/
structure Declares (line : List Char) (s : Stmt) (value : Expr) (front rest : List Char) : Prop where
  text_eq : line = front ++ '=' :: rest
  equals : '=' ∉ front
  assigned : value? rest = some (trimStart rest)
  run : Run none rest value.terminals
  fits : value.FitsAt 0
  other : ∀ {cs : List Char} {e : Expr}, Run none cs e.terminals → (∀ c ∈ cs.head?, Stops c (.symbol .assign)) →
    e.FitsAt 0 → e.nesting ≤ value.nesting + 1 → Writes (front ++ '=' :: cs) (s.nesting + 1)

/-- What stands around the first equals sign of a line that is names up to there. -/
theorem exists_assigned {line : List Char} {ws vs : List Token}
    (hws : ∀ t ∈ ws, (∃ k, t = .keyword k) ∨ ∃ n, t = .identifier n)
    (h : Run none line (ws ++ .symbol .assign :: vs)) (hne : vs ≠ []) (hfree : '\n' ∉ line) :
    ∃ front rest, line = front ++ '=' :: rest ∧ '=' ∉ front ∧ value? rest = some (trimStart rest) ∧
      Run (some '=') front ws ∧ Run none rest vs := by
  obtain ⟨front, rest, rfl, hfront, hrest⟩ := h.at_symbol (s := .assign) rfl
  have hequals : '=' ∉ front := by
    intro hmem
    rcases hfront.exists_of_mem hmem with hgap | ⟨t, ht, w, hw, hmem⟩
    · cases hgap
    · have hpart : ∀ c ∈ w, isNamePart c = true ∨ c = '.' := by
        rcases hws t ht with ⟨k, rfl⟩ | ⟨n, rfl⟩
        · exact hw.isNamePart_or_point rfl rfl fun _ => Token.noConfusion
        · exact hw.isNamePart_or_point rfl rfl fun _ => Token.noConfusion
      rcases hpart '=' hmem with hpart | hpart <;> cases hpart
  have hvalue : value? rest = some (trimStart rest) := by
    have hsome : trimStart rest ≠ [] := by
      intro hnil
      obtain ⟨ws', hblank, hrest'⟩ := exists_trimStart rest
      rw [hnil, List.append_nil] at hrest'
      exact hne (hrest.nil_of_blanks (hrest' ▸ hblank))
    have hbreak : '\n' ∉ trimStart rest := fun hmem => hfree (by
      have := (List.dropWhile_suffix isBlank).subset hmem
      simp [this])
    unfold value?
    split
    · next hnil => exact absurd hnil hsome
    · rw [if_neg (by simpa using hbreak)]
  exact ⟨front, rest, rfl, hequals, hvalue, hfront, hrest⟩

theorem exists_declares {line : List Char} {s : Stmt} {constant : Bool} {d : VarDecl}
    (hd : s.declared? = some (constant, d)) (hgood : s.Grammatical) (h : Run none line s.terminals)
    (hfree : '\n' ∉ line) : ∃ front rest, Declares line s d.value front rest := by
  have hne : d.value.terminals ≠ [] := by
    obtain ⟨t, ts, hts, -⟩ := d.value.exists_terminals
    rw [hts]
    exact List.cons_ne_nil t ts
  -- The names in front of the equals sign, and the declaration of another value.
  obtain ⟨ws, hws, hterminals, hother⟩ : ∃ ws : List Token,
      (∀ t ∈ ws, (∃ k, t = .keyword k) ∨ ∃ n, t = .identifier n) ∧
      s.terminals = ws ++ .symbol .assign :: d.value.terminals ∧
      ∀ e : Expr, e.FitsAt 0 → e.nesting ≤ d.value.nesting + 1 → ∃ s' : Stmt,
        s'.terminals = ws ++ .symbol .assign :: e.terminals ∧ s'.Grammatical ∧ s'.nesting ≤ s.nesting + 1 := by
    cases s with
    | varDecl =>
      cases hd
      exact ⟨[.keyword d.type.keyword, .identifier d.name], by simp, rfl, fun e he hnesting =>
        ⟨.varDecl { d with value := e }, rfl, he, by simp only [Stmt.nesting]; omega⟩⟩
    | constDecl d span =>
      cases hd
      exact ⟨[.keyword .const, .keyword d.type.keyword, .identifier d.name], by simp, rfl, fun e he hnesting =>
        ⟨.constDecl { d with value := e } span, rfl, he, by simp only [Stmt.nesting]; omega⟩⟩
    | _ => cases hd
  rw [hterminals] at h
  obtain ⟨front, rest, htext, hequals, hvalue, hfront, hrest⟩ := exists_assigned hws h hne hfree
  have hfits : d.value.FitsAt 0 := by
    cases s with
    | varDecl | constDecl =>
      cases hd
      exact hgood
    | _ => cases hd
  refine ⟨front, rest, htext, hequals, hvalue, hrest, hfits, fun {cs e} hcs hstops hfits hnesting => ?_⟩
  obtain ⟨s', hs', hgood', hnesting'⟩ := hother e hfits hnesting
  have hequals : Run none ('=' :: cs) (.symbol .assign :: e.terminals) := by
    refine .word (w := ['=']) (.symbol .assign) rfl (fun c hc => ?_) hcs
    rw [Option.or_none] at hc
    exact parts_of_stops (.symbol .assign) (hstops c hc)
  exact ⟨s', hs' ▸ hfront.join hequals, hgood', hnesting'⟩

namespace Declares

variable {line front rest : List Char} {s : Stmt} {value : Expr} (h : Declares line s value front rest)
include h

theorem splitAssigned?_eq : splitAssigned? line = some (front, trimStart rest) :=
  h.text_eq ▸ splitAssigned?_append h.equals h.assigned

theorem assignedValue?_eq : assignedValue? line = some (trimStart rest) := by
  rw [assignedValue?, h.splitAssigned?_eq]
  rfl

/-- A cast around the whole of what is assigned. -/
theorem writes_assign (type : ValueType) :
    Writes (assign (castText (trim rest) type.text) line) (s.nesting + 1) := by
  unfold assign
  rw [h.splitAssigned?_eq]
  refine h.other (e := .cast value type .dummy) (.blank rfl (run_castText h.run.of_trim type)) ?_ h.fits
    (Nat.le_refl _)
  rintro c hc
  cases hc
  exact ⟨by decide, by decide, by decide⟩

/-- A decimal for the last word, where this is what is assigned. -/
theorem writes_lastNumber (hsame : Writes line s.nesting) {int whole fraction : List Char}
    (hvalue : ∀ c ∈ trim rest, isWord c = true) (hne : trim rest ≠ [])
    (hwhole : whole ≠ []) (hfraction : fraction ≠ []) (hdigits : ∀ c ∈ whole, c.isDigit = true)
    (hdigits' : ∀ c ∈ fraction, c.isDigit = true) :
    Writes (lastNumber int (whole ++ '.' :: fraction) line) (s.nesting + 1) := by
  obtain ⟨g, g', hg, hg', hrest⟩ := exists_trim rest
  generalize trim rest = v at hvalue hne hrest
  have hkept : trimEnd line = (front ++ '=' :: g) ++ v := by
    have htext : line = (front ++ '=' :: g) ++ v ++ g' := by
      rw [h.text_eq, hrest]
      simp
    have hlast : ∀ c ∈ ((front ++ '=' :: g) ++ v).getLast?, isBlank c = false := by
      intro c hc
      rw [List.getLast?_append_of_ne_nil _ hne] at hc
      exact isBlank_of_isWord (hvalue c (List.mem_of_getLast? hc))
    rw [htext, trimEnd_append hlast, trimEnd_blanks hg', List.append_nil]
  have hstop : ∀ c ∈ (front ++ '=' :: g).reverse.head?, isWord c = false := by
    rw [List.head?_reverse, List.getLast?_append_of_ne_nil _ (List.cons_ne_nil _ _)]
    intro c hc
    rcases List.mem_cons.1 (List.mem_of_getLast? hc) with rfl | hc
    · decide
    · exact isWord_of_isBlank (hg c hc)
  have hword : ∀ c ∈ v.reverse, isWord c = true := fun c hc => hvalue c (List.mem_reverse.1 hc)
  unfold lastNumber
  dsimp only
  rw [hkept, List.reverse_append, takeWhile_append_of_stop hword hstop, dropWhile_append_of_stop hword hstop,
    List.reverse_reverse, List.reverse_reverse]
  split
  · have hrun := h.run
    rw [hrest] at hrun
    have hreal : Run none _ [_] := .single (.real hwhole hfraction hdigits hdigits') rfl (by simp)
    have hnew := h.other (e := .real _ .dummy) (hreal.blanks (hrun.of_blanks_front hg).2) ?_ trivial (Nat.zero_le _)
    · simpa using hnew
    · intro c hc
      have hkind : isBlank c = true ∨ c.isDigit = true := by
        cases g with
        | nil =>
          rw [List.nil_append, List.head?_append_of_ne_nil _ hwhole] at hc
          exact .inr (hdigits c (List.mem_of_head? hc))
        | cons d g =>
          cases hc
          exact .inl (hg c List.mem_cons_self)
      refine ⟨?_, ?_, ?_⟩ <;> rintro rfl <;> rcases hkind with hkind | hkind <;> exact absurd hkind (by decide)
  · obtain ⟨s', hs', hgood, hnesting⟩ := hsame
    exact ⟨s', hs', hgood, by omega⟩

end Declares

variable {line : List Char} {s : Stmt} (hsimple : s.isSimple = true) (hgood : s.Grammatical)
  (h : Run none line s.terminals)
include hsimple hgood h

/-- One type is exchanged for another. -/
theorem writes_type {xs ys : List Char} {old : ValueType} (hline : line = xs ++ (old.text.toList ++ ys))
    (hquote : '"' ∉ xs) (hfront : ∀ d ∈ xs.getLast?, isBlank d = true ∨ d ∈ [',', '(', ')'])
    (hback : ∀ d ∈ ys.head?, isBlank d = true ∨ d ∈ [',', '(', ')']) (type : ValueType) :
    Writes (xs ++ (type.text.toList ++ ys)) s.nesting := by
  obtain ⟨c, cs, hold, hc, hspells⟩ := spells_type old
  obtain ⟨c', cs', htype, hc', hspells'⟩ := spells_type type
  have hquote' : '"' ∉ xs ++ c :: cs := by
    rw [← hold, List.mem_append, not_or]
    exact ⟨hquote, by cases old <;> decide⟩
  rw [hline, hold] at h
  obtain ⟨us, vs, hterminals, hother⟩ := h.exchange hspells rfl hc hquote' hfront hback
  obtain ⟨s', hs', hgood', hnesting⟩ := s.exists_retyped hsimple hgood hterminals type
  rw [htype]
  exact ⟨s', hs' ▸ hother hspells' rfl hc', hgood', hnesting⟩

/-- Another target for a cast. -/
theorem writes_retarget (hquote : '"' ∉ line) (old type : ValueType) :
    Writes (retarget old.text.toList type.text.toList line) s.nesting := by
  by_cases hchanged : retarget old.text.toList type.text.toList line = line
  · rw [hchanged]
    exact ⟨s, h, hgood, Nat.le_refl _⟩
  · obtain ⟨front, piece, g, g', behind, -, -, hg, hg', hline, hnew⟩ := exists_of_retarget hchanged
    rw [hnew]
    have hxs : ∀ w : List Char, front ++ '(' :: (piece ++ ',' :: (g ++ (w ++ (g' ++ ')' :: behind)))) =
        front ++ '(' :: (piece ++ ',' :: g) ++ (w ++ (g' ++ ')' :: behind)) := by simp
    rw [hxs] at hline ⊢
    refine writes_type hsimple hgood h hline (fun hmem => hquote (hline ▸ List.mem_append_left _ hmem)) ?_ ?_ type
    · have hlast : ∀ d ∈ (',' :: g).getLast?, isBlank d = true ∨ d ∈ [',', '(', ')'] := by
        intro d hd
        rcases List.mem_cons.1 (List.mem_of_getLast? hd) with rfl | hd
        · exact .inr (by decide)
        · exact .inl (hg d hd)
      rw [← List.cons_append, ← List.append_assoc, List.getLast?_append_of_ne_nil _ (List.cons_ne_nil ',' g)]
      exact hlast
    · intro d hd
      cases g' with
      | nil =>
        cases hd
        exact .inr (by decide)
      | cons e g' =>
        cases hd
        exact .inl (hg' d List.mem_cons_self)

/-- Another type for a declaration. -/
theorem writes_retype (type : ValueType) : Writes (retype type.text.toList line) s.nesting := by
  have hsame : Writes line s.nesting := ⟨s, h, hgood, Nat.le_refl _⟩
  unfold retype
  split
  · exact hsame
  · next before old rest hdeclared =>
    split
    · next hchanged =>
      obtain ⟨ws, front, constant, hws, rfl, hline, hhead⟩ := exists_of_declaredType? hdeclared
      rw [List.append_assoc]
      have hfront : '"' ∉ front ∧ ∀ d ∈ front.getLast?, isBlank d = true := by
        have hint := hhead .int
        generalize hcs : front ++ ValueType.int.text.toList = cs at hint
        cases hint with
        | plain =>
          obtain rfl := List.append_left_eq_self.1 hcs
          exact ⟨List.not_mem_nil, fun d hd => by cases hd⟩
        | @const _ g hblank hne =>
          rw [← List.append_assoc] at hcs
          obtain rfl := List.append_cancel_right hcs
          refine ⟨?_, fun d hd => ?_⟩
          · rw [List.mem_append, not_or]
            exact ⟨by decide, fun hmem => absurd (hblank _ hmem) (by decide)⟩
          · rw [List.getLast?_append_of_ne_nil _ hne] at hd
            exact hblank d (List.mem_of_getLast? hd)
      refine writes_type hsimple hgood h hline ?_ ?_ ?_ type
      · rw [List.mem_append, not_or]
        exact ⟨fun hmem => absurd (hws _ hmem) (by decide), hfront.1⟩
      · exact fun d hd => .inl (forall_getLast?_append (fun e he => hws e (List.mem_of_getLast? he)) hfront.2 d hd)
      · intro d hd
        obtain ⟨behind, hbehind⟩ := Option.isSome_iff_exists.1 hchanged.2
        cases rest with
        | nil => cases hd
        | cons e rest =>
          cases hd
          unfold skipBlanks? at hbehind
          split at hbehind
          · cases hbehind
          · next heq =>
            cases heq
            split at hbehind
            · next hblank => exact .inl hblank
            · cases hbehind
    · exact hsame

/-! ## Calls -/

omit hgood in
/-- A word in front of a parenthesis is the word of a function. -/
theorem exists_called {front gap rest : List Char} {k : Keyword} (hk : k.isFunction = true)
    (hgap : ∀ c ∈ gap, isBlank c = true) (hquote : '"' ∉ front ++ k.text.toList ++ gap)
    (hline : line = front ++ k.text.toList ++ gap ++ '(' :: rest) :
    ∃ us vs, s.terminals = us ++ .keyword k :: .symbol .leftParen :: vs ∧ Run k.text.toList.head? front us ∧
      Run none rest vs := by
  rw [hline] at h
  obtain ⟨us, vs, hterminals, hus, hvs⟩ := h.split_symbol (s := .leftParen) rfl (by decide) hquote
  obtain ⟨c, hc, hpart⟩ : ∃ c, k.text.toList.getLast? = some c ∧ isNamePart c = true := by
    cases k <;> exact ⟨_, rfl, by decide⟩
  have hlast : (front ++ k.text.toList).getLast? = some c := by rw [List.getLast?_append, hc]; rfl
  have hgapless : isGap c = false := by
    cases hblank : isGap c with
    | false => rfl
    | true =>
      have := isBlank_of_isNamePart hpart
      rw [isBlank_of_isGap hblank] at this
      cases this
  obtain ⟨ys, w, us, t, hfront, rfl, hw, ht, hys⟩ := (hus.of_blanks_behind hgap).last hlast hgapless
  rw [List.append_assoc, List.singleton_append] at hterminals
  have hjoins : Joins t (.symbol .leftParen) := by
    have hchain := Stmt.joins hsimple (t := .symbol .plus) rfl
    rw [hterminals, ← List.cons_append, List.isChain_append_cons_cons] at hchain
    exact hchain.2.1
  have hwlast : w.getLast? = some c := by
    obtain ⟨d, w, rfl⟩ := hw.exists_cons
    rwa [hfront, List.getLast?_append_of_ne_nil _ (List.cons_ne_nil d w)] at hlast
  rcases hjoins.paren rfl with hsymbol | hfunction
  · have hother : ∀ s : OpSymbol, ∀ d ∈ s.chars, isNamePart d = false := by
      intro s
      cases s <;> exact List.all_iff_forall_prop.1 (by decide)
    cases hw with
    | symbol s =>
      rw [hother s c (List.mem_of_getLast? hwlast)] at hpart
      cases hpart
    | _ => cases hsymbol
  · obtain ⟨k', rfl⟩ : ∃ k' : Keyword, t = .keyword k' := by
      cases t <;> first | exact ⟨_, rfl⟩ | cases hfunction
    cases hw
    obtain rfl : k = k' := by
      -- No function is named like the end of another one.
      have hends : ∀ j k : Keyword, j.isFunction = true → k.isFunction = true →
          j.text.toList <:+ k.text.toList → j = k := by
        intro j k
        cases j <;> cases k <;> decide
      rcases List.suffix_or_suffix_of_suffix (List.suffix_append front k.text.toList)
        (hfront ▸ List.suffix_append ys k'.text.toList) with hsuffix | hsuffix
      · exact hends k k' hk hfunction hsuffix
      · exact (hends k' k hfunction hk hsuffix).symm
    obtain rfl := List.append_cancel_right hfront
    exact ⟨us, vs, hterminals, hys, hvs⟩

/-- Casts around both arguments of a call, where the line has no other parentheses. -/
theorem writes_castArgs {f : BinaryFunction} {target : ValueType} {text : List Char} (hquote : '"' ∉ line)
    (hopening : line.count '(' ≤ 1) (hclosing : line.count ')' ≤ 1)
    (hcasts : castArgs? f.text.toList target.text line = some text) : Writes text (s.nesting + 1) := by
  obtain ⟨front, gap, inside, behind, hgap, hclosed, hline, rfl⟩ := exists_call_of_castArgs? hcasts
  have htext : line = front ++ f.text.toList ++ gap ++ '(' :: (inside ++ ')' :: behind) := by
    rw [hline, List.append_assoc _ gap]
  have hf : f.text = f.keyword.text := by cases f <;> rfl
  have hfront : '"' ∉ front ++ f.text.toList ++ gap := fun hmem => hquote (htext ▸ List.mem_append_left _ hmem)
  have hinside : '"' ∉ inside ++ ')' :: behind := fun hmem =>
    hquote (htext ▸ List.mem_append_right _ (List.mem_cons_of_mem _ hmem))
  obtain ⟨us, vs, hterminals, hus, hvs⟩ :=
    exists_called hsimple h (k := f.keyword) (by cases f <;> rfl) hgap (hf ▸ hfront) (hf ▸ htext)
  obtain ⟨a, b, more, hargs, hother⟩ := s.exists_call hsimple hgood hterminals
  cases hargs
  obtain ⟨s', hs', hgood', hnesting⟩ := hother target
  -- The arguments are what stands on both sides of the comma.
  obtain ⟨⟨hopened, hopened'⟩, hclosed'⟩ : ('(' ∉ inside ∧ '(' ∉ behind) ∧ ')' ∉ behind := by
    have hparen := (not_mem_of_count_le (htext ▸ hopening)).2
    rw [htext, ← List.cons_append, ← List.append_assoc] at hclosing
    rw [List.mem_append, List.mem_cons, not_or, not_or] at hparen
    exact ⟨⟨hparen.1, hparen.2.2⟩, (not_mem_of_count_le hclosing).2⟩
  obtain ⟨xs, cs, hcs, hcomma, hxs, hrest⟩ := hvs.before_comma hinside (by simp [hopened, hopened'])
  obtain ⟨ys, zs, rfl, hys, hzs⟩ := hrest.at_symbol (s := .rightParen) rfl
  obtain ⟨rfl, -, rfl⟩ := (List.append_cons_inj_of_notMem hclosed hclosed').1
    (hcs.trans (List.append_assoc xs (',' :: ys) _).symm)
  rw [List.mem_append, List.mem_append, List.mem_cons, not_or, not_or, not_or] at hinside
  rw [List.mem_append, List.mem_cons, not_or, not_or] at hopened
  have hcomma' : ',' ∉ ys := fun hmem => by
    rw [← hys.symbol_mem_iff (s := .comma) rfl (by decide) hinside.1.2.2] at hmem
    refine b.comma_not_mem (fun hparen => hopened.2.2 ?_) hmem
    rwa [hys.symbol_mem_iff (s := .leftParen) rfl (by decide) hinside.1.2.2] at hparen
  rw [splitOn_append_cons hcomma, splitOn_of_not_mem hcomma', List.map_cons, List.map_singleton,
    castArg_of_not_mem hopened.1, castArg_of_not_mem hopened.2.2, List.intercalate_cons_cons,
    List.intercalate_singleton]
  refine ⟨s', ?_, hgood', hnesting⟩
  have hclose := (Run.symbol (s := .rightParen) rfl (by decide) _).append hzs
  have hsecond := (run_castText hys.of_trim target).join hclose
  have hfirst := (run_castText hxs.of_trim target).join
    ((Run.symbol (s := .comma) rfl (by decide) (some ' ')).join (.blank rfl hsecond))
  have hopen := (Run.symbol (s := .leftParen) rfl (by decide) _).append hfirst
  have hname : Run (some '(') f.text.toList [.keyword f.keyword] :=
    hf ▸ .single (.keyword f.keyword) rfl fun d hd => by
      cases hd
      exact separates_delimiter (by decide) _ _ (.keyword f.keyword) rfl
  have hcall := hname.join hopen
  obtain ⟨c, w, hword⟩ : ∃ c w, f.text.toList = c :: w := by cases f <;> exact ⟨_, _, rfl⟩
  rw [← hf, hword] at hus
  rw [hword] at hcall ⊢
  have hall := hus.join hcall
  rw [hs']
  simpa [Expr.terminals] using hall

/-- Another target for a cast, where the line has no other parentheses: only a type stands there. -/
theorem writes_retarget_word {old : List Char} (hquote : '"' ∉ line) (hopening : line.count '(' ≤ 1)
    (hold : ∀ c ∈ old, isWord c = true) (hne : old ≠ []) (type : ValueType) :
    Writes (retarget old type.text.toList line) s.nesting := by
  by_cases hchanged : retarget old type.text.toList line = line
  · rw [hchanged]
    exact ⟨s, h, hgood, Nat.le_refl _⟩
  · obtain ⟨front, piece, g, g', behind, ⟨lead, gap, hgap, rfl⟩, hpiece, hg, hg', hline, -⟩ :=
      exists_of_retarget hchanged
    rw [← List.append_assoc] at hline
    have hlead : '"' ∉ lead ++ "cast".toList ++ gap := fun hmem => hquote (hline ▸ List.mem_append_left _ hmem)
    obtain ⟨us, vs, hterminals, -, hvs⟩ := exists_called hsimple h (k := .cast) rfl hgap hlead hline
    obtain ⟨v, type', more, hargs⟩ := s.exists_cast hsimple hterminals
    cases hargs
    obtain ⟨xs, ys, hsplit, hxs, -, hys⟩ := hvs.before_comma
      (fun hmem => hquote (hline ▸ List.mem_append_right _ (List.mem_cons_of_mem _ hmem)))
      (not_mem_of_count_le (hline ▸ hopening)).2
    obtain ⟨g₂, w, rest, rfl, hg₂, hw, -, -, hrest⟩ := hys.uncons
    cases hw
    obtain ⟨gs, zs, rfl, hgs, -⟩ := Run.at_symbol (s := .rightParen) rfl (show Run _ _ ([] ++ _ :: _) from hrest)
    have hread : ∀ {g w g' rest : List Char}, (∀ c ∈ g, isBlank c = true) → (∀ c ∈ w, isWord c = true) → w ≠ [] →
        (∀ c ∈ g', isBlank c = true) → word? (trimStart (g ++ (w ++ (g' ++ ')' :: rest)))) = some (w, g' ++ ')' :: rest) := by
      intro g w g' rest hg hw hne hg'
      obtain ⟨c, w, rfl⟩ := List.exists_cons_of_ne_nil hne
      have hfirst := isBlank_of_isWord (hw c List.mem_cons_self)
      rw [trimStart_blanks_append hg, List.cons_append, trimStart, List.dropWhile_cons_of_neg (by simp [hfirst])]
      exact word?_append hw (head?_blanks_append hg' (by simp; decide)) hne
    have hsame := @hread _ _ _ behind hg hold hne hg'
    rw [(append_cons_inj_of_not_mem hsplit hpiece hxs).2] at hsame
    have htype : type'.keyword.text = type'.text := by cases type' <;> rfl
    rw [htype, hread (fun c hc => isBlank_of_isGap (hg₂ c hc)) (isWord_text type').1 (isWord_text type').2
      fun c hc => isBlank_of_isGap (hgs.gap_of_nil c hc)] at hsame
    obtain rfl := (Prod.mk.inj (Option.some.inj hsame)).1
    exact writes_retarget hsimple hgood h hquote type' type

end LineChange

end EvlCheck
