/-
What validation makes of a line whose variable gets another type. Of the function that the line calls
nothing is told any more, but the type of the variable is another one for all lines. Where no other line
has the name in it, these are told the same as before.
-/
import EvlCheck.Proofs.Check.TypesUsed
import EvlCheck.Proofs.Fix.Spot

namespace EvlCheck

open Text Check

namespace Check

/-! ## The declared name -/

theorem blanks_append_inj {ws ws' xs ys : List Char} (hws : ∀ c ∈ ws, isBlank c = true)
    (hws' : ∀ c ∈ ws', isBlank c = true) (hxs : ∃ c more, xs = c :: more ∧ isBlank c = false)
    (hys : ∃ c more, ys = c :: more ∧ isBlank c = false) (h : ws ++ xs = ws' ++ ys) : xs = ys := by
  obtain ⟨c, xs, rfl, hc⟩ := hxs
  obtain ⟨d, ys, rfl, hd⟩ := hys
  have htrim := congrArg trimStart h
  rwa [trimStart_blanks_append hws, trimStart_blanks_append hws', trimStart_cons hc,
    trimStart_cons hd] at htrim

/-- With another type a line declares the same name. -/
theorem name_eq_of_retyped {line before rest : List Char} {type other : ValueType} {d d' : Declaration}
    (htype : LineChange.declaredType? line = some (before, type, rest))
    (hd : declaration? (statementOf line) = some d)
    (hd' : declaration? (statementOf (before ++ other.text.toList ++ rest)) = some d') :
    d'.name = d.name := by
  obtain ⟨ws, front, constant, hws, rfl, hline, hhead⟩ := exists_of_declaredType? htype
  obtain ⟨ws₁, named₁, g₁, value₁, hws₁, hnamed₁, hg₁, hline₁, -⟩ := exists_rawDeclaration hd
  obtain ⟨ws₂, named₂, g₂, value₂, hws₂, hnamed₂, hg₂, hline₂, -⟩ := exists_rawDeclaration hd'
  have hstart : ∀ {constant type name named}, NamedText constant type name named → ∀ rest,
      ∃ c more, named ++ rest = c :: more ∧ isBlank c = false := by
    intro constant type name named h rest
    obtain ⟨c, more, rfl, hc⟩ := h.exists_cons
    exact ⟨c, more ++ rest, rfl, hc⟩
  have hheadStart : ∀ type : ValueType, ∃ c more,
      front ++ type.text.toList ++ rest = c :: more ∧ isBlank c = false := by
    intro type
    obtain ⟨c, more, heq, hc⟩ := (hhead type).exists_cons
    exact ⟨c, more ++ rest, by rw [heq]; rfl, hc⟩
  have hends : ∀ {g : List Char} (value : List Char), (∀ c ∈ g, isBlank c = true) →
      ∀ c ∈ (g ++ '=' :: value).head?, isWord c = false := by
    intro g value hg
    refine head?_blanks_append hg ?_
    rintro c hc
    cases hc
    decide
  have hold : front ++ type.text.toList ++ rest = named₁ ++ (g₁ ++ '=' :: value₁) := by
    refine blanks_append_inj hws hws₁ (hheadStart type) (hstart hnamed₁ _) ?_
    rw [← hline₁, hline]
    simp only [List.append_assoc]
  have hnew : front ++ other.text.toList ++ rest = named₂ ++ (g₂ ++ '=' :: value₂) := by
    refine blanks_append_inj hws hws₂ (hheadStart other) (hstart hnamed₂ _) ?_
    rw [← hline₂]
    simp only [List.append_assoc]
  cases hnamed₁ with
  | @mk head gap head_text blank gap_ne word ne =>
    rw [List.append_assoc head] at hold
    obtain ⟨-, -, rfl⟩ := (hhead type).unique head_text hold
    have hnamed : NamedText constant other d.name.toList
        (front ++ other.text.toList ++ (gap ++ d.name.toList)) :=
      .mk (hhead other) blank gap_ne word ne
    rw [← List.append_assoc] at hnew
    have hname := hnamed.namedHead?_append (hends value₁ hg₁)
    rw [hnew, hnamed₂.namedHead?_append (hends value₂ hg₂)] at hname
    simp only [Option.some.injEq, Prod.mk.injEq] at hname
    exact String.toList_inj.1 hname.2.2.1

/-- A line that another type changes declares a number. -/
theorem exists_of_retype {type line new : List Char} (hnew : new = LineChange.retype type line)
    (hchanged : new ≠ line) :
    ∃ before old rest, LineChange.declaredType? line = some (before, old, rest) ∧ rest ≠ [] ∧
      new = before ++ type ++ rest := by
  unfold LineChange.retype at hnew
  split at hnew
  · exact absurd hnew hchanged
  · next before old rest htype =>
    split at hnew
    · next hnumeric =>
      refine ⟨before, old, rest, htype, ?_, hnew⟩
      rintro rfl
      cases hnumeric.2
    · exact absurd hnew hchanged

end Check

/-! ## Types of other names -/

namespace Script

/-- Lines in the place of a line that declare at most its name leave the types of all other names. -/
theorem get?_symbols_congr {before others behind : List (List Char)} {line : List Char} {other : String}
    (name : String)
    (hname : ∀ l ∈ line :: others, ∀ p, declares? l = some p → p.1 = name) (hother : other ≠ name) :
    (symbols ⟨before ++ (others ++ behind)⟩).get? other = (symbols ⟨before ++ line :: behind⟩).get? other := by
  have hskip : ∀ ls : List (List Char), (∀ l ∈ ls, ∀ p, declares? l = some p → p.1 = name) →
      ((ls.filterMap declares?).reverse.find? fun p => p.1 = other) = none := by
    intro ls hls
    rw [List.find?_eq_none]
    intro p hp heq
    obtain ⟨l, hl, hdeclares⟩ := List.mem_filterMap.1 (List.mem_reverse.1 hp)
    exact hother ((of_decide_eq_true heq).symm.trans (hls l hl p hdeclares))
  have hsplit : before ++ line :: behind = before ++ ([line] ++ behind) := rfl
  rw [get?_symbols, get?_symbols, hsplit]
  simp only [List.filterMap_append, List.reverse_append, List.find?_append]
  rw [hskip others fun l hl => hname l (List.mem_cons_of_mem _ hl),
    hskip [line] (List.forall_mem_singleton.2 (hname line List.mem_cons_self))]

/-- A variable has the name of a declaration. -/
theorem isWord_of_get?_symbols {s : Script} {name : String} {type : ValueType}
    (h : s.symbols.get? name = some type) : ∀ c ∈ name.toList, isWord c = true := by
  rw [get?_symbols] at h
  obtain ⟨p, hp, -⟩ := Option.map_eq_some_iff.1 h
  obtain ⟨line, -, hline⟩ := List.mem_filterMap.1 (List.mem_reverse.1 (List.mem_of_find?_eq_some hp))
  obtain ⟨d, hd, rfl⟩ := Option.map_eq_some_iff.1 hline
  have hname := List.find?_some hp
  rw [decide_eq_true_eq] at hname
  exact hname ▸ (isWord_of_declaration? hd).2

theorem plainNames_symbols (s : Script) : PlainNames s.symbols :=
  fun _ _ h hmem => absurd (isWord_of_get?_symbols h _ hmem) (by decide)

end Script

namespace Walk

variable [Build] {m : String} {t : Topic} {symbols symbols' : Symbols}

/-- On a topic of calls a line is told by the types of the names in it, wherever it stands. -/
theorem told_congr_names (hm : IsAbout m t) (ht : t.ofCall = true) (hnumber : t.ofNumber = false)
    {line : List Char} (h : SameTypes symbols symbols' line) (w w' : Walk) :
    w'.told m symbols' line = w.told m symbols line := by
  have hagree : Agree t w w' := by
    refine ⟨fun h => ?_, fun h => ?_⟩
    · rcases h with rfl | rfl <;> cases ht
    · subst h
      cases ht
  rw [← told_congr hm (fun _ => rfl) hagree line, told_eq hm, told_eq hm,
    about_complaints_names ht hnumber h]

theorem tally_congr_names (hm : IsAbout m t) (ht : t.ofCall = true) (hnumber : t.ofNumber = false)
    {lines : List (List Char)} (h : ∀ line ∈ lines, SameTypes symbols symbols' line) (w w' : Walk) :
    w'.tally m symbols' lines = w.tally m symbols lines := by
  induction lines generalizing w w' with
  | nil => rfl
  | cons line rest ih =>
    obtain ⟨hline, hrest⟩ := List.forall_mem_cons.1 h
    rw [tally, tally, told_congr_names hm ht hnumber hline w w', ih hrest]

/-- The result of a function is held against the type of a variable that is declared. -/
theorem exists_declaration_of_result {w : Walk} {number : Nat} {line : List Char} {c : Complaint}
    (h : c ∈ w.complaints symbols number line)
    (ht : c.topic = .alwaysFloat ∨ c.topic = .floatFromArguments) :
    ∃ d, declaration? line = some d := by
  obtain ⟨declared, cs, checked, mem⟩ :=
    exists_expression h (by rcases ht with ht | ht <;> rw [ht] <;> rfl)
      (by rcases ht with ht | ht <;> rw [ht] <;> rfl)
  have hdeclared := declared_of_mem mem ht
  cases checked with
  | value form => exact ⟨_, declaration?_of_lineForm form⟩
  | call => cases hdeclared
  | assigned => cases hdeclared

end Walk

namespace Spot

variable [Build] {source : List Char} {d : Diagnostic} {line : List Char} (s : Spot source d line)

/-- With another type of one variable, lines without its name have the same types. -/
theorem sameTypes_retyped {before rest : List Char} {type other : ValueType} {e : Declaration}
    (htype : LineChange.declaredType? line = some (before, type, rest))
    (hfits : Fits line (before ++ other.text.toList ++ rest))
    (hshort : (before ++ other.text.toList ++ rest).length < Limit.lineChars)
    (he : declaration? (statementOf line) = some e) (halone : ∀ l ∈ s.front ++ s.back, ¬ e.name.toList <:+: l) :
    ∀ l ∈ s.front.map Script.lineOf ++ s.back.map Script.lineOf,
      SameTypes (Script.ofSource source).symbols (Script.ofSource (s.before ++
        (before ++ other.text.toList ++ rest) ++ s.terminator ++ s.after)).symbols l := by
  have hout := congrArg Script.mk (s.lines_replaced hfits hshort)
  have hold := congrArg Script.mk s.lines_eq
  rw [← List.map_append, List.forall_mem_map]
  intro l hl name hname
  rw [show Script.ofSource source = _ from hold, show Script.ofSource (_ ++ _) = _ from hout]
  refine Script.get?_symbols_congr e.name (List.forall_mem_cons.2 ⟨fun p hp => ?_,
    List.forall_mem_singleton.2 fun p hp => ?_⟩) ?_
  · unfold Script.declares? at hp
    rw [he] at hp
    cases hp
    rfl
  · obtain ⟨e', he', rfl⟩ := Option.map_eq_some_iff.1 hp
    exact name_eq_of_retyped htype he he'
  · rintro rfl
    exact halone l hl (hname.trans (Script.lineOf_isInfix l))

/-- Where the other lines have the same types, a line that is not told of takes its finding away. -/
theorem tally_lt_of_sameTypes {new : List Char} (hfits : Fits line new) (hshort : new.length < Limit.lineChars)
    (ht : s.complaint.topic.ofCall = true) (hnumber : s.complaint.topic.ofNumber = false)
    (hsame : ∀ l ∈ s.front.map Script.lineOf ++ s.back.map Script.lineOf,
      SameTypes (Script.ofSource source).symbols
        (Script.ofSource (s.before ++ new ++ s.terminator ++ s.after)).symbols l)
    (hsilent : ∀ w symbols, Walk.told d.message symbols w (statementOf new) = 0) :
    (Script.ofSource (s.before ++ new ++ s.terminator ++ s.after)).tally d.message <
      (Script.ofSource source).tally d.message := by
  obtain ⟨hfront, hback⟩ := List.forall_mem_append.1 hsame
  have hpos := s.told_pos
  unfold walk at hpos
  unfold Script.tally
  rw [s.lines_replaced hfits hshort, s.lines_eq, Walk.tally_append, Walk.tally_append,
    Walk.tally_append, Walk.tally, Walk.tally, Walk.tally, hsilent,
    Walk.tally_congr_names s.isAbout ht hnumber hfront {} {},
    Walk.tally_congr_names s.isAbout ht hnumber hback (((s.front.map Script.lineOf).foldl Walk.pass {}).pass
      (statementOf line))]
  omega

/-- As a `float` the variable may be given what the function returns. -/
theorem tally_retyped {new : List Char}
    (ht : s.complaint.topic = .alwaysFloat ∨ s.complaint.topic = .floatFromArguments)
    (hnew : new = LineChange.retype ValueType.float.text.toList line) (hchanged : new ≠ line)
    (hshort : new.length < Limit.lineChars)
    (halone : s.complaint.topic = .floatFromArguments → ∀ e, declaration? (statementOf line) = some e →
      ∀ l ∈ s.front ++ s.back, ¬ e.name.toList <:+: l) :
    (Script.ofSource (s.before ++ new ++ s.terminator ++ s.after)).tally d.message <
      (Script.ofSource source).tally d.message := by
  obtain ⟨before, type, rest, htype, hrest, rfl⟩ := exists_of_retype hnew hchanged
  obtain ⟨ws, front, constant, hws, hbefore, hline, hhead⟩ := exists_of_declaredType? htype
  have hfits : Fits line (before ++ ValueType.float.text.toList ++ rest) := by
    have hfree := s.lineAt.unbroken
    rw [hline, ← List.append_assoc] at hfree ⊢
    refine .of_suffix hrest hfree ?_
    rw [List.mem_append, List.mem_append, not_or, not_or] at hfree
    rw [List.mem_append, not_or]
    exact ⟨hfree.1.1, by decide⟩
  have hsilent : ∀ w symbols, Walk.told d.message symbols w
      (statementOf (before ++ ValueType.float.text.toList ++ rest)) = 0 := by
    intro w symbols
    have hsilent := silent_retyped hws (hhead .float) rest ht symbols
    rw [← List.append_assoc, ← List.append_assoc, ← hbefore] at hsilent
    exact hsilent.told_eq_zero s.isAbout w
  obtain ⟨e, he⟩ := Walk.exists_declaration_of_result s.mem ht
  rcases ht with ht | ht
  · exact s.tally_replaced hfits hshort (by rw [ht]; decide) (fun h => by rw [ht] at h; cases h)
      fun w script => hsilent w script.symbols
  · exact s.tally_lt_of_sameTypes hfits hshort (by rw [ht]; rfl) (by rw [ht]; rfl)
      (s.sameTypes_retyped htype hfits hshort he (halone ht e he)) hsilent

end Spot

end EvlCheck
