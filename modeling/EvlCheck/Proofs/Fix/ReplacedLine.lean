/-
Fixes that replace a line: a value for a variable without one, a decimal for an integer, a cast around a
value, another target for a cast, a name for a declaration without one. Where the fix changes the line,
nothing is told of the new line with the message of the finding, so there are fewer findings with it.
-/
import EvlCheck.Fix.QuickFix
import EvlCheck.Proofs.Fix.FixedArgs
import EvlCheck.Proofs.Fix.FixedType

namespace EvlCheck

open Text Check

namespace Spot

variable [Build] {source : List Char} {d : Diagnostic} {line : List Char} (s : Spot source d line)

/-! ## Values -/

/-- A value behind a declaration without one. -/
theorem tally_assigned (ht : s.complaint.topic = .valueless) (hcomment : beforeComment line = line)
    {new : List Char} (hnew : new = trimEnd line ++ " = ".toList ++ (FixSite.defaultFor line).toList)
    (hshort : new.length < Limit.lineChars) :
    (Script.ofSource (s.before ++ new ++ s.terminator ++ s.after)).tally d.message <
      (Script.ofSource source).tally d.message := by
  obtain ⟨hslash, hfeed, hlast⟩ : '/' ∉ (FixSite.defaultFor line).toList ∧
      '\n' ∉ (FixSite.defaultFor line).toList ∧ (FixSite.defaultFor line).toList.getLast? = some '0' := by
    unfold FixSite.defaultFor
    split <;> decide
  have hfits : Fits line new := by
    refine .of_last (v := '0') ?_ ?_ (by decide)
    · rw [hnew, List.mem_append, List.mem_append, not_or, not_or]
      exact ⟨⟨fun h => s.lineAt.unbroken ((trimEnd_isPrefix line).subset h), by decide⟩, hfeed⟩
    · rw [hnew, List.getLast?_append, hlast]
      rfl
  refine s.tally_silent hfits hshort (by rw [ht]; decide) (fun h => by rw [ht] at h; cases h) fun script => ?_
  rw [ht, hnew]
  exact silent_valueless hcomment hslash hlast (by decide) (by decide) script.symbols

end Spot

namespace LineChange

/-- Where the last word of a line gets another text, this stands at its end. -/
theorem exists_of_lastNumber {int literal line : List Char} (h : lastNumber int literal line ≠ line) :
    ∃ kept, kept <+: line ∧ lastNumber int literal line = kept ++ literal := by
  unfold lastNumber at h ⊢
  dsimp only at h ⊢
  split at h
  · next hint =>
    rw [if_pos hint]
    refine ⟨_, ?_, rfl⟩
    rw [← List.reverse_suffix, List.reverse_reverse]
    exact (List.dropWhile_suffix isWord).trans (List.reverse_suffix.2 (trimEnd_isPrefix line))
  · exact absurd rfl h

end LineChange

namespace Mention

theorem isDecimal_of_digits? {cs ds rest : List Char} (h : digits? cs = some (ds, rest)) :
    ds ≠ [] ∧ ∀ c ∈ ds, isDecimal c = true := by
  unfold digits? at h
  split at h
  · cases h
  · next hne =>
    cases h
    exact ⟨hne, fun c => List.mem_takeWhile_imp⟩

theorem exists_of_numbers? {message literal int : List Char} (h : numbers? message = some (literal, int)) :
    ∃ whole fraction, literal = whole ++ '.' :: fraction ∧ whole ≠ [] ∧ fraction ≠ [] ∧
      (∀ c ∈ whole, isDecimal c = true) ∧ ∀ c ∈ fraction, isDecimal c = true := by
  obtain ⟨before, part, -, hpart⟩ := exists_of_findFirst? h
  simp only [Option.bind_eq_bind, Option.bind_eq_some_iff, Option.pure_def, Option.some.injEq,
    Prod.mk.injEq, Prod.exists] at hpart
  obtain ⟨_, -, whole, _, hwhole, _, -, fraction, _, hfraction, _, -, _, _, -, rfl, rfl⟩ := hpart
  exact ⟨whole, fraction, rfl, (isDecimal_of_digits? hwhole).1, (isDecimal_of_digits? hfraction).1,
    (isDecimal_of_digits? hwhole).2, (isDecimal_of_digits? hfraction).2⟩

end Mention

namespace Spot

variable [Build] {source : List Char} {d : Diagnostic} {line : List Char} (s : Spot source d line)

/-- A decimal at the end of a line without a comment. -/
theorem tally_decimal (ht : s.complaint.topic = .intLiteral) (hcomment : beforeComment line = line)
    {message literal int new : List Char} (hnumbers : Mention.numbers? message = some (literal, int))
    (hnew : new = LineChange.lastNumber int literal line) (hchanged : new ≠ line)
    (hshort : new.length < Limit.lineChars) :
    (Script.ofSource (s.before ++ new ++ s.terminator ++ s.after)).tally d.message <
      (Script.ofSource source).tally d.message := by
  obtain ⟨kept, hkept, htext⟩ := LineChange.exists_of_lastNumber (hnew ▸ hchanged)
  obtain ⟨whole, fraction, rfl, hwhole, hfraction, hdigits, hdigits'⟩ := Mention.exists_of_numbers? hnumbers
  obtain ⟨v, hv⟩ := List.getLast?_isSome.2 hfraction |> Option.isSome_iff_exists.1
  have hv' : isDecimal v = true := hdigits' v (List.mem_of_getLast? hv)
  rw [htext] at hnew
  have hnot : ∀ {c : Char}, isDecimal c = false → c ≠ '.' → c ∉ whole ++ '.' :: fraction := by
    intro c hc hpoint
    simp only [List.mem_append, List.mem_cons, not_or]
    refine ⟨fun h => ?_, hpoint, fun h => ?_⟩
    · rw [hdigits c h] at hc; cases hc
    · rw [hdigits' c h] at hc; cases hc
  have hlast : new.getLast? = some v := by
    rw [hnew, List.getLast?_append, List.getLast?_append, List.getLast?_cons, hv]
    rfl
  have hfits : Fits line new := by
    refine .of_last ?_ hlast ?_
    · rw [hnew, List.mem_append, not_or]
      exact ⟨fun h => s.lineAt.unbroken (hkept.subset h), hnot (by decide) (by decide)⟩
    · rintro rfl
      exact absurd hv' (by decide)
  have hplain : beforeComment (kept ++ whole ++ '.' :: fraction) = kept ++ whole ++ '.' :: fraction := by
    obtain ⟨more, hmore⟩ := hkept
    have hbefore : beforeComment kept = kept := by
      rw [← hmore] at hcomment
      exact beforeComment_of_append hcomment
    have hhead : (whole ++ '.' :: fraction).head? ≠ some '/' := fun h =>
      hnot (c := '/') (by decide) (by decide) (List.mem_of_head? h)
    rw [List.append_assoc, beforeComment_append_of_head hbefore hhead,
      beforeComment_of_not_mem (hnot (by decide) (by decide))]
  refine s.tally_silent hfits hshort (by rw [ht]; decide) (fun h => by rw [ht] at h; cases h) fun script => ?_
  rw [ht, hnew, ← List.append_assoc]
  exact silent_intLiteral hplain hdigits' hv script.symbols

/-! ## Casts -/

include s in
/-- A number that does not fit is the value of a declaration. -/
theorem exists_declaration_of_number
    (ht : s.complaint.topic = .floatLiteral ∨ s.complaint.topic = .floatVariable ∨
      s.complaint.topic = .conversion) : ∃ e, declaration? (statementOf line) = some e := by
  obtain ⟨e, form, -⟩ := Walk.exists_number s.mem (by rcases ht with ht | ht | ht <;> rw [ht] <;> rfl)
    (by rcases ht with ht | ht | ht <;> rw [ht] <;> rfl)
  exact ⟨e, declaration?_of_lineForm form⟩

/-- A cast around the value of a declaration. -/
theorem tally_cast
    (ht : s.complaint.topic = .floatLiteral ∨ s.complaint.topic = .floatVariable ∨
      s.complaint.topic = .conversion)
    {inner new : List Char} (hinner : '\n' ∉ inner)
    (hnew : new = LineChange.assign (LineChange.castText inner "int") line)
    (hshort : new.length < Limit.lineChars) :
    (Script.ofSource (s.before ++ new ++ s.terminator ++ s.after)).tally d.message <
      (Script.ofSource source).tally d.message := by
  obtain ⟨e, he⟩ := s.exists_declaration_of_number ht
  obtain ⟨ws, front, g, rest, hws, hfront, hg, hline, hne⟩ := exists_rawDeclaration he
  have hfree := s.lineAt.unbroken
  have hequals : '=' ∉ ws ++ (front ++ g) := by
    simp only [List.mem_append, not_or]
    exact ⟨fun h => absurd (hws _ h) (by decide), hfront.not_mem (by decide) (by decide),
      fun h => absurd (hg _ h) (by decide)⟩
  obtain ⟨v, hv⟩ : ∃ v, value? rest = some v := by
    refine exists_value? hne fun h => hfree ?_
    rw [hline]
    simp [h]
  have hassign : new = ws ++ (front ++ g) ++ '=' :: ' ' :: LineChange.castText inner "int" := by
    have hsplit := splitAssigned?_append hequals hv
    rw [hnew, LineChange.assign, hline]
    simp only [List.append_assoc] at hsplit ⊢
    rw [hsplit]
    simp only [List.append_assoc]
  have htext : new = ws ++ (front ++ (g ++ "= cast(".toList ++
      (inner ++ (", ".toList ++ ("int".toList ++ [')']))))) := by
    rw [hassign, LineChange.castText_eq]
    simp
  have hfits : Fits line new := by
    refine .of_last (v := ')') ?_ ?_ (by decide)
    · rw [hline] at hfree
      rw [htext]
      simp only [List.mem_append, not_or] at hfree ⊢
      exact ⟨hfree.1, hfree.2.1, ⟨hfree.2.2.1, by decide⟩, hinner, by decide, by decide, by decide⟩
    · rw [htext]
      simp only [← List.append_assoc]
      exact List.getLast?_concat
  have hcast := fun script => silent_cast hws hfront hg (Script.plainNames_symbols script)
    (inner ++ (", ".toList ++ ("int".toList ++ [')']))) ht
  rw [← htext] at hcast
  refine s.tally_silent hfits hshort ?_ (fun _ => ?_) fun script => (hcast script).1
  · rcases ht with ht | ht | ht <;> rw [ht] <;> decide
  · rw [(hcast (Script.ofSource source)).2, Script.declares?, he, String.ofList_toList]
    rfl

/-- Another target for a cast on a line with one pair of parentheses. -/
theorem tally_retargeted {old new : List Char} {type : ValueType}
    (ht : s.complaint.topic = .invalidTarget ∨ s.complaint.topic = .castMismatch ∧
      ∃ e, declaration? (statementOf line) = some e ∧ e.type = type)
    (hopening : line.count '(' ≤ 1) (hclosing : line.count ')' ≤ 1)
    (hnew : new = LineChange.retarget old type.text.toList line) (hchanged : new ≠ line)
    (hshort : new.length < Limit.lineChars) :
    (Script.ofSource (s.before ++ new ++ s.terminator ++ s.after)).tally d.message <
      (Script.ofSource source).tally d.message := by
  rw [hnew] at hchanged
  obtain ⟨front, piece, g, g', behind, -, -, hg, hg', hline, htext⟩ := LineChange.exists_of_retarget hchanged
  have hfits : Fits line new := by
    have hfree := s.lineAt.unbroken
    have hline' : line = (front ++ '(' :: (piece ++ ',' :: (g ++ (old ++ g')))) ++ ')' :: behind := by
      rw [hline]
      simp only [List.append_assoc, List.cons_append]
    have htext' : new = (front ++ '(' :: (piece ++ ',' :: (g ++ (type.text.toList ++ g')))) ++
        ')' :: behind := by
      rw [hnew, htext]
      simp only [List.append_assoc, List.cons_append]
    rw [hline'] at hfree ⊢
    rw [htext']
    refine .of_suffix (List.cons_ne_nil _ _) hfree ?_
    simp only [List.mem_append, List.mem_cons, not_or] at hfree ⊢
    exact ⟨hfree.1.1, hfree.1.2.1, hfree.1.2.2.1, hfree.1.2.2.2.1, hfree.1.2.2.2.2.1,
      fun h => absurd ((isWord_text type).1 _ h) (by decide), hfree.1.2.2.2.2.2.2⟩
  refine s.tally_silent hfits hshort ?_ (fun h => ?_) fun script => ?_
  · rcases ht with ht | ⟨ht, -⟩ <;> rw [ht] <;> decide
  · rcases ht with ht | ⟨ht, -⟩ <;> rw [ht] at h <;> cases h
  · rw [hnew]
    exact silent_retarget hopening hclosing hchanged ht script.symbols

/-! ## Names -/

/-- A name in a declaration without one. -/
theorem tally_named (ht : s.complaint.topic = .nameless) {new : List Char}
    (hnew : new = LineChange.putName FixSite.placeholderName line) (hchanged : new ≠ line)
    (hshort : new.length < Limit.lineChars) :
    (Script.ofSource (s.before ++ new ++ s.terminator ++ s.after)).tally d.message <
      (Script.ofSource source).tally d.message := by
  unfold LineChange.putName at hnew
  split at hnew
  · exact absurd hnew hchanged
  · next before type rest htype =>
    split at hnew
    · exact absurd hnew hchanged
    · next rest' hrest =>
      obtain ⟨ws, front, constant, hws, rfl, hline, hhead⟩ := exists_of_declaredType? htype
      obtain ⟨g, hg, rfl⟩ := exists_of_afterBlanks? hrest
      have htext : new = ws ++ (front ++ type.text.toList ++ ' ' :: 'm' :: ("yVar =".toList ++ rest')) := by
        rw [hnew]
        simp [FixSite.placeholderName]
      have hfits : Fits line new := by
        have hfree := s.lineAt.unbroken
        have hline' : line = (ws ++ front ++ (type.text.toList ++ g)) ++ '=' :: rest' := by
          rw [hline]
          simp only [List.append_assoc]
        rw [hline'] at hfree ⊢
        have hnew' : new = (ws ++ front ++ type.text.toList ++ ' ' :: FixSite.placeholderName.toList ++ [' ']) ++
            '=' :: rest' := by
          rw [hnew]
          simp
        rw [hnew']
        refine .of_suffix (List.cons_ne_nil _ _) hfree ?_
        simp only [List.mem_append, List.mem_cons, not_or] at hfree ⊢
        exact ⟨⟨⟨hfree.1.1, hfree.1.2.1⟩, by decide, by decide⟩, by decide⟩
      refine s.tally_silent hfits hshort (by rw [ht]; decide) (fun h => by rw [ht] at h; cases h)
        fun script => ?_
      rw [ht, htext]
      exact silent_nameless hws (hhead type) (by decide) (by decide) script.symbols

end Spot

end EvlCheck
