/-
Which variables' types a line needs. Inference looks a type up only for a text that stands in the
expression, so complaints about the calls of a line depend only on the types of names that the line has in it.
-/
import EvlCheck.Proofs.Check.DeclarationText
import EvlCheck.Proofs.Check.Sources
import EvlCheck.Proofs.Check.UntypedText

namespace EvlCheck

open Text Check

theorem Text.suffix_of_callHead? {cs name rest : List Char} (h : callHead? cs = some (name, rest)) :
    rest <:+ cs := by
  unfold callHead? at h
  simp only [Option.bind_eq_bind, Option.bind_eq_some_iff, Option.pure_def, Option.some.injEq,
    Prod.mk.injEq, Prod.exists] at h
  obtain ⟨_, behind, hname, r, hopen, rfl, rfl⟩ := h
  obtain ⟨g, -, rfl⟩ := exists_of_afterBlanks? hopen
  rw [← append_of_name? hname]
  exact ((List.suffix_cons _ _).trans (List.suffix_append _ _)).trans (List.suffix_append _ _)

namespace Check

/-! ## Parts of an expression -/

/-- What stands up to a closing parenthesis is part of the text. -/
theorem callInside_isInfix (cs : List Char) : callInside cs <:+: cs := by
  suffices h : ∀ depth seen, callInside.go cs depth seen <:+: seen.reverse ++ cs from h 0 []
  induction cs with
  | nil =>
    intro depth seen
    rw [callInside.go, List.append_nil]
    exact (List.reverse_prefix.2 (List.drop_suffix 1 seen)).isInfix
  | cons c cs ih =>
    have hpass : ∀ depth seen, callInside.go cs depth (c :: seen) <:+: seen.reverse ++ c :: cs := by
      intro depth seen
      have hmore := ih depth (c :: seen)
      rwa [List.reverse_cons, List.append_assoc] at hmore
    intro depth seen
    unfold callInside.go
    split
    · exact hpass _ _
    · split
      · split
        · exact (List.prefix_append _ _).isInfix
        · exact hpass _ _
      · exact hpass _ _

theorem argPieces_isInfix {cs piece : List Char} (h : piece ∈ argPieces cs) : piece <:+: cs := by
  suffices hgo : ∀ depth sofar done, ∀ p ∈ argPieces.go cs depth sofar done,
      p ∈ done ∨ p <:+: sofar.reverse ++ cs from (hgo 0 [] [] piece h).resolve_left List.not_mem_nil
  clear h
  induction cs with
  | nil =>
    intro depth sofar done p hp
    rcases List.mem_cons.1 (List.mem_reverse.1 hp) with rfl | hp
    · exact .inr (List.prefix_append _ _).isInfix
    · exact .inl hp
  | cons c cs ih =>
    intro depth sofar done p hp
    rw [argPieces.go] at hp
    split at hp
    · rcases ih _ _ _ p hp with hp | hp
      · rcases List.mem_cons.1 hp with rfl | hp
        · exact .inr (List.prefix_append _ _).isInfix
        · exact .inl hp
      · exact .inr (hp.trans ((List.suffix_cons c cs).trans (List.suffix_append _ _)).isInfix)
    · refine (ih _ _ _ p hp).imp_right fun hp => ?_
      rwa [List.reverse_cons, List.append_assoc] at hp

theorem splitArgs_isInfix {cs arg : List Char} (h : arg ∈ splitArgs cs) : arg <:+: cs := by
  have hmem : arg ∈ (argPieces cs).map trim := by
    unfold splitArgs at h
    dsimp only at h
    split at h
    · exact List.dropLast_subset _ h
    · exact h
  obtain ⟨piece, hpiece, rfl⟩ := List.mem_map.1 hmem
  exact (trim_isInfix piece).trans (argPieces_isInfix hpiece)

theorem infix_of_wholeCall? {cs inner : List Char} {signature : Signature}
    (h : wholeCall? cs = some (signature, inner)) : inner <:+: cs := by
  unfold wholeCall? at h
  simp only [Option.bind_eq_bind, Option.bind_eq_some_iff, Option.pure_def, Option.some.injEq,
    Prod.mk.injEq, Prod.exists] at h
  obtain ⟨_, rest, hhead, -, -, -, -, -, rfl⟩ := h
  exact (List.dropLast_prefix rest).isInfix.trans (suffix_of_callHead? hhead).isInfix

/-! ## Types of names -/

/-- The variables named in a text have the same types. -/
def SameTypes (symbols symbols' : Symbols) (cs : List Char) : Prop :=
  ∀ name : String, name.toList <:+: cs → symbols'.get? name = symbols.get? name

theorem SameTypes.part {symbols symbols' : Symbols} {cs part : List Char}
    (h : SameTypes symbols symbols' cs) (hpart : part <:+: cs) : SameTypes symbols symbols' part :=
  fun name hname => h name (hname.trans hpart)

section

variable [Build] {symbols symbols' : Symbols} {cs : List Char}

/-- By induction on the levels left: on each of them only the text as a whole may be looked up. -/
theorem inferWithin_congr (h : SameTypes symbols symbols' cs) (room : Nat) :
    inferWithin symbols' room cs = inferWithin symbols room cs := by
  induction room generalizing cs with
  | zero => rfl
  | succ room ih =>
    have hatom : atomType? symbols' (trim cs) = atomType? symbols (trim cs) := by
      unfold atomType?
      rw [h (String.ofList (trim cs)) (by rw [String.toList_ofList]; exact trim_isInfix cs)]
    rw [inferWithin, inferWithin]
    dsimp only
    rw [hatom]
    split
    · rfl
    · split
      · next inner hinner =>
        refine ih (h.part (List.IsInfix.trans ?_ (trim_isInfix cs)))
        exact ⟨['('], [')'], by rw [append_of_parenthesized? hinner]; rfl⟩
      · split
        · rfl
        · next signature inner hcall =>
          have hfirst : SameTypes symbols symbols' ((splitArgs inner).head?.getD []) := by
            refine h.part (List.IsInfix.trans ?_ ((infix_of_wholeCall? hcall).trans (trim_isInfix cs)))
            cases hargs : splitArgs inner with
            | nil => exact List.nil_infix
            | cons arg rest => exact splitArgs_isInfix (by rw [hargs]; exact List.mem_cons_self)
          rw [ih hfirst]

theorem infer_congr (h : SameTypes symbols symbols' cs) : infer symbols' cs = infer symbols cs := by
  unfold infer
  rw [inferWithin_congr h]

theorem expressionComplaints_congr (h : SameTypes symbols symbols' cs) (number : Nat)
    (declared : Option ValueType) : expressionComplaints ⟨number, declared, symbols'⟩ cs =
      expressionComplaints ⟨number, declared, symbols⟩ cs := by
  have hcalls : ∀ call ∈ (calls cs).1, ∀ declared,
      callComplaints ⟨number, declared, symbols'⟩ call =
        callComplaints ⟨number, declared, symbols⟩ call := by
    intro call hcall declared
    obtain ⟨before, w, g, rest, rfl, -, -, -, -, hargs⟩ := exists_of_mem_calls hcall
    have htypes : call.args.map (infer symbols') = call.args.map (infer symbols) := by
      refine List.map_congr_left fun arg harg => infer_congr (h.part ?_)
      rw [hargs] at harg
      refine (splitArgs_isInfix harg).trans ((callInside_isInfix rest).trans ?_)
      exact ⟨before ++ (w ++ (g ++ ['('])), [], by simp⟩
    unfold callComplaints argsComplaints
    dsimp only
    rw [htypes]
  unfold expressionComplaints
  split
  · rfl
  · next first rest hfound =>
    rw [hfound] at hcalls
    refine List.flatMap_congr fun call hcall => ?_
    split <;> rw [hcalls call hcall]

end

end Check

namespace Walk

/-- On a topic of calls a line is told by the types of the names in it. -/
theorem about_complaints_names [Build] {t : Topic} {symbols symbols' : Symbols} {line : List Char}
    (ht : t.ofCall = true) (hnumber : t.ofNumber = false) (h : SameTypes symbols symbols' line)
    (w : Walk) (number : Nat) :
    about t (w.complaints symbols' number line) = about t (w.complaints symbols number line) := by
  have hnumbers : ∀ symbols d value, about t (numberComplaints symbols d value) = [] := by
    exact fun symbols d value => about_eq_nil fun c hc => topic_ne_of_number hc hnumber
  have hundeclared : ∀ names : List String, about t (names.map .undeclared) = [] := by
    refine fun names => about_eq_nil ?_
    rw [List.forall_mem_map]
    rintro name - rfl
    cases ht
  unfold complaints
  split
  · rfl
  · unfold statementComplaints
    dsimp only
    split
    · next d form =>
      obtain ⟨before, rest, htext, hvalue⟩ := exists_of_declaration? (declaration?_of_lineForm form)
      have hpart : trim d.value <:+: line := by
        rw [hvalue, htext]
        exact (trim_isInfix _).trans ((List.dropWhile_suffix isBlank).trans
          ((List.suffix_cons '=' rest).trans (List.suffix_append _ _))).isInfix
      unfold declarationComplaints
      simp only [about_append, about_ite, hnumbers, hundeclared,
        expressionComplaints_congr (h.part hpart)]
    · rfl
    · rfl
    · rw [expressionComplaints_congr h]
    · rfl
    · next value form =>
      rw [expressionComplaints_congr (h.part (suffix_of_assignedValue? (assignedValue?_of_lineForm form)).isInfix)]
    · rfl

end Walk

end EvlCheck
