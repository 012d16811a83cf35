/-
The rule that a message of validation calls for. A rule goes by words of a message. The names and numbers in
a message have none of these words, since each rule wants a phrase with a blank or a bracket in it. So a
message has the rule of its topic, whatever it names; only a message that quotes a text may have others.
-/
import EvlCheck.Fix.QuickFix
import EvlCheck.Proofs.Check.CalledNames
import EvlCheck.Proofs.Check.Sources

namespace EvlCheck

open Text Check

/-! ## Parts of a text -/

namespace Text

/-- A text has a part if the part stands somewhere in it. -/
theorem hasPart_iff {part : String} {cs : List Char} : hasPart part cs = true ↔ part.toList <:+: cs := by
  have hafter : ∀ cs, (after? part cs).isSome = true ↔ part.toList <+: cs := by
    intro cs
    rw [after?, Option.isSome_iff_exists]
    constructor
    · rintro ⟨rest, hrest⟩
      exact ⟨rest, List.append_eq_of_isPrefixOf?_eq_some hrest⟩
    · rintro ⟨rest, rfl⟩
      exact ⟨rest, List.isPrefixOf?_eq_some_iff_append_eq.2 rfl⟩
  unfold hasPart
  induction cs with
  | nil => rw [findFirst?, hafter, List.prefix_nil, List.infix_nil]
  | cons c cs ih =>
    rw [findFirst?, List.infix_cons_iff, ← hafter]
    cases after? part (c :: cs) with
    | none => simpa using ih
    | some rest => simp

variable {c : Char} {p xs ys word : List Char}

/-- A part without a character stands on one side of it. -/
theorem infix_append_cons_iff (hc : c ∉ p) : p <:+: xs ++ c :: ys ↔ p <:+: xs ∨ p <:+: ys := by
  constructor
  · rintro ⟨front, back, h⟩
    rw [List.append_assoc] at h
    rcases List.append_eq_append_iff.1 h with ⟨more, rfl, hmore⟩ | ⟨more, rfl, hmore⟩
    · rcases List.append_eq_append_iff.1 hmore with ⟨rest, rfl, -⟩ | ⟨rest, rfl, hrest⟩
      · exact .inl ⟨front, rest, List.append_assoc ..⟩
      · cases rest with
        | nil => exact .inl ⟨front, [], by simp⟩
        | cons d rest =>
          cases hrest
          exact absurd (List.mem_append_right _ List.mem_cons_self) hc
    · cases more with
      | nil =>
        rw [List.nil_append] at hmore
        cases p with
        | nil => exact .inl List.nil_infix
        | cons d p =>
          cases hmore
          exact absurd List.mem_cons_self hc
      | cons d more =>
        rw [List.cons_append, List.cons.injEq] at hmore
        exact .inr ⟨more, back, by rw [List.append_assoc, hmore.2]⟩
  · rintro (h | h)
    · exact h.trans (List.prefix_append _ _).isInfix
    · exact h.trans ((List.suffix_cons c ys).trans (List.suffix_append _ _)).isInfix

/-- A part stands in front of or behind a text of which it has no character. -/
theorem infix_append_append_iff (hp : p ≠ []) (hword : ∀ c ∈ word, c ∉ p) (hne : word ≠ []) :
    p <:+: xs ++ (word ++ ys) ↔ p <:+: xs ∨ p <:+: ys := by
  have hskip : ∀ {word : List Char}, (∀ c ∈ word, c ∉ p) → (p <:+: word ++ ys ↔ p <:+: ys) := by
    intro word hword
    induction word with
    | nil => rfl
    | cons c word ih =>
      rw [List.forall_mem_cons] at hword
      have hcut : p <:+: [] ++ c :: (word ++ ys) ↔ p <:+: [] ∨ p <:+: word ++ ys :=
        infix_append_cons_iff hword.1
      rwa [List.infix_nil, or_iff_right hp, ih hword.2] at hcut
  obtain ⟨c, word, rfl⟩ := List.exists_cons_of_ne_nil hne
  rw [List.forall_mem_cons] at hword
  rw [List.cons_append, infix_append_cons_iff hword.1, hskip hword.2]

end Text

/-! ## Phrases -/

namespace FixSite

/-- A phrase has a character that no word has, and neither a quote nor a digit. -/
def isPhrase (part : String) : Bool :=
  part.toList.any (!isWord ·) && part.toList.all fun c => c != '\'' && !isDecimal c

theorem of_isPhrase {part : String} (h : isPhrase part = true) :
    (∃ c ∈ part.toList, isWord c = false) ∧ '\'' ∉ part.toList ∧ ∀ c ∈ part.toList, isDecimal c = false := by
  simp only [isPhrase, Bool.and_eq_true, List.any_eq_true, List.all_eq_true, Bool.not_eq_true',
    bne_iff_ne] at h
  exact ⟨h.1, fun hmem => (h.2 _ hmem).1 rfl, fun c hc => (h.2 c hc).2⟩

/-- Two messages have the same phrases. -/
def SamePhrases (m m' : List Char) : Prop := ∀ part, isPhrase part = true → hasPart part m = hasPart part m'

theorem SamePhrases.trans {m m' m'' : List Char} (h : SamePhrases m m') (h' : SamePhrases m' m'') :
    SamePhrases m m'' := fun part hpart => (h part hpart).trans (h' part hpart)

section

variable {a b word : List Char}

/-- A quoted word adds no phrase. -/
theorem samePhrases_quoted (ha : a.getLast? = some '\'') (hb : b.head? = some '\'')
    (hword : ∀ c ∈ word, isWord c = true) : SamePhrases (a ++ (word ++ b)) (a ++ b) := by
  intro part hpart
  obtain ⟨⟨c, hc, hnone⟩, hquote, -⟩ := of_isPhrase hpart
  have hout : ¬ part.toList <:+: word := by
    intro hpart
    rw [hword c (hpart.subset hc)] at hnone
    cases hnone
  obtain ⟨a, rfl⟩ := List.getLast?_eq_some_iff.1 ha
  obtain ⟨b, rfl⟩ := List.head?_eq_some_iff.1 hb
  have hempty : part.toList <:+: [] ++ '\'' :: b ↔ part.toList <:+: [] ∨ part.toList <:+: b :=
    infix_append_cons_iff hquote
  rw [List.infix_nil, or_iff_right (List.ne_nil_of_mem hc), List.nil_append] at hempty
  rw [Bool.eq_iff_iff, hasPart_iff, hasPart_iff, List.append_assoc, List.append_assoc,
    List.singleton_append, List.singleton_append, infix_append_cons_iff hquote,
    infix_append_cons_iff hquote, infix_append_cons_iff hquote, or_iff_right hout, hempty]

/-- Two quoted words add no phrase. -/
theorem samePhrases_quoted_two {c other : List Char} (ha : a.getLast? = some '\'')
    (hb : b.head? = some '\'') (hb' : b.getLast? = some '\'') (hc : c.head? = some '\'')
    (hword : ∀ d ∈ word, isWord d = true) (hother : ∀ d ∈ other, isWord d = true) :
    SamePhrases (a ++ (word ++ (b ++ (other ++ c)))) (a ++ (b ++ c)) := by
  have hfirst : SamePhrases (a ++ (word ++ (b ++ (other ++ c)))) (a ++ (b ++ (other ++ c))) :=
    samePhrases_quoted ha (by rw [List.head?_append, hb]; rfl) hword
  have hsecond : SamePhrases ((a ++ b) ++ (other ++ c)) ((a ++ b) ++ c) :=
    samePhrases_quoted (by rw [List.getLast?_append, hb']; rfl) hc hother
  rw [List.append_assoc, List.append_assoc] at hsecond
  exact hfirst.trans hsecond

/-- One number or another makes no difference to a part without a digit. -/
theorem hasPart_digits {part : String} (hne : part.toList ≠ [])
    (hpart : ∀ c ∈ part.toList, isDecimal c = false) (hword : ∀ c ∈ word, isDecimal c = true)
    (hsome : word ≠ []) : hasPart part (a ++ (word ++ b)) = hasPart part (a ++ '0' :: b) := by
  have hnot : ∀ c, isDecimal c = true → c ∉ part.toList := by
    intro c hc hmem
    rw [hpart c hmem] at hc
    cases hc
  rw [Bool.eq_iff_iff, hasPart_iff, hasPart_iff, infix_append_cons_iff (hnot '0' (by decide)),
    infix_append_append_iff hne (fun c hc => hnot c (hword c hc)) hsome]

theorem samePhrases_digits (hword : ∀ c ∈ word, isDecimal c = true) (hsome : word ≠ []) :
    SamePhrases (a ++ (word ++ b)) (a ++ '0' :: b) := by
  intro part hpart
  obtain ⟨⟨c, hc, -⟩, -, hdigits⟩ := of_isPhrase hpart
  exact hasPart_digits (List.ne_nil_of_mem hc) hdigits hword hsome

end

/-! ## Rules -/

/-- What the rules offer whose words are in a message. -/
def offers (m : List Char) : List (FixSite → List CodeAction) :=
  (rules.filter fun rule => rule.1 m).map (·.2)

theorem fixes_eq (s : FixSite) : s.fixes = (offers s.message).flatMap fun offer => offer s := by
  unfold fixes offers
  generalize rules = rules
  induction rules with
  | nil => rfl
  | cons rule rules ih =>
    rw [List.flatMap_cons, ih, List.filter_cons]
    dsimp only
    split <;> rfl

/-- By their phrases messages are told apart to the rules, but for the word in the rule on arguments. -/
theorem rules_congr {m m' : List Char} (h : SamePhrases m m')
    (hexpects : hasPart "argument(s)" m' = false ∨ hasPart "expects" m = hasPart "expects" m') :
    rules.map (·.1 m) = rules.map (·.1 m') := by
  have hrules : ∀ rule ∈ rules, rule.1 m = rule.1 m' := by
    unfold rules
    simp only [List.forall_mem_cons]
    refine ⟨h _ (by decide), h _ (by decide), h _ (by decide), ?_, ?_, ?_, h _ (by decide), h _ (by decide),
      h _ (by decide), h _ (by decide), ?_, h _ (by decide), List.forall_mem_nil _⟩
    · rw [h "implicit conversion" (by decide), h "Cast type" (by decide)]
    · rw [h "Cast type" (by decide), h "does not match declared variable type" (by decide)]
    · rw [h "always returns" (by decide), h "arguments returns" (by decide),
        h "but variable is declared as" (by decide)]
    · rw [h "argument(s)" (by decide)]
      rcases hexpects with hargs | hexpects
      · rw [hargs, Bool.and_false, Bool.and_false]
      · rw [hexpects]
  exact List.map_congr_left hrules

end FixSite

namespace Check

/-- What is offered on a topic. -/
def Topic.offer? : Topic → Option (FixSite → List CodeAction)
  | .valueless => some FixSite.assignDefault
  | .intLiteral => some FixSite.useFloatLiteral
  | .repeated => some FixSite.removeDuplicate
  | .floatLiteral | .floatVariable | .conversion => some FixSite.castToInt
  | .castMismatch => some FixSite.fixCastMismatch
  | .alwaysFloat | .floatFromArguments => some FixSite.fixReturnMismatch
  | .mixedTypes => some FixSite.castAllArguments
  | .division => some FixSite.wrapInTry
  | .undeclared => some FixSite.declareIdentifier
  | .invalidTarget => some FixSite.replaceCastTarget
  | .tooFew | .tooMany => some FixSite.showSignature
  | .nameless => some FixSite.addPlaceholder
  | .unknownFunction | .unrecognized => none

theorem isDecimal_toString (n : Nat) : ∀ c ∈ (toString n).toList, isDecimal c = true := by
  intro c hc
  have hdigits : (toString n).toList = Nat.toDigits 10 n := by simp [toString, Nat.repr]
  rw [hdigits] at hc
  have hdigit := Nat.isDigit_of_mem_toDigits (by decide) (by decide) hc
  have hascii : c.toNat < 128 := by
    simp only [Char.isDigit, Bool.and_eq_true, decide_eq_true_eq, UInt32.le_iff_toNat_le] at hdigit
    exact Nat.lt_of_le_of_lt hdigit.2 (by decide)
  rw [isDecimal, if_pos hascii, hdigit]

theorem toString_ne_nil (n : Nat) : (toString n).toList ≠ [] := by
  have hdigits : (toString n).toList = Nat.toDigits 10 n := by simp [toString, Nat.repr]
  rw [hdigits]
  exact Nat.toDigits_ne_nil

/-- The place of its rule among the rules. -/
def Topic.rule? : Topic → Option Nat
  | .valueless => some 0
  | .intLiteral => some 1
  | .repeated => some 2
  | .floatLiteral | .floatVariable | .conversion => some 3
  | .castMismatch => some 4
  | .alwaysFloat | .floatFromArguments => some 5
  | .mixedTypes => some 6
  | .division => some 7
  | .undeclared => some 8
  | .invalidTarget => some 9
  | .tooFew | .tooMany => some 10
  | .nameless => some 11
  | .unknownFunction | .unrecognized => none

/-- A message has the words of the rule on a topic and of no other. -/
def Topic.Calls (t : Topic) (m : List Char) : Prop :=
  FixSite.rules.map (·.1 m) = (List.range 12).map fun k => decide (t.rule? = some k)

theorem Topic.Calls.offers_eq {t : Topic} {m : List Char} (h : t.Calls m) :
    FixSite.offers m = t.offer?.toList := by
  have hoffers : ∀ rules : List ((List Char → Bool) × (FixSite → List CodeAction)),
      (rules.filter fun rule => rule.1 m).map (·.2) =
        (((rules.map (·.1 m)).zip (rules.map (·.2))).filter (·.1)).map (·.2) := by
    intro rules
    induction rules with
    | nil => rfl
    | cons rule rules ih =>
      rw [List.map_cons, List.map_cons, List.zip_cons_cons, List.filter_cons, List.filter_cons]
      dsimp only
      split
      · rw [List.map_cons, List.map_cons, ih]
      · exact ih
  rw [Topic.Calls] at h
  rw [FixSite.offers, hoffers, h]
  cases t <;> rfl

instance (t : Topic) (m : List Char) : Decidable (t.Calls m) := inferInstanceAs (Decidable (_ = _))

example : Topic.Calls .division "Division by zero detected".toList := by rfl

end Check

end EvlCheck
