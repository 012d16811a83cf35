/-
Fixes for a statement that is not recognized. The finding quotes the statement, and rules go by the words
of the message without a look at quotes. So the rules of such a finding are those that have their words in
the statement itself (`fixes_of_quoted`): mostly none, but the statement can be written so that there are
some. The finding on an unknown function quotes a name only, which has the words of no rule.
-/
import EvlCheck.Proofs.Fix.Wording
import EvlCheck.Proofs.Check.LineOrder

namespace EvlCheck

open Text Check

namespace Check

/-! ## The complaint by the first words of its message -/

/-- The first letters of a message are those of its complaint. -/
theorem Complaint.initials_eq_take {c : Complaint} {p : List Char} (h : p <+: c.message.toList)
    (hp : 3 ≤ p.length) : c.initials = p.take 3 := by
  have hlength : c.initials.length = 3 := by
    cases c with
    | call c => cases c <;> rfl
    | _ => rfl
  rcases List.prefix_or_prefix_of_prefix c.begins h with hprefix | hprefix
  · rw [List.prefix_iff_eq_take.1 hprefix, hlength]
  · have heq : p.length = 3 := by
      have := hprefix.length_le
      omega
    rw [← hprefix.eq_of_length (by omega), List.take_of_length_le (by omega)]

theorem Complaint.exists_of_opening_unrecognized {c : Complaint}
    (h : "Unrecognized statement".toList <+: c.message.toList) : ∃ line, c = .unrecognized line := by
  have hinitials : c.initials = ['U', 'n', 'r'] := c.initials_eq_take h (by decide)
  cases c with
  | unrecognized line => exact ⟨line, rfl⟩
  | call c => cases c <;> cases hinitials
  | _ => cases hinitials

theorem Complaint.exists_of_opening_unknown {c : Complaint}
    (h : "Unknown function".toList <+: c.message.toList) :
    ∃ name, c = .call (.unknownFunction name) := by
  have hinitials : c.initials = ['U', 'n', 'k'] := c.initials_eq_take h (by decide)
  cases c with
  | call c =>
    cases c with
    | unknownFunction name => exact ⟨name, rfl⟩
    | _ => cases hinitials
  | _ => cases hinitials

/-- Each finding that an analysis shows comes of a complaint about a line of the script. -/
theorem exists_complaint_of_mem_analyze [Build] {prefs : AnalysisPreferences} {source : String}
    {d : Diagnostic} (hd : d ∈ (analyze prefs source).1) :
    ∃ (w : Walk) (line : List Char) (c : Complaint),
      (Script.ofSource source.toList).lines[d.line - 1]? = some line ∧
        c ∈ w.complaints (Script.ofSource source.toList).symbols d.line line ∧
        c.message = d.message := by
  rw [analyze_eq_take] at hd
  obtain ⟨before, line, behind, hlines, hstep⟩ :=
    Walk.mem_findings_iff.1 (List.mem_of_mem_take hd)
  rw [Walk.findings_step] at hstep
  obtain ⟨c, hc, hcd⟩ := List.mem_map.1 hstep
  have hnumber : d.line = 1 + before.length := by rw [← hcd, Complaint.line_diagnostic]
  refine ⟨before.foldl Walk.pass {}, line, c, ?_, hnumber ▸ hc, ?_⟩
  · rw [hlines, hnumber, Nat.add_sub_cancel_left, List.getElem?_append_right (Nat.le_refl _),
      Nat.sub_self, List.getElem?_cons_zero]
  · rw [← hcd, Complaint.message_diagnostic]

end Check

/-! ## Rules on a quoted text -/

namespace FixSite

/-- The phrases that the rules go by. -/
def phrases : List String :=
  ["declared but never assigned", "must be initialised with a float literal", "already declared",
    "implicit conversion", "Cast type", "does not match declared variable type", "always returns",
    "arguments returns", "but variable is declared as", "requires all arguments to be the same type",
    "Division by zero", "undeclared identifier", "Invalid cast target type", "expects",
    "argument(s)", "missing a name"]

/-- Two messages with the same phrases of rules have the same rules. -/
theorem rules_congr_phrases {m m' : List Char}
    (h : ∀ part ∈ phrases, hasPart part m = hasPart part m') :
    rules.map (·.1 m) = rules.map (·.1 m') := by
  simp only [phrases, List.forall_mem_cons] at h
  simp only [rules, List.map_cons, List.map_nil, h]

/-- No phrase has a quote or stands in the words in front of the quoted statement. -/
theorem phrase_shape {part : String} (hpart : part ∈ phrases) :
    '\'' ∉ part.toList ∧ part.toList ≠ [] ∧
      ¬ part.toList <:+: "Unrecognized statement: ".toList := by
  have hall : phrases.all (fun part => !part.toList.contains '\'' && !part.toList.isEmpty &&
      !hasPart part "Unrecognized statement: ".toList) = true := by
    unfold phrases hasPart after?
    simp only [List.all_cons, List.all_nil]
    -- A text in quotes is opened by this equation; the kernel would decode its bytes.
    repeat rw [String.toList_ofList]
    decide +kernel
  have hshape := List.all_eq_true.1 hall part hpart
  simp only [Bool.and_eq_true, Bool.not_eq_true', List.contains_eq_mem, decide_eq_false_iff_not,
    List.isEmpty_eq_false_iff] at hshape
  refine ⟨hshape.1.1, hshape.1.2, fun hinfix => ?_⟩
  rw [hasPart_iff.2 hinfix] at hshape
  cases hshape.2

/-- The phrases of rules in the message are those in the statement that it quotes. -/
theorem hasPart_unrecognized {part : String} (hpart : part ∈ phrases) (statement : List Char) :
    hasPart part (Complaint.unrecognized statement).message.toList = hasPart part statement := by
  obtain ⟨hquote, hne, hout⟩ := phrase_shape hpart
  have hmessage : (Complaint.unrecognized statement).message.toList =
      "Unrecognized statement: ".toList ++ '\'' :: (statement ++ '\'' :: []) := by
    unfold Complaint.message
    simp only [String.toList_append, List.append_assoc, toString]
    repeat rw [String.toList_ofList]
    rfl
  rw [Bool.eq_iff_iff, hasPart_iff, hasPart_iff, hmessage, infix_append_cons_iff hquote,
    infix_append_cons_iff hquote, or_iff_right hout, List.infix_nil, or_iff_left hne]

/-- With the same rules the same is offered. -/
theorem offers_congr {m m' : List Char} (h : rules.map (·.1 m) = rules.map (·.1 m')) :
    offers m = offers m' := by
  rw [List.map_inj_left] at h
  unfold offers
  rw [List.filter_congr h]

end FixSite

/-- What is offered on a finding about an unknown function or about a statement that is not
recognized. On the first there is no fix. The second quotes its statement, and the rules on it are
those on the statement: there is a fix only where the statement has the words of a rule. -/
theorem fixes_of_quoted [Build] {prefs : AnalysisPreferences} {source : String} {d : Diagnostic}
    (hd : d ∈ (analyze prefs source).1) (line : List Char) (version : Nat) :
    let site : FixSite := ⟨d, line, version⟩
    ("Unknown function".toList <+: d.message.toList → site.fixes = []) ∧
      ("Unrecognized statement".toList <+: d.message.toList →
        ∃ statement, (Script.ofSource source.toList).lines[d.line - 1]? = some statement ∧
          d.message = (Complaint.unrecognized statement).message ∧
          FixSite.rules.map (·.1 site.message) = FixSite.rules.map (·.1 statement) ∧
          site.fixes = (FixSite.offers statement).flatMap fun offer => offer site) := by
  intro site
  obtain ⟨w, statement, c, hstatement, hc, hmessage⟩ := exists_complaint_of_mem_analyze hd
  constructor
  · intro hopening
    rw [← hmessage] at hopening
    obtain ⟨name, rfl⟩ := Complaint.exists_of_opening_unknown hopening
    have hcalls : Topic.Calls .unknownFunction site.message := by
      rw [FixSite.message, ← hmessage]
      exact (Walk.worded_of_mem_complaints hc rfl).calls
    rw [FixSite.fixes_eq, hcalls.offers_eq]
    rfl
  · intro hopening
    rw [← hmessage] at hopening
    obtain ⟨quoted, rfl⟩ := Complaint.exists_of_opening_unrecognized hopening
    obtain ⟨-, -, -, rfl⟩ := Walk.unrecognized_mem_complaints hc
    -- The words around the quoted statement call for no rule.
    have hrules : FixSite.rules.map (·.1 site.message) = FixSite.rules.map (·.1 quoted) := by
      rw [FixSite.message, ← hmessage]
      exact FixSite.rules_congr_phrases fun part hpart => FixSite.hasPart_unrecognized hpart quoted
    refine ⟨quoted, hstatement, hmessage.symm, hrules, ?_⟩
    rw [FixSite.fixes_eq, FixSite.offers_congr hrules]

/-- No fix is offered on an unknown function and on a statement without the words of a rule. -/
theorem fixes_of_quoted_plain :
    let source := "foo(1)\njump"
    let unknown := Diagnostic.warning 1 "Unknown function 'foo' — is this a built-in or typo?"
    let other := Diagnostic.warning 2 "Unrecognized statement: 'jump'"
    (analyze {} source).1 = [unknown, other] ∧ FixSite.fixes ⟨unknown, "foo(1)".toList, 1⟩ = [] ∧
      FixSite.fixes ⟨other, "jump".toList, 1⟩ = [] := by
  intro source unknown other
  have hshown : (analyze {} source).1 = [unknown, other] := by
    decide +kernel
  have hunknown : unknown ∈ (analyze {} source).1 := hshown ▸ List.mem_cons_self
  have hother : other ∈ (analyze {} source).1 := hshown ▸ .tail _ List.mem_cons_self
  have hnone : FixSite.fixes ⟨unknown, "foo(1)".toList, 1⟩ = [] :=
    (fixes_of_quoted hunknown "foo(1)".toList 1).1 (List.isPrefixOf_iff_prefix.1 (by decide +kernel))
  obtain ⟨statement, hline, -, -, hfixes⟩ := (fixes_of_quoted hother "jump".toList 1).2
    (List.isPrefixOf_iff_prefix.1 (by decide +kernel))
  have hlines : (Script.ofSource source.toList).lines[other.line - 1]? = some "jump".toList := by
    decide +kernel
  rw [hlines, Option.some.injEq] at hline
  subst hline
  have hoffers : FixSite.offers "jump".toList = [] := by
    rw [FixSite.offers, List.map_eq_nil_iff, List.filter_eq_nil_iff]
    decide +kernel
  refine ⟨hshown, hnone, ?_⟩
  rw [hfixes, hoffers]
  rfl

/-- A statement that has the words of a rule is quoted with them, and the rule offers its fix. -/
theorem fixes_of_quoted_declared :
    let source := "already declared"
    let d := Diagnostic.warning 1 "Unrecognized statement: 'already declared'"
    (analyze {} source).1 = [d] ∧ FixSite.fixes ⟨d, source.toList, 1⟩ =
      [.quickFix "Remove duplicate declaration" d ⟨.lineWithBreak 1, "", 1⟩ true] := by
  decide +kernel

end EvlCheck
