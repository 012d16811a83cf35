/-
The topic of a message. Messages on different topics differ in their words before the first quote, or
in the first letters behind the name that is quoted there. So findings with the same message are on the
same topic, and how many there are of one is known from the complaints on its topic. Each topic depends
on a part of the walk only: on the types of the variables, on the open `try`, or on the names declared
above (`told_congr`).
-/
import EvlCheck.Proofs.Check.Grounds

namespace EvlCheck

open Text Check

/-! ## Topics -/

namespace Check

/-- What a complaint is about, without its names. Both complaints about a cast to another type than the
declared one are on one topic. -/
inductive Topic where
  | unknownFunction | tooFew | tooMany | invalidTarget | castMismatch | mixedTypes
  | floatFromArguments | alwaysFloat | intLiteral | floatLiteral | floatVariable | conversion
  | repeated | undeclared | division | nameless | valueless | unrecognized
  deriving DecidableEq

def CallComplaint.topic : CallComplaint → Topic
  | .unknownFunction _ => .unknownFunction
  | .tooFew .. => .tooFew
  | .tooMany .. => .tooMany
  | .invalidTarget _ => .invalidTarget
  | .targetMismatch .. => .castMismatch
  | .mixedTypes .. => .mixedTypes
  | .floatFromArguments .. => .floatFromArguments
  | .alwaysFloat _ => .alwaysFloat

def Complaint.topic : Complaint → Topic
  | .call c => c.topic
  | .intLiteral .. => .intLiteral
  | .floatLiteral _ => .floatLiteral
  | .floatVariable _ => .floatVariable
  | .castTarget .. => .castMismatch
  | .conversion _ => .conversion
  | .repeated _ => .repeated
  | .undeclared _ => .undeclared
  | .division => .division
  | .nameless => .nameless
  | .valueless _ => .valueless
  | .unrecognized _ => .unrecognized

namespace Topic

def all : List Topic :=
  [.unknownFunction, .tooFew, .tooMany, .invalidTarget, .castMismatch, .mixedTypes,
    .floatFromArguments, .alwaysFloat, .intLiteral, .floatLiteral, .floatVariable, .conversion,
    .repeated, .undeclared, .division, .nameless, .valueless, .unrecognized]

theorem mem_all (t : Topic) : t ∈ all := by cases t <;> decide

/-- The words before the first quote. -/
def opening : Topic → List Char
  | unknownFunction => "Unknown function ".toList
  | tooFew | tooMany | mixedTypes | floatFromArguments | alwaysFloat => "Function ".toList
  | invalidTarget => "Invalid cast target type ".toList
  | castMismatch => "Cast type ".toList
  | intLiteral => "Float variable ".toList
  | floatLiteral => "Assigning float literal to ".toList
  | floatVariable => "Assigning float variable to ".toList
  | conversion => "Expression evaluates to ".toList
  | repeated | valueless => "Variable ".toList
  | undeclared => "Reference to undeclared identifier ".toList
  | division => "Division by zero detected".toList
  | nameless => "Variable declaration is missing a name (e.g. `int x = ...`)".toList
  | unrecognized => "Unrecognized statement: ".toList

/-- The second quote and the letters behind it, for topics that share their opening. -/
def closing : Topic → List Char
  | tooFew => "' expects at l".toList
  | tooMany => "' expects at m".toList
  | mixedTypes => "' r".toList
  | floatFromArguments => "' w".toList
  | alwaysFloat => "' a".toList
  | repeated => "' i".toList
  | valueless => "' d".toList
  | _ => []

theorem eq_of_opening {t t' : Topic} (h : t.opening = t'.opening)
    (hclosing : t.closing <+: t'.closing ∨ t'.closing <+: t.closing) : t = t' := by
  have hall : ∀ t ∈ all, ∀ t' ∈ all, t.opening = t'.opening →
      t.closing <+: t'.closing ∨ t'.closing <+: t.closing → t = t' := by
    unfold opening closing
    -- A text in quotes is opened by this equation; the kernel would decode its bytes.
    repeat rw [String.toList_ofList]
    decide +kernel
  exact hall t t.mem_all t' t'.mem_all h hclosing

end Topic

/-! ## The topic of a message -/

/-- The text before the first quote. -/
def beforeQuote (cs : List Char) : List Char := cs.takeWhile (· != '\'')

/-- The text from the second quote on. -/
def fromSecondQuote (cs : List Char) : List Char :=
  ((cs.dropWhile (· != '\'')).drop 1).dropWhile (· != '\'')

theorem fromSecondQuote_append {a name b : List Char} (ha : '\'' ∉ a) (hname : '\'' ∉ name)
    (hb : b.head? = some '\'') : fromSecondQuote (a ++ '\'' :: (name ++ b)) = b := by
  have hdrop : ∀ {xs ys : List Char}, '\'' ∉ xs →
      (xs ++ '\'' :: ys).dropWhile (· != '\'') = '\'' :: ys := by
    intro xs ys hxs
    rw [List.dropWhile_append_of_pos fun c hc => ?_]
    · rfl
    · simpa using ne_of_mem_of_not_mem hc hxs
  obtain ⟨b, rfl⟩ := List.head?_eq_some_iff.1 hb
  unfold fromSecondQuote
  rw [hdrop ha]
  exact hdrop hname

theorem Complaint.beforeQuote_message (c : Complaint) :
    beforeQuote c.message.toList = c.topic.opening := by
  -- A text in quotes is opened by this equation; the kernel would decode its bytes.
  cases c with
  | call c =>
    unfold message CallComplaint.message topic CallComplaint.topic Topic.opening
    cases c <;>
      (simp only [String.toList_append, List.append_assoc, toString]
       repeat rw [String.toList_ofList]
       rfl)
  | _ =>
    unfold message topic Topic.opening
    simp only [String.toList_append, List.append_assoc, toString]
    repeat rw [String.toList_ofList]
    rfl

/-- The name that the message quotes first has no quote itself, where the letters behind it tell the
topic. -/
def Complaint.Named : Complaint → Prop
  | .call (.tooFew name ..) | .call (.tooMany name ..) | .call (.mixedTypes name _)
  | .call (.floatFromArguments name _) | .call (.alwaysFloat name) | .repeated name
  | .valueless name => '\'' ∉ name.toList
  | _ => True

set_option maxRecDepth 1000 in
theorem Complaint.closing_isPrefix {c : Complaint} (h : c.Named) :
    c.topic.closing <+: fromSecondQuote c.message.toList := by
  have hfunction : ∀ {name b closing : List Char}, '\'' ∉ name → b.head? = some '\'' →
      closing.isPrefixOf b = true →
      closing <+: fromSecondQuote ((toString "Function '").toList ++ (name ++ b)) := by
    intro name b closing hname hb hclosing
    have heq := fromSecondQuote_append (a := "Function ".toList) (by decide) hname hb
    have hprefix : closing <+: _ := List.isPrefixOf_iff_prefix.1 hclosing
    rw [← heq] at hprefix
    exact hprefix
  have hvariable : ∀ {name b closing : List Char}, '\'' ∉ name → b.head? = some '\'' →
      closing.isPrefixOf b = true →
      closing <+: fromSecondQuote ((toString "Variable '").toList ++ (name ++ b)) := by
    intro name b closing hname hb hclosing
    have heq := fromSecondQuote_append (a := "Variable ".toList) (by decide) hname hb
    have hprefix : closing <+: _ := List.isPrefixOf_iff_prefix.1 hclosing
    rw [← heq] at hprefix
    exact hprefix
  cases c with
  | call c =>
    cases c with
    | unknownFunction name => exact List.nil_prefix
    | invalidTarget target => exact List.nil_prefix
    | targetMismatch target declared => exact List.nil_prefix
    | _ =>
      unfold message CallComplaint.message
      simp only [String.toList_append, List.append_assoc]
      refine hfunction h ?_ ?_ <;> (simp only [toString]; rw [String.toList_ofList]; rfl)
  | repeated name =>
    unfold message
    simp only [String.toList_append, List.append_assoc]
    refine hvariable h ?_ ?_ <;> (simp only [toString]; rw [String.toList_ofList]; rfl)
  | valueless name =>
    unfold message
    simp only [String.toList_append, List.append_assoc]
    refine hvariable h ?_ ?_ <;> (simp only [toString]; rw [String.toList_ofList]; rfl)
  | _ => exact List.nil_prefix

/-- Complaints with the same message are on the same topic. -/
theorem Complaint.topic_eq {c c' : Complaint} (hc : c.Named) (hc' : c'.Named)
    (h : c.message = c'.message) : c.topic = c'.topic := by
  refine Topic.eq_of_opening ?_ ?_
  · rw [← beforeQuote_message, ← beforeQuote_message, h]
  · have hclosing := closing_isPrefix hc
    rw [h] at hclosing
    exact List.prefix_or_prefix_of_prefix hclosing (closing_isPrefix hc')

/-- A message of this form tells of an undeclared name, whatever the name. -/
theorem Complaint.eq_undeclared {c : Complaint} {name : String}
    (h : c.message = (Complaint.undeclared name).message) : c = .undeclared name := by
  have htopic : c.topic = .undeclared := by
    refine Topic.eq_of_opening ?_ (.inr List.nil_prefix)
    rw [← beforeQuote_message, h, beforeQuote_message]
    rfl
  cases c with
  | undeclared other =>
    have htext := congrArg String.toList h
    unfold message at htext
    simp only [String.toList_append, List.append_assoc] at htext
    exact congrArg _ (String.toList_inj.1 ((List.append_left_inj _).1 (List.append_cancel_left htext)))
  | call c => cases c <;> cases htopic
  | _ => cases htopic

theorem Topic.eq_of_opening_repeated {t : Topic} (h : t.opening = Topic.repeated.opening) :
    t = .repeated ∨ t = .valueless := by
  have hall : ∀ t ∈ Topic.all, t.opening = Topic.repeated.opening → t = .repeated ∨ t = .valueless := by
    unfold Topic.opening
    repeat rw [String.toList_ofList]
    decide +kernel
  exact hall t t.mem_all h

theorem Complaint.suffix_repeated (name : String) :
    "' is already declared".toList <:+ (repeated name).message.toList := by
  unfold message
  simp only [String.toList_append]
  exact List.suffix_append _ _

/-- The two topics on a variable differ in the last words of their messages. -/
theorem Complaint.not_suffix_valueless (name : String) :
    ¬ "' is already declared".toList <:+ (valueless name).message.toList := by
  intro h
  have hown : "' declared but never assigned".toList <:+ (valueless name).message.toList := by
    unfold message
    simp only [String.toList_append]
    exact List.suffix_append _ _
  have hends := List.suffix_or_suffix_of_suffix hown h
  exact absurd hends (by decide)

/-- A message of this form tells of a name that is declared once more, whatever the name. -/
theorem Complaint.eq_repeated {c : Complaint} {name : String}
    (h : c.message = (Complaint.repeated name).message) : c = .repeated name := by
  have htopic : c.topic = .repeated ∨ c.topic = .valueless := by
    refine Topic.eq_of_opening_repeated ?_
    rw [← beforeQuote_message, h, beforeQuote_message]
    rfl
  cases c with
  | repeated other =>
    have htext := congrArg String.toList h
    unfold message at htext
    simp only [String.toList_append, List.append_assoc] at htext
    exact congrArg _ (String.toList_inj.1 ((List.append_left_inj _).1 (List.append_cancel_left htext)))
  | valueless other => exact absurd (h ▸ suffix_repeated name) (not_suffix_valueless other)
  | call c => cases c <;> rcases htopic with htopic | htopic <;> cases htopic
  | _ => rcases htopic with htopic | htopic <;> cases htopic

end Check

end EvlCheck
