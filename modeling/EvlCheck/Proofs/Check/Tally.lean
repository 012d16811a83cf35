/-
How many findings with one message a walk over lines has. The number is the sum over the lines
(`countP_findings`), and what a line adds to it depends, by the topic of the message, on a part of the
walk only: on the types of the variables, on the open `try`, on the names declared above, or on nothing
but the line (`told_congr`). So two walks that agree in that part tell the same.
-/
import EvlCheck.Proofs.Check.Topics

namespace EvlCheck

open Text Check

/-! ## Names in complaints -/

namespace Check

theorem isWord_of_namedHead? {cs name rest : List Char} {constant : Bool} {type : ValueType}
    (h : namedHead? cs = some (constant, type, name, rest)) : name ≠ [] ∧ ∀ c ∈ name, isWord c = true := by
  unfold namedHead? at h
  simp only [Option.bind_eq_bind, Option.bind_eq_some_iff, Option.pure_def, Option.some.injEq,
    Prod.mk.injEq, Prod.exists] at h
  obtain ⟨_, _, _, -, _, -, word, _, hword, -, -, rfl, -⟩ := h
  exact isWord_of_word? hword

theorem isWord_of_declaration? {cs : List Char} {d : Declaration} (h : declaration? cs = some d) :
    d.name.toList ≠ [] ∧ ∀ c ∈ d.name.toList, isWord c = true := by
  unfold declaration? at h
  simp only [Option.bind_eq_bind, Option.bind_eq_some_iff, Option.pure_def, Option.some.injEq,
    Prod.exists] at h
  obtain ⟨_, _, _, _, hhead, _, -, _, -, rfl⟩ := h
  rw [String.toList_ofList]
  exact isWord_of_namedHead? hhead

theorem isWord_of_valueless? {cs : List Char} {name : String} (h : valueless? cs = some name) :
    name.toList ≠ [] ∧ ∀ c ∈ name.toList, isWord c = true := by
  unfold valueless? at h
  simp only [Option.bind_eq_bind, Option.bind_eq_some_iff, Prod.exists] at h
  obtain ⟨_, _, _, _, hhead, h⟩ := h
  split at h <;> cases h
  rw [String.toList_ofList]
  exact isWord_of_namedHead? hhead

theorem valueless?_of_lineForm {cs : List Char} {name : String}
    (h : lineForm cs = .valueless name) : valueless? cs = some name := by
  unfold lineForm at h
  split at h
  · cases h
  · split at h
    · cases h
    · split at h
      · next other hname =>
        cases h
        exact hname
      · repeat' split at h
        all_goals cases h

theorem text_of_ofText? {text : String} {type : ValueType} (h : ValueType.ofText? text = some type) :
    type.text = text := by
  unfold ValueType.ofText? at h
  split at h <;> cases h <;> rfl

theorem isWord_text (type : ValueType) :
    (∀ c ∈ type.text.toList, isWord c = true) ∧ type.text.toList ≠ [] := by
  cases type <;> exact ⟨List.all_eq_true.1 (by decide +kernel), by decide⟩

theorem quote_not_mem {name : List Char} (h : ∀ c ∈ name, isWord c = true) : '\'' ∉ name := by
  intro hmem
  exact absurd (h _ hmem) (by decide)

theorem Signature.quote_not_mem {name : String} {s : Signature} (h : Signature.find? name = some s) :
    '\'' ∉ s.name.toList := by
  have hall : ∀ s ∈ Signature.all, '\'' ∉ s.name.toList := by decide +kernel
  exact hall s (List.mem_of_find?_eq_some h)

theorem named_of_mem_callComplaints [Build] {site : CallSite} {call : CallText} {c : CallComplaint}
    (h : c ∈ callComplaints site call) : (Complaint.call c).Named := by
  unfold callComplaints at h
  split at h
  · cases h
  · split at h
    · rw [List.mem_singleton] at h
      subst h
      trivial
    · next s hfind =>
      have hname := Signature.quote_not_mem hfind
      split at h
      · next c' hc =>
        rw [List.mem_singleton] at h
        subst h
        rcases arityComplaint?_cases hc with ⟨rfl, -⟩ | ⟨_, rfl, -⟩ <;> exact hname
      · split at h
        · split at h
          · cases h
          · rcases castComplaint?_cases (Option.mem_toList.1 h) with ⟨rfl, -⟩ | ⟨_, _, rfl, -⟩ <;> trivial
        · rcases List.mem_append.1 h with h | h
          · split at h
            · obtain ⟨_, _, -, ⟨rfl, -⟩ | ⟨rfl, -⟩⟩ := argsComplaint?_cases (Option.mem_toList.1 h) <;> exact hname
            · cases h
          · split at h
            · rw [List.mem_singleton] at h
              subst h
              exact hname
            · cases h

theorem named_of_mem_expressionComplaints [Build] {site : CallSite} {cs : List Char} {c : Complaint}
    (h : c ∈ expressionComplaints site cs) : c.Named := by
  unfold expressionComplaints at h
  split at h
  · cases h
  · obtain ⟨call, -, h⟩ := List.mem_flatMap.1 h
    obtain ⟨complaint, hmem, rfl⟩ := List.mem_map.1 h
    exact named_of_mem_callComplaints hmem

end Check

namespace Walk

/-- The name that a message quotes first is a word. -/
theorem named_of_mem_complaints [Build] {symbols : Symbols} {w : Walk} {number : Nat}
    {line : List Char} {c : Complaint} (h : c ∈ w.complaints symbols number line) : c.Named := by
  obtain ⟨-, -, w, h⟩ := mem_complaints h
  unfold statementComplaints at h
  dsimp only at h
  split at h
  · next d hd =>
    have hname := quote_not_mem (isWord_of_declaration? (declaration?_of_lineForm hd)).2
    rcases mem_declarationComplaints h with rfl | hnumeric | rfl | ⟨name, rfl⟩ | h
    · exact hname
    · cases c with
      | call c => cases c <;> trivial
      | _ => trivial
    · trivial
    · trivial
    · exact named_of_mem_expressionComplaints h
  · rw [List.mem_singleton.1 h]
    trivial
  · next name hform =>
    rw [List.mem_singleton.1 h]
    exact quote_not_mem (isWord_of_valueless? (valueless?_of_lineForm hform)).2
  · exact named_of_mem_expressionComplaints h
  · cases h
  · rcases List.mem_append.1 h with h | h
    · split at h
      · rw [List.mem_singleton.1 h]
        trivial
      · cases h
    · exact named_of_mem_expressionComplaints h
  · split at h <;> rw [List.mem_singleton.1 h] <;> trivial

end Walk

/-! ## Complaints on a topic -/

namespace Check

/-- The type of a variable decides whether there is a complaint on the topic. -/
def Topic.usesTypes : Topic → Bool
  | .mixedTypes | .floatFromArguments | .floatVariable | .conversion | .undeclared => true
  | _ => false

/-- A message is on a topic. -/
def IsAbout (m : String) (t : Topic) : Prop :=
  ∀ c : Complaint, c.Named → c.message = m → c.topic = t

theorem Complaint.isAbout {c : Complaint} (h : c.Named) : IsAbout c.message c.topic :=
  fun _ hc hmessage => topic_eq hc h hmessage

/-- The complaints on a topic. -/
def about (t : Topic) (cs : List Complaint) : List Complaint := cs.filter (·.topic = t)

section

variable {t : Topic}

theorem about_append (cs cs' : List Complaint) : about t (cs ++ cs') = about t cs ++ about t cs' :=
  List.filter_append ..

theorem about_eq_nil {cs : List Complaint} (h : ∀ c ∈ cs, c.topic ≠ t) : about t cs = [] := by
  simpa [about] using h

theorem about_ite {p : Prop} [Decidable p] (cs cs' : List Complaint) :
    about t (if p then cs else cs') = if p then about t cs else about t cs' := by
  split <;> rfl

theorem about_flatMap {α : Type} (f : α → List Complaint) (xs : List α) :
    about t (xs.flatMap f) = xs.flatMap fun x => about t (f x) :=
  List.filter_flatMap ..

end

section

variable {t : Topic} {symbols symbols' : Symbols} (hsymbols : t.usesTypes = true → symbols' = symbols)
include hsymbols

theorem about_argsComplaints [Build] (number number' : Nat) (declared : Option ValueType)
    (s : Signature) (args : List (List Char)) :
    about t ((argsComplaints ⟨number', declared, symbols'⟩ s args).map .call) =
      about t ((argsComplaints ⟨number, declared, symbols⟩ s args).map .call) := by
  cases htypes : t.usesTypes with
  | true => rw [hsymbols htypes]; rfl
  | false =>
    have hnone : ∀ site, about t ((argsComplaints site s args).map .call) = [] := by
      intro site
      refine about_eq_nil ?_
      rw [List.forall_mem_map]
      rintro c hc rfl
      obtain ⟨_, _, -, ⟨rfl, -⟩ | ⟨rfl, -⟩⟩ := argsComplaint?_cases (Option.mem_toList.1 hc) <;> cases htypes
    rw [hnone, hnone]

theorem about_callComplaints [Build] (number number' : Nat) (declared : Option ValueType)
    (call : CallText) :
    about t ((callComplaints ⟨number', declared, symbols'⟩ call).map .call) =
      about t ((callComplaints ⟨number, declared, symbols⟩ call).map .call) := by
  unfold callComplaints
  split
  · rfl
  · split
    · rfl
    · next s _ =>
      split
      · rfl
      · split
        · rfl
        · rw [List.map_append, List.map_append, about_append, about_append]
          congr 1
          split
          · exact about_argsComplaints hsymbols number number' declared s call.args
          · rfl

theorem about_expressionComplaints [Build] (number number' : Nat) (declared : Option ValueType)
    (cs : List Char) :
    about t (expressionComplaints ⟨number', declared, symbols'⟩ cs) =
      about t (expressionComplaints ⟨number, declared, symbols⟩ cs) := by
  unfold expressionComplaints
  split
  · rfl
  · next first rest _ =>
    rw [about_flatMap, about_flatMap]
    refine List.flatMap_congr fun call _ => ?_
    split
    · exact about_callComplaints hsymbols number number' declared call
    · exact about_callComplaints hsymbols number number' none call

theorem about_numberComplaints [Build] (d : Declaration) (value : List Char) :
    about t (numberComplaints symbols' d value) = about t (numberComplaints symbols d value) := by
  cases htypes : t.usesTypes with
  | true => rw [hsymbols htypes]
  | false =>
    have hvariable : ∀ symbols, about t (variableComplaint? symbols d value).toList = [] := by
      intro symbols
      refine about_eq_nil fun c hc => ?_
      rw [Option.mem_toList] at hc
      unfold variableComplaint? at hc
      split at hc <;> cases hc
      rintro rfl
      cases htypes
    have hconversion : ∀ symbols, about t (conversionComplaint? symbols d value).toList = [] := by
      intro symbols
      refine about_eq_nil fun c hc => ?_
      rw [Option.mem_toList] at hc
      unfold conversionComplaint? at hc
      split at hc <;> cases hc
      rintro rfl
      cases htypes
    unfold numberComplaints
    simp only [about_append, hvariable]
    congr 1
    split
    · rfl
    · rw [hconversion, hconversion]

theorem about_undeclared (current : String) (value : List Char) :
    about t ((undeclaredNames symbols' current value).map .undeclared) =
      about t ((undeclaredNames symbols current value).map .undeclared) := by
  cases htypes : t.usesTypes with
  | true => rw [hsymbols htypes]
  | false =>
    have hnone : ∀ names : List String, about t (names.map .undeclared) = [] := by
      intro names
      refine about_eq_nil ?_
      rw [List.forall_mem_map]
      rintro name - rfl
      cases htypes
    rw [hnone, hnone]

theorem about_declarationComplaints [Build] (number number' : Nat)
    {repeated repeated' guarded guarded' : Bool} (hrepeated : t = .repeated → repeated' = repeated)
    (hguarded : t = .division → guarded' = guarded) (d : Declaration) :
    about t (declarationComplaints symbols' number' repeated' guarded' d) =
      about t (declarationComplaints symbols number repeated guarded d) := by
  have htwice : about t (if !d.constant && repeated' then [.repeated d.name] else []) =
      about t (if !d.constant && repeated then [.repeated d.name] else []) := by
    by_cases ht : t = .repeated
    · rw [hrepeated ht]
    · have hother : about t [.repeated d.name] = [] :=
        about_eq_nil (List.forall_mem_singleton.2 (Ne.symm ht))
      rw [about_ite, about_ite, hother]
      simp only [about, List.filter_nil, ite_self]
  have hdivision : about t (if dividesByZero (trim d.value) && !guarded' then [.division] else []) =
      about t (if dividesByZero (trim d.value) && !guarded then [.division] else []) := by
    by_cases ht : t = .division
    · rw [hguarded ht]
    · have hother : about t [.division] = [] :=
        about_eq_nil (List.forall_mem_singleton.2 (Ne.symm ht))
      rw [about_ite, about_ite, hother]
      simp only [about, List.filter_nil, ite_self]
  unfold declarationComplaints
  simp only [about_append, htwice, hdivision, about_undeclared hsymbols,
    about_expressionComplaints hsymbols number number']
  congr 4
  rw [about_ite, about_ite, about_numberComplaints hsymbols]

end

end Check

namespace Walk

/-- Places of two walks that agree in what complaints on a topic depend on, apart from types. -/
structure Agree (t : Topic) (w w' : Walk) : Prop where
  tracker : t = .division ∨ t = .unrecognized → w'.tracker = w.tracker
  declared : t = .repeated → ∀ name, name ∈ w'.declared ↔ name ∈ w.declared

variable {t : Topic} {symbols symbols' : Symbols} {w w' : Walk}

theorem Agree.refl (t : Topic) (w : Walk) : Agree t w w := ⟨fun _ => rfl, fun _ _ => Iff.rfl⟩

theorem Agree.pass (h : Agree t w w') (line : List Char) : Agree t (w.pass line) (w'.pass line) where
  tracker ht := by
    unfold Walk.pass
    rw [h.tracker ht]
  declared ht name := by
    unfold Walk.pass
    dsimp only
    split
    · exact h.declared ht name
    · rw [List.mem_cons, List.mem_cons, h.declared ht]

theorem about_complaints [Build] (hsymbols : t.usesTypes = true → symbols' = symbols)
    (h : Agree t w w') (number number' : Nat) (line : List Char) :
    about t (w'.complaints symbols' number' line) = about t (w.complaints symbols number line) := by
  have hguard : t = .division ∨ t = .unrecognized →
      (w'.tracker.observe line).1.protects = (w.tracker.observe line).1.protects :=
    fun ht => by rw [h.tracker ht]
  unfold complaints
  rw [TryTracker.observe_snd, TryTracker.observe_snd]
  split
  · rfl
  · unfold statementComplaints
    dsimp only
    split
    · next d _ =>
      refine about_declarationComplaints hsymbols number number' (fun ht => ?_)
        (fun ht => hguard (.inl ht)) d
      rw [Bool.eq_iff_iff, List.contains_iff_mem, List.contains_iff_mem, h.declared ht]
    · rfl
    · rfl
    · exact about_expressionComplaints hsymbols number number' none line
    · rfl
    · next value _ =>
      rw [about_append, about_append, about_expressionComplaints hsymbols number number']
      congr 1
      by_cases ht : t = .division
      · rw [hguard (.inl ht)]
      · have hother : about t [.division] = [] :=
          about_eq_nil (List.forall_mem_singleton.2 (Ne.symm ht))
        rw [about_ite, about_ite, hother]
        simp only [about, List.filter_nil, ite_self]
    · by_cases ht : t = .division ∨ t = .unrecognized
      · rw [hguard ht]
      · rw [not_or] at ht
        have hdivision : about t [.division] = [] :=
          about_eq_nil (List.forall_mem_singleton.2 (Ne.symm ht.1))
        have hunrecognized : about t [.unrecognized line] = [] :=
          about_eq_nil (List.forall_mem_singleton.2 (Ne.symm ht.2))
        rw [about_ite, about_ite, hdivision, hunrecognized, ite_self, ite_self]

/-! ## Counting -/

/-- How many complaints about a line have the message. -/
def told [Build] (m : String) (symbols : Symbols) (w : Walk) (line : List Char) : Nat :=
  (w.complaints symbols 0 line).countP fun c => c.message = m

/-- How many complaints about lines have the message. -/
def tally [Build] (m : String) (symbols : Symbols) : Walk → List (List Char) → Nat
  | _, [] => 0
  | w, line :: rest => w.told m symbols line + (w.pass line).tally m symbols rest

variable [Build] {m : String}

theorem tally_append (w : Walk) (lines others : List (List Char)) :
    w.tally m symbols (lines ++ others) =
      w.tally m symbols lines + (lines.foldl pass w).tally m symbols others := by
  induction lines generalizing w with
  | nil => rw [List.nil_append, tally, Nat.zero_add]; rfl
  | cons line rest ih => rw [List.cons_append, tally, tally, ih, Nat.add_assoc, List.foldl_cons]

/-- Complaints about a line do not depend on its number. -/
theorem complaints_number (number : Nat) (line : List Char) :
    w.complaints symbols number line = w.complaints symbols 0 line := by
  have hcalls : ∀ declared cs, expressionComplaints ⟨number, declared, symbols⟩ cs =
      expressionComplaints ⟨0, declared, symbols⟩ cs := by
    intro declared cs
    unfold expressionComplaints
    split
    · rfl
    · refine List.flatMap_congr fun call _ => ?_
      split <;> rfl
  unfold complaints statementComplaints declarationComplaints
  simp only [hcalls]

theorem countP_findings (lines : List (List Char)) (number : Nat) :
    (findings symbols lines number w).countP (fun d => d.message = m) = w.tally m symbols lines := by
  induction lines generalizing number w with
  | nil => rfl
  | cons line rest ih =>
    unfold findings tally
    dsimp only
    rw [List.countP_append, findings_step, step_fst, ih, complained, List.countP_map,
      complaints_number]
    rfl

theorem told_eq (hm : IsAbout m t) (line : List Char) :
    w.told m symbols line =
      (about t (w.complaints symbols 0 line)).countP fun c => c.message = m := by
  unfold told about
  rw [List.countP_filter]
  refine List.countP_congr fun c hc => ?_
  simp only [Bool.and_eq_true, decide_eq_true_eq]
  exact ⟨fun h => ⟨h, hm c (named_of_mem_complaints hc) h⟩, And.left⟩

theorem told_congr (hm : IsAbout m t) (hsymbols : t.usesTypes = true → symbols' = symbols)
    (h : Agree t w w') (line : List Char) : w'.told m symbols' line = w.told m symbols line := by
  rw [told_eq hm, told_eq hm, about_complaints hsymbols h]

theorem tally_congr (hm : IsAbout m t) (hsymbols : t.usesTypes = true → symbols' = symbols)
    (h : Agree t w w') (lines : List (List Char)) :
    w'.tally m symbols' lines = w.tally m symbols lines := by
  induction lines generalizing w w' with
  | nil => rfl
  | cons line rest ih => rw [tally, tally, told_congr hm hsymbols h, ih (h.pass line)]

end Walk

/-! ## A script with other lines in one place -/

namespace Script

/-- How many findings on a script have the message. -/
def tally [Build] (m : String) (s : Script) : Nat := ({} : Walk).tally m s.symbols s.lines

/-- A run that keeps all findings shows as many with a message as there are. -/
theorem countP_analyze [Build] {prefs : AnalysisPreferences} {source : String}
    (hroom : (analyze prefs source).1.length < Limit.semanticDiagnostics) (m : String) :
    (analyze prefs source).1.countP (fun d => d.message = m) = (ofSource source.toList).tally m := by
  rw [analyze_eq_take, List.length_take] at hroom
  rw [analyze_eq_take, List.take_of_length_le (by omega)]
  exact Walk.countP_findings _ _

/-- The name that a line declares, and its type. -/
def declares? (line : List Char) : Option (String × ValueType) :=
  (declaration? line).map fun d => (d.name, d.type)

theorem symbols_eq (s : Script) : s.symbols =
    (s.lines.filterMap declares?).foldl (fun symbols p => symbols.declare p.1 p.2) {} := by
  unfold symbols
  rw [List.foldl_filterMap]
  congr 1
  funext symbols line
  unfold declares?
  cases declaration? line <;> rfl

/-- The type of a name is the one that it was declared with last. -/
theorem get?_foldl_declare (name : String) (ds : List (String × ValueType)) (symbols : Symbols) :
    (ds.foldl (fun symbols p => symbols.declare p.1 p.2) symbols).get? name =
      ((ds.reverse.find? fun p => p.1 = name).map (·.2)).or (symbols.get? name) := by
  induction ds using List.reverseRecOn with
  | nil => rfl
  | append_singleton ds p ih =>
    rw [List.foldl_append, List.foldl_cons, List.foldl_nil, List.reverse_append, List.reverse_singleton,
      List.singleton_append, List.find?_cons]
    by_cases hname : p.1 = name
    · rw [← hname, Symbols.get?_declare_self, decide_eq_true rfl]
      rfl
    · rw [Symbols.get?_declare_of_ne _ _ (Ne.symm hname), ih, decide_eq_false hname]

theorem get?_symbols (s : Script) (name : String) : s.symbols.get? name =
    ((s.lines.filterMap declares?).reverse.find? fun p => p.1 = name).map (·.2) := by
  rw [symbols_eq, get?_foldl_declare, show ({} : Symbols).get? name = none from rfl, Option.or_none]

/-- Lines that declare the same in the place of a line leave all variables with their types. -/
theorem symbols_congr {before others behind : List (List Char)} {line : List Char}
    (h : others.filterMap declares? = (declares? line).toList) :
    symbols ⟨before ++ (others ++ behind)⟩ = symbols ⟨before ++ line :: behind⟩ := by
  rw [symbols_eq, symbols_eq]
  simp only [List.filterMap_append, h]
  congr 2
  rw [List.filterMap_cons]
  cases declares? line <;> rfl

/-- Other lines in the place of a line that tell less than it do, in a text that tells the same behind
them. -/
theorem tally_lt [Build] {m : String} {t : Topic} {before others behind : List (List Char)}
    {line : List Char} (hm : IsAbout m t)
    (hsymbols : t.usesTypes = true →
      symbols ⟨before ++ (others ++ behind)⟩ = symbols ⟨before ++ line :: behind⟩)
    (hagree : Walk.Agree t ((before.foldl Walk.pass {}).pass line)
      (others.foldl Walk.pass (before.foldl Walk.pass {})))
    (hless : (before.foldl Walk.pass {}).tally m (symbols ⟨before ++ (others ++ behind)⟩) others <
      (before.foldl Walk.pass {}).told m (symbols ⟨before ++ line :: behind⟩) line) :
    tally m ⟨before ++ (others ++ behind)⟩ < tally m ⟨before ++ line :: behind⟩ := by
  unfold tally
  rw [Walk.tally_append, Walk.tally_append, Walk.tally_append, Walk.tally,
    Walk.tally_congr hm hsymbols (Walk.Agree.refl t {}), Walk.tally_congr hm hsymbols hagree]
  omega

end Script

end EvlCheck
