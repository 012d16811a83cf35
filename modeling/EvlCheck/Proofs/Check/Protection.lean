/-
Which divisions by zero a `try` keeps from being reported. In a program whose braces stand on lines of
their own, the blocks and `try` statements that are open before a line are a stack of frames, the
innermost first. The validator does not keep that stack: it counts braces, and remembers the depth at
which it met the last `try`. What it remembers is about the innermost open `try` statement until
another one ends inside of that; from then on it remembers nothing, so that the rest of the outer
statement is unprotected (`protects`).

The invariant of the walk is `Tracks`: the depth is the number of frames, and what is remembered is the
depth of the innermost `try` frame, unless that is spent.
-/
import EvlCheck.Proofs.Check.Notes
import Mathlib.Data.List.Basic
import Mathlib.Data.List.TakeWhile

namespace EvlCheck

open Text Check

namespace Text

/-- A word has a character, and all of them are of words. -/
theorem isWord_of_word? {cs w rest : List Char} (h : word? cs = some (w, rest)) :
    w ≠ [] ∧ ∀ c ∈ w, isWord c = true := by
  unfold word? at h
  generalize hw : cs.takeWhile isWord = taken at h
  cases taken with
  | nil => cases h
  | cons c taken =>
    cases h
    refine ⟨List.cons_ne_nil _ _, ?_⟩
    rw [← hw]
    exact fun c => List.mem_takeWhile_imp

/-- The code points of white space. -/
def blanks : List Nat :=
  [9, 10, 11, 12, 13, 0x20, 0x85, 0xA0, 0x1680, 0x2000, 0x2001, 0x2002, 0x2003, 0x2004, 0x2005,
    0x2006, 0x2007, 0x2008, 0x2009, 0x200A, 0x2028, 0x2029, 0x202F, 0x205F, 0x3000]

theorem mem_blanks {c : Char} (h : isBlank c = true) : c.toNat ∈ blanks := by
  simp only [isBlank, Bool.or_eq_true, Bool.and_eq_true, decide_eq_true_eq, beq_iff_eq] at h
  simp only [blanks, List.mem_cons, List.not_mem_nil, or_false]
  omega

/-- The test in a form that is quick to evaluate. -/
theorem inRanges_eq (ranges : Array (Nat × Nat)) (n : Nat) :
    inRanges ranges n = ranges.toList.any fun r => r.1.ble n && n.ble r.2 := by
  unfold inRanges
  rw [Array.any_toList]
  congr 1
  funext r
  rw [Bool.eq_iff_iff]
  simp

/-- No blank is a character of words. -/
theorem isBlank_of_isWord {c : Char} (h : isWord c = true) : isBlank c = false := by
  have hblanks : ∀ n ∈ blanks, isWord (Char.ofNat n) = false := by
    simp only [isWord, inRanges_eq]
    decide +kernel
  by_contra hblank
  have hword := hblanks _ (mem_blanks (Bool.not_eq_false _ ▸ hblank))
  rw [Char.ofNat_toNat, h] at hword
  cases hword

/-- Blanks before a character are passed over. -/
theorem mem_of_afterBlanks? {c : Char} {cs rest : List Char} (h : afterBlanks? c cs = some rest) :
    c ∈ cs := by
  unfold afterBlanks? at h
  split at h
  · cases h
  · next d tail htail =>
    split at h
    · next hd =>
      subst hd
      refine (List.dropWhile_sublist isBlank).subset ?_
      unfold trimStart at htail
      rw [htail]
      exact List.mem_cons_self
    · cases h

/-- What begins with blanks and a character that is of no word begins with no word. -/
theorem isWord_of_afterBlanks? {c : Char} {cs rest : List Char} (h : afterBlanks? c cs = some rest)
    (hc : isWord c = false) : cs.takeWhile isWord = [] ∧ cs.dropWhile isWord = cs := by
  cases cs with
  | nil => exact ⟨rfl, rfl⟩
  | cons d cs =>
    have hd : isWord d = false := by
      by_contra hword
      rw [Bool.not_eq_false] at hword
      unfold afterBlanks? trimStart at h
      rw [List.dropWhile_cons_of_neg (by simp [isBlank_of_isWord hword])] at h
      dsimp only at h
      split at h
      · next hdc =>
        rw [hdc, hc] at hword
        cases hword
      · cases h
    simp [hd]

theorem mem_of_mem_after? {taken : String} {c : Char} {cs rest : List Char}
    (h : after? taken cs = some rest) (hc : c ∈ rest) : c ∈ cs := by
  rw [← List.append_eq_of_isPrefixOf?_eq_some h]
  exact List.mem_append_right _ hc

end Text

/-! ## Lines with braces -/

/-- What a line does to the nesting of blocks. -/
inductive Bracing where
  | plain
  | tryOpens
  | catchTurns
  | blockOpens
  | closes
  deriving Repr, DecidableEq

namespace Bracing

/-- A line that ends the body of a `try` and opens its handler, which gives a name to what it
catches. -/
def isCatchLine (cs : List Char) : Bool :=
  match (after? "\x7d catch (" cs).bind word? with
  | some (_, behind) => behind = ") \x7b".toList
  | none => false

/-- The lines with braces have one of four forms; braces stand nowhere else. -/
def ofLine? (cs : List Char) : Option Bracing :=
  if cs = "try \x7b".toList then some .tryOpens
  else if cs = ['\x7b'] then some .blockOpens
  else if cs = ['\x7d'] then some .closes
  else if isCatchLine cs then some .catchTurns
  else if '\x7b' ∈ cs ∨ '\x7d' ∈ cs then none
  else some .plain

/-- The line that turns to a handler, with the name of what it catches. -/
def catchLine (name : List Char) : List Char :=
  '\x7d' :: " catch (".toList ++ name ++ ") \x7b".toList

theorem catchLine_of_isCatchLine {cs : List Char} (h : isCatchLine cs = true) :
    ∃ name, name ≠ [] ∧ (∀ c ∈ name, isWord c = true) ∧ cs = catchLine name := by
  unfold isCatchLine at h
  split at h
  · next name behind hname =>
    obtain ⟨rest, hrest, hword⟩ := Option.bind_eq_some_iff.1 hname
    rw [decide_eq_true_iff] at h
    subst h
    have hcs : "\x7d catch (".toList ++ rest = cs := List.append_eq_of_isPrefixOf?_eq_some hrest
    obtain ⟨hne, hname⟩ := Text.isWord_of_word? hword
    refine ⟨name, hne, hname, ?_⟩
    rw [← hcs, ← append_of_word? hword]
    rfl
  · cases h

/-- A line is read in one way only. -/
theorem of_ofLine? {cs : List Char} {b : Bracing} (h : ofLine? cs = some b) :
    match b with
    | .tryOpens => cs = "try \x7b".toList
    | .blockOpens => cs = ['\x7b']
    | .closes => cs = ['\x7d']
    | .catchTurns => ∃ name, name ≠ [] ∧ (∀ c ∈ name, isWord c = true) ∧ cs = catchLine name
    | .plain => '\x7b' ∉ cs ∧ '\x7d' ∉ cs := by
  unfold ofLine? at h
  split at h
  · next htry => cases h; exact htry
  · split at h
    · next hopen => cases h; exact hopen
    · split at h
      · next hclose => cases h; exact hclose
      · split at h
        · next hcatch => cases h; exact catchLine_of_isCatchLine hcatch
        · split at h
          · cases h
          · next hplain => cases h; exact not_or.1 hplain

end Bracing

/-! ## Open blocks and `try` statements -/

/-- What is open: a block, or a `try` statement whose body or handler is read. It is spent when
another `try` statement has ended inside of it. -/
inductive Frame where
  | block
  | body (spent : Bool)
  | handler (spent : Bool)
  deriving Repr, DecidableEq

namespace Frame

def isTry : Frame → Bool
  | .block => false
  | .body _ | .handler _ => true

def spent : Frame → Bool
  | .block => false
  | .body spent | .handler spent => spent

/-- The frame behind the end of a `try` statement inside of it. -/
def spend : Frame → Frame
  | .block => .block
  | .body _ => .body true
  | .handler _ => .handler true

/-- The frames behind a line, where it fits those before it. -/
def next? : List Frame → Bracing → Option (List Frame)
  | frames, .plain => some frames
  | frames, .tryOpens => some (.body false :: frames)
  | frames, .blockOpens => some (.block :: frames)
  | .body spent :: frames, .catchTurns => some (.handler spent :: frames)
  | .block :: frames, .closes => some frames
  | .handler _ :: frames, .closes => some (frames.map spend)
  | _, _ => none

/-- The frames that are open behind some lines, where each line fits those before it. -/
def openBehind? (lines : List (List Char)) : Option (List Frame) :=
  lines.foldlM (fun frames line => (Bracing.ofLine? line).bind (next? frames)) []

/-- A line that fits behind others changes what is open there. -/
theorem exists_next {before : List (List Char)} {line : List Char} {frames frames' : List Frame}
    (hbefore : openBehind? before = some frames)
    (hline : openBehind? (before ++ [line]) = some frames') :
    ∃ b, Bracing.ofLine? line = some b ∧ next? frames b = some frames' := by
  unfold openBehind? at hbefore hline
  rw [List.foldlM_append, hbefore, Option.bind_eq_bind, Option.bind_some, List.foldlM_cons,
    Option.bind_eq_bind] at hline
  obtain ⟨last, hlast, hend⟩ := Option.bind_eq_some_iff.1 hline
  cases hend
  exact Option.bind_eq_some_iff.1 hlast

/-- A `try` statement protects what stands in it until another one has ended inside of it. -/
def protects (frames : List Frame) : Bool :=
  match frames.find? isTry with
  | some frame => !frame.spent
  | none => false

/-- The depth at which the innermost `try` statement began, unless that is spent. -/
def tryDepth? : List Frame → Option Int
  | [] => none
  | .block :: frames => tryDepth? frames
  | .body spent :: frames | .handler spent :: frames => if spent then none else some frames.length

theorem protects_of_not_isTry {frames : List Frame} (h : ∀ frame ∈ frames, frame.isTry = false) :
    protects frames = false := by
  unfold protects
  rw [List.find?_eq_none.2 fun frame hframe => Bool.eq_false_iff.1 (h frame hframe)]

theorem isSome_tryDepth? (frames : List Frame) : (tryDepth? frames).isSome = protects frames := by
  induction frames with
  | nil => rfl
  | cons frame frames ih =>
    cases frame with
    | block => exact ih
    | body spent | handler spent => cases spent <;> rfl

theorem tryDepth?_lt {frames : List Frame} {depth : Int} (h : tryDepth? frames = some depth) :
    depth < frames.length := by
  induction frames with
  | nil => cases h
  | cons frame frames ih =>
    rw [List.length_cons]
    cases frame with
    | block =>
      have := ih h
      omega
    | body spent | handler spent =>
      cases spent <;> cases h
      omega

theorem tryDepth?_map_spend (frames : List Frame) : tryDepth? (frames.map spend) = none := by
  induction frames with
  | nil => rfl
  | cons frame frames ih =>
    cases frame with
    | block => exact ih
    | body spent | handler spent => rfl

end Frame

namespace TryTracker

/-! ## What the tracker sees -/

theorem mem_of_opensTry {cs : List Char} (h : opensTry cs = true) : '\x7b' ∈ cs := by
  obtain ⟨rest, hrest⟩ := Option.isSome_iff_exists.1 h
  obtain ⟨behind, hbehind, hbrace⟩ := Option.bind_eq_some_iff.1 hrest
  exact mem_of_mem_after? hbehind (mem_of_afterBlanks? hbrace)

theorem mem_of_closesThenCatches {cs : List Char} (h : closesThenCatches cs = true) :
    '\x7d' ∈ cs := by
  obtain ⟨rest, hrest⟩ := Option.isSome_iff_exists.1 h
  obtain ⟨behind, hbehind, -⟩ := Option.bind_eq_some_iff.1 hrest
  rw [← List.append_eq_of_isPrefixOf?_eq_some hbehind]
  exact List.mem_append_left _ (by decide)

/-- What is remembered stays where it is about a lesser depth. -/
theorem filter_below {opened : Option Int} {depth : Int} (h : ∀ d, opened = some d → d < depth) :
    opened.filter (fun start => start < depth) = opened := by
  cases opened with
  | none => rfl
  | some d => simp [h d rfl]

/-- Where no brace stands the depth stays. Nothing is protected behind that began at it or deeper, unless
the line catches. -/
theorem observe_unbraced (t : TryTracker) {cs : List Char} (hopen : '\x7b' ∉ cs) (hclose : '\x7d' ∉ cs) :
    t.observe cs = if catches cs = true then (t, true)
      else (⟨t.depth, t.opened.filter fun start => start < t.depth⟩, false) := by
  have hbalance : braceBalance cs = 0 := by
    unfold braceBalance
    rw [List.count_eq_zero.2 hopen, List.count_eq_zero.2 hclose]
    rfl
  have htry : opensTry cs = false := Bool.eq_false_iff.2 fun h => hopen (mem_of_opensTry h)
  have hturn : closesThenCatches cs = false :=
    Bool.eq_false_iff.2 fun h => hclose (mem_of_closesThenCatches h)
  have hbraces : ¬ (cs = ['\x7b'] ∨ cs = ['\x7d']) := by
    rintro (rfl | rfl)
    · exact hopen List.mem_cons_self
    · exact hclose List.mem_cons_self
  unfold observe
  dsimp only
  rw [hbalance, htry, hturn, Int.add_zero, Bool.false_or, if_neg Bool.false_ne_true,
    decide_eq_false hbraces]

/-- So the memory of a `try` at a lesser depth stays. -/
theorem observe_plain {t : TryTracker} {cs : List Char} (hopen : '\x7b' ∉ cs) (hclose : '\x7d' ∉ cs)
    (hbelow : ∀ depth, t.opened = some depth → depth < t.depth) :
    t.observe cs = (t, catches cs) := by
  rw [observe_unbraced t hopen hclose, filter_below hbelow]
  by_cases hcatch : catches cs = true
  · rw [if_pos hcatch, hcatch]
  · rw [if_neg hcatch, Bool.eq_false_iff.2 hcatch]

theorem observe_tryLine (t : TryTracker) :
    t.observe "try \x7b".toList = (⟨t.depth + 1, some t.depth⟩, true) := by
  have hbalance : braceBalance "try \x7b".toList = 1 := by decide
  unfold observe
  dsimp only
  rw [if_pos (by decide), hbalance]

/-- A brace alone on its line: nothing is protected behind it that began at the new depth or deeper. -/
theorem observe_brace (t : TryTracker) {c : Char} (h : c = '\x7b' ∨ c = '\x7d') :
    t.observe [c] = (⟨t.depth + braceBalance [c],
      t.opened.filter fun start => start < t.depth + braceBalance [c]⟩, true) := by
  rcases h with rfl | rfl <;> rfl

theorem closesThenCatches_catchLine {name : List Char} (hne : name ≠ [])
    (hname : ∀ c ∈ name, isWord c = true) : closesThenCatches (Bracing.catchLine name) = true := by
  have hblank : ∀ rest, trimStart (name ++ rest) = name ++ rest := by
    intro rest
    cases name with
    | nil => exact absurd rfl hne
    | cons c name =>
      have hc := isBlank_of_isWord (hname c List.mem_cons_self)
      exact List.dropWhile_cons_of_neg (by simp [hc])
  have hword : word? (name ++ ") \x7b".toList) = some (name, ") \x7b".toList) := by
    have htake : (name ++ ") \x7b".toList).takeWhile isWord = name := by
      rw [List.takeWhile_append_of_pos hname]
      exact List.append_nil name
    have hdrop : (name ++ ") \x7b".toList).dropWhile isWord = ") \x7b".toList := by
      rw [List.dropWhile_append_of_pos hname]
      rfl
    unfold word?
    rw [htake, hdrop]
    cases name with
    | nil => exact absurd rfl hne
    | cons c name => rfl
  unfold closesThenCatches
  have hfirst : after? "\x7d" (Bracing.catchLine name) =
      some (" catch (".toList ++ name ++ ") \x7b".toList) := rfl
  have hsecond : after? "catch" (trimStart (" catch (".toList ++ name ++ ") \x7b".toList)) =
      some (" (".toList ++ name ++ ") \x7b".toList) := rfl
  have hthird : afterBlanks? '(' (" (".toList ++ name ++ ") \x7b".toList) =
      some (name ++ ") \x7b".toList) := rfl
  simp only [hfirst, hsecond, hthird, hblank, hword, Option.bind_eq_bind, Option.bind_some]
  rfl

/-- The turn from a body to its handler changes neither the depth nor the memory. -/
theorem observe_catchLine (t : TryTracker) {name : List Char} (hne : name ≠ [])
    (hname : ∀ c ∈ name, isWord c = true) :
    t.observe (Bracing.catchLine name) = (t, true) := by
  have hcount : ∀ c, isWord c = false → name.count c = 0 := by
    intro c hc
    refine List.count_eq_zero.2 fun hmem => ?_
    rw [hname c hmem] at hc
    cases hc
  have hbalance : braceBalance (Bracing.catchLine name) = 0 := by
    unfold braceBalance Bracing.catchLine
    simp only [List.count_append, hcount '\x7b' (by decide), hcount '\x7d' (by decide)]
    decide
  have htry : opensTry (Bracing.catchLine name) = false := rfl
  unfold observe
  dsimp only
  rw [hbalance, htry, closesThenCatches_catchLine hne hname, Int.add_zero, Bool.true_or,
    if_neg Bool.false_ne_true, if_pos rfl]

end TryTracker

/-! ## What is open and what is remembered -/

/-- The tracker has counted the open frames, and remembers the depth of the innermost `try` unless
that is spent. -/
structure TryTracker.Tracks (t : TryTracker) (frames : List Frame) : Prop where
  depth : t.depth = frames.length
  opened : t.opened = Frame.tryDepth? frames

namespace TryTracker.Tracks

variable {t : TryTracker} {frames frames' : List Frame}

theorem tryLine (h : t.Tracks frames) :
    (t.observe "try \x7b".toList).1.Tracks (.body false :: frames) := by
  rw [observe_tryLine]
  constructor
  · rw [List.length_cons, h.depth]
    rfl
  · rw [h.depth]
    rfl

theorem blockLine (h : t.Tracks frames) : (t.observe ['\x7b']).1.Tracks (.block :: frames) := by
  have hdepth : t.depth + braceBalance ['\x7b'] = (Frame.block :: frames).length := by
    rw [h.depth, List.length_cons]
    rfl
  rw [observe_brace t (.inl rfl), hdepth]
  refine ⟨rfl, (filter_below fun depth hopened => ?_).trans h.opened⟩
  have := Frame.tryDepth?_lt (h.opened ▸ hopened)
  rw [List.length_cons]
  omega

/-- A brace that closes leaves the depth of the frames behind it. -/
theorem depth_closeLine {frame : Frame} (h : t.Tracks (frame :: frames)) :
    t.depth + braceBalance ['\x7d'] = frames.length := by
  have hbalance : braceBalance ['\x7d'] = -1 := by decide
  rw [h.depth, hbalance, List.length_cons]
  omega

theorem closeBlock (h : t.Tracks (.block :: frames)) : (t.observe ['\x7d']).1.Tracks frames := by
  rw [observe_brace t (.inr rfl), h.depth_closeLine]
  refine ⟨rfl, (filter_below fun depth hopened => ?_).trans h.opened⟩
  exact Frame.tryDepth?_lt (h.opened ▸ hopened)

/-- The end of a `try` statement is not below where it began, so that nothing stays in memory. -/
theorem closeHandler {spent : Bool} (h : t.Tracks (.handler spent :: frames)) :
    (t.observe ['\x7d']).1.Tracks (frames.map Frame.spend) := by
  rw [observe_brace t (.inr rfl), h.depth_closeLine]
  constructor
  · rw [List.length_map]
  · rw [Frame.tryDepth?_map_spend, h.opened]
    cases spent <;> simp [Frame.tryDepth?]

theorem protects_eq (h : t.Tracks frames) : t.protects = Frame.protects frames := by
  unfold protects
  rw [h.opened, Frame.isSome_tryDepth?]

theorem lt_depth (h : t.Tracks frames) {depth : Int} (hopened : t.opened = some depth) :
    depth < t.depth := by
  rw [h.depth]
  rw [h.opened] at hopened
  exact Frame.tryDepth?_lt hopened

/-- A line that fits the open frames is counted rightly, and is a line of structure unless it is
plain. -/
theorem observe (h : t.Tracks frames) {cs : List Char} {b : Bracing}
    (hline : Bracing.ofLine? cs = some b) (hnext : Frame.next? frames b = some frames') :
    (t.observe cs).1.Tracks frames' ∧ (t.observe cs).2 = (b ≠ .plain || catches cs) := by
  have hform := Bracing.of_ofLine? hline
  cases b with
  | plain =>
    cases hnext
    rw [observe_plain hform.1 hform.2 fun _ => h.lt_depth]
    exact ⟨h, rfl⟩
  | tryOpens =>
    cases hnext
    cases hform
    exact ⟨h.tryLine, congrArg Prod.snd (observe_tryLine t)⟩
  | blockOpens =>
    cases hnext
    cases hform
    exact ⟨h.blockLine, congrArg Prod.snd (observe_brace t (.inl rfl))⟩
  | catchTurns =>
    obtain ⟨name, hne, hname, rfl⟩ := hform
    rw [observe_catchLine t hne hname]
    match frames, hnext with
    | .body spent :: rest, hnext =>
      cases hnext
      exact ⟨⟨h.depth, h.opened⟩, rfl⟩
  | closes =>
    cases hform
    have hstructural := congrArg Prod.snd (observe_brace t (c := '\x7d') (.inr rfl))
    match frames, hnext with
    | .block :: rest, hnext =>
      cases hnext
      exact ⟨h.closeBlock, hstructural⟩
    | .handler spent :: rest, hnext =>
      cases hnext
      exact ⟨h.closeHandler, hstructural⟩

end TryTracker.Tracks

/-! ## The walk -/

namespace Walk

/-- The frames behind a line belong to the place behind it. -/
theorem tracks_pass {w : Walk} {frames frames' : List Frame} {line : List Char}
    (h : w.tracker.Tracks frames)
    (hline : (Bracing.ofLine? line).bind (Frame.next? frames) = some frames') :
    (w.pass line).tracker.Tracks frames' := by
  obtain ⟨b, hb, hnext⟩ := Option.bind_eq_some_iff.1 hline
  unfold pass
  dsimp only
  by_cases hempty : line.isEmpty = true
  · rw [List.isEmpty_iff] at hempty
    subst hempty
    cases hb
    cases hnext
    exact h
  · rw [if_neg hempty]
    exact (h.observe hb hnext).1

/-- So the tracker knows about the frames behind any lines. -/
theorem tracks_foldl_pass {lines : List (List Char)} {w : Walk} {frames frames' : List Frame}
    (h : w.tracker.Tracks frames)
    (hlines : lines.foldlM (fun frames line => (Bracing.ofLine? line).bind (Frame.next? frames)) frames =
      some frames') : (lines.foldl pass w).tracker.Tracks frames' := by
  induction lines generalizing w frames with
  | nil =>
    cases hlines
    exact h
  | cons line rest ih =>
    rw [List.foldlM_cons] at hlines
    obtain ⟨between, hline, hrest⟩ := Option.bind_eq_some_iff.1 hlines
    exact ih (tracks_pass h hline) hrest

end Walk

/-! ## Lines of structure do not divide -/

namespace Check

theorem dividesByZero_of_not_mem {cs : List Char} (h : '/' ∉ cs) : dividesByZero cs = false := by
  induction cs with
  | nil => rfl
  | cons c cs ih =>
    rw [List.mem_cons, not_or] at h
    have hc : (c == '/') = false := by simpa using Ne.symm h.1
    rw [dividesByZero, hc, ih h.2]
    rfl

/-- A `catch` that stands on a line without braces is taken for a call. -/
theorem lineForm_of_catches {cs : List Char} (h : TryTracker.catches cs = true) :
    lineForm cs = .call := by
  obtain ⟨behind, hbehind⟩ := Option.isSome_iff_exists.1 h
  obtain ⟨rest, hrest, hparen⟩ := Option.bind_eq_some_iff.1 hbehind
  have hcs : cs = 'c' :: ("atch".toList ++ rest) :=
    (List.append_eq_of_isPrefixOf?_eq_some hrest).symm
  -- The word ends behind its five letters, since a blank or the parenthesis follows.
  have hend := isWord_of_afterBlanks? hparen (by decide)
  have hname : name? cs = some ("catch".toList, rest) := by
    have hletters : ∀ c ∈ "atch".toList, isWord c = true :=
      List.all_eq_true.1 (by decide)
    rw [hcs, name?, if_pos (by decide), List.takeWhile_append_of_pos hletters,
      List.dropWhile_append_of_pos hletters, hend.1, hend.2]
    rfl
  have hcall : isCallStart cs = true := by
    unfold isCallStart callHead?
    rw [hname]
    simp [hparen]
  have hdeclaration : declaration? cs = none ∧ isNameless cs = false ∧ valueless? cs = none := by
    rw [hcs]
    exact ⟨rfl, rfl, rfl⟩
  unfold lineForm
  rw [hdeclaration.1, hdeclaration.2.1, hdeclaration.2.2, hcall]
  rfl

/-- A line that divides is no line of structure. -/
theorem structural_of_divides {cs : List Char} {b : Bracing} (hline : Bracing.ofLine? cs = some b)
    (h : (lineForm cs).divides cs = true) : b = .plain ∧ TryTracker.catches cs = false := by
  have hform := Bracing.of_ofLine? hline
  cases b with
  | plain =>
    refine ⟨rfl, Bool.eq_false_iff.2 fun hcatch => ?_⟩
    rw [lineForm_of_catches hcatch] at h
    cases h
  | tryOpens =>
    cases hform
    exact absurd h (by decide)
  | blockOpens =>
    cases hform
    exact absurd h (by decide)
  | closes =>
    cases hform
    exact absurd h (by decide)
  | catchTurns =>
    obtain ⟨name, -, hname, rfl⟩ := hform
    have hother : lineForm (Bracing.catchLine name) = .other := rfl
    have hslash : '/' ∉ Bracing.catchLine name := by
      unfold Bracing.catchLine
      rw [List.mem_append, List.mem_append]
      rintro ((hmem | hmem) | hmem)
      · exact absurd hmem (by decide)
      · exact absurd (hname _ hmem) (by decide)
      · exact absurd hmem (by decide)
    rw [hother] at h
    exact absurd h (Bool.eq_false_iff.1 (dividesByZero_of_not_mem hslash))

end Check

/-! ## What is reported -/

namespace Script

/-- The findings of a script on a line are those that arise there, at the place behind the lines before
it. -/
theorem exists_finding_iff [Build] {s : Script} {before behind : List (List Char)}
    {line : List Char} (hlines : s.lines = before ++ line :: behind) (P : Diagnostic → Prop) :
    (∃ d ∈ s.findings, d.line = before.length + 1 ∧ P d) ↔
      ∃ d ∈ Note.findings
        ((before.foldl Walk.pass {}).step s.symbols (1 + before.length) line).2, P d := by
  unfold findings
  rw [hlines, Nat.add_comm before.length 1]
  constructor
  · rintro ⟨d, hd, hplace, hholds⟩
    exact ⟨d, Walk.mem_findings_on.1 ⟨hd, hplace⟩, hholds⟩
  · rintro ⟨d, hd, hholds⟩
    obtain ⟨hmem, hplace⟩ := Walk.mem_findings_on.2 hd
    exact ⟨d, hmem, hplace, hholds⟩

/-- In a program that is well-nested up to a line, the line is told of a division by zero if and only
if it has one and stands in no `try` statement, or in one that is spent. -/
theorem exists_division_iff [Build] {s : Script} {before behind : List (List Char)}
    {line : List Char} {frames frames' : List Frame} (hlines : s.lines = before ++ line :: behind)
    (hbefore : Frame.openBehind? before = some frames)
    (hline : Frame.openBehind? (before ++ [line]) = some frames') :
    (∃ d ∈ s.findings, d.line = before.length + 1 ∧ d.message = divisionMessage) ↔
      (lineForm line).divides line = true ∧ Frame.protects frames = false := by
  have htracks : (before.foldl Walk.pass {}).tracker.Tracks frames :=
    Walk.tracks_foldl_pass ⟨rfl, rfl⟩ hbefore
  obtain ⟨b, hb, hnext⟩ := Frame.exists_next hbefore hline
  obtain ⟨htracks', hstructural⟩ := htracks.observe hb hnext
  have hnotes := Walk.notesOn_step s.symbols (before.foldl Walk.pass {}) (1 + before.length) line
  rw [exists_finding_iff hlines, hnotes.divided, htracks'.protects_eq, hstructural]
  simp only [Bool.and_eq_true, Bool.not_eq_true']
  constructor
  · rintro ⟨⟨-, hplain⟩, hdivides, hprotects⟩
    rw [Bool.or_eq_false_iff, decide_eq_false_iff_not, not_not] at hplain
    obtain ⟨rfl, -⟩ := hplain
    cases hnext
    exact ⟨hdivides, hprotects⟩
  · rintro ⟨hdivides, hprotects⟩
    obtain ⟨rfl, hcatch⟩ := structural_of_divides hb hdivides
    cases hnext
    refine ⟨⟨?_, ?_⟩, hdivides, hprotects⟩
    · cases line with
      | nil => exact absurd hdivides (by decide)
      | cons c line => rfl
    · rw [hcatch]
      rfl

end Script

/-! ## What is shown -/

namespace Check

/-- In a program that is well-nested up to a line, an analysis tells of a division by zero on the line
only if it has one and stands in no `try` statement, or in one that is spent. As long as the findings
are within the limit it tells of every such division, and so of each in a declaration outside of all
`try` statements. -/
theorem analyze_tells_of_division [Build] (prefs : AnalysisPreferences) (source : String)
    {before behind : List (List Char)} {line : List Char} {frames frames' : List Frame}
    (hlines : (Script.ofSource source.toList).lines = before ++ line :: behind)
    (hbefore : Frame.openBehind? before = some frames)
    (hline : Frame.openBehind? (before ++ [line]) = some frames') :
    let told := ∃ d ∈ (analyze prefs source).1,
      d.line = before.length + 1 ∧ d.message = divisionMessage
    let within := (Script.ofSource source.toList).findings.length ≤ Limit.semanticDiagnostics
    (told → (lineForm line).divides line = true ∧ Frame.protects frames = false) ∧
    (within → (lineForm line).divides line = true → Frame.protects frames = false → told) ∧
    (within → ∀ d, lineForm line = .declaration d → dividesByZero (trim d.value) = true →
      (∀ frame ∈ frames, frame.isTry = false) → told) := by
  intro told within
  have hiff := Script.exists_division_iff hlines hbefore hline
  have hfound : within → (lineForm line).divides line = true → Frame.protects frames = false →
      told := by
    intro hwithin hdivides hprotects
    obtain ⟨d, hd, htold⟩ := hiff.2 ⟨hdivides, hprotects⟩
    refine ⟨d, ?_, htold⟩
    rw [analyze_eq_take, List.take_of_length_le hwithin]
    exact hd
  -- What is shown is among all findings; the converse needs room for all of them.
  refine ⟨?_, hfound, ?_⟩
  · rintro ⟨d, hd, htold⟩
    rw [analyze_eq_take] at hd
    exact hiff.1 ⟨d, List.mem_of_mem_take hd, htold⟩
  · intro hwithin d hform hdivides houtside
    refine hfound hwithin ?_ (Frame.protects_of_not_isTry houtside)
    rw [hform]
    exact hdivides

/-- Two `try` statements, one in the body of the other, and a division behind the inner one. -/
def nestedLines : List (List Char) :=
  ["try \x7b", "try \x7b", "\x7d catch (e) \x7b", "\x7d", "int x = 1 / 0", "\x7d catch (e) \x7b",
    "\x7d", "int y = 1 / 0"].map String.toList

def nestedText : String := "\n".intercalate (nestedLines.map String.ofList)

theorem toList_nestedText : nestedText.toList = ['\n'].intercalate nestedLines := by
  rw [nestedText, String.toList_intercalate]
  simp

theorem lines_nestedText : (Script.ofSource nestedText.toList).lines = nestedLines := by
  rw [toList_nestedText]
  unfold nestedLines
  simp only [List.map]
  -- A text in quotes is opened by this equation; the kernel would decode its bytes.
  repeat rw [String.toList_ofList]
  decide +kernel

theorem findings_nestedText : (Script.ofSource nestedText.toList).findings =
    [.error 5 divisionMessage, .error 8 divisionMessage] := by
  rw [toList_nestedText]
  unfold nestedLines
  simp only [List.map]
  repeat rw [String.toList_ofList]
  decide +kernel

/-- The division behind both statements is outside of them, and an analysis tells of it. -/
theorem analyze_tells_of_division_outside :
    (Script.ofSource nestedText.toList).lines = nestedLines.take 7 ++ nestedLines[7]! :: [] ∧
    Frame.openBehind? (nestedLines.take 7) = some [] ∧
    Frame.openBehind? (nestedLines.take 7 ++ [nestedLines[7]!]) = some [] ∧
    ∃ d ∈ (analyze {} nestedText).1, d.line = 8 ∧ d.message = divisionMessage := by
  have hlines : (Script.ofSource nestedText.toList).lines =
      nestedLines.take 7 ++ nestedLines[7]! :: [] := lines_nestedText
  have hbefore : Frame.openBehind? (nestedLines.take 7) = some [] := by decide +kernel
  have hline : Frame.openBehind? (nestedLines.take 7 ++ [nestedLines[7]!]) = some [] := by
    decide +kernel
  refine ⟨hlines, hbefore, hline, ?_⟩
  refine (analyze_tells_of_division {} nestedText hlines hbefore hline).2.1 ?_ ?_ rfl
  · rw [findings_nestedText]
    decide
  · decide +kernel

/-- The division behind the inner statement stands in the body of the outer one, which the inner one
has spent: an analysis tells of it as well. -/
theorem analyze_tells_of_division_inside :
    (Script.ofSource nestedText.toList).lines = nestedLines ∧
    Frame.openBehind? nestedLines = some [] ∧
    Frame.openBehind? (nestedLines.take 4) = some [.body true] ∧
    ∃ d ∈ (analyze {} nestedText).1, d.line = 5 ∧ d.message = divisionMessage := by
  refine ⟨lines_nestedText, by decide +kernel, by decide +kernel, .error 5 divisionMessage, ?_, rfl,
    rfl⟩
  rw [analyze_eq_take, findings_nestedText]
  exact List.mem_cons_self

end Check

end EvlCheck
