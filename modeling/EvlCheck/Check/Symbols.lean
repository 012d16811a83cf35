/-
The variables that a program declares, each with the type it was last declared with.
-/
import EvlCheck.Tree.Operator

namespace EvlCheck

/-- Declared names in the order of their first declarations; no name occurs twice. -/
structure Symbols where
  entries : List (String × ValueType) := []
  deriving Repr

namespace Symbols

/-- The entries with one more; an entry of the same name is replaced where it stands. -/
def enter (name : String) (type : ValueType) :
    List (String × ValueType) → List (String × ValueType)
  | [] => [(name, type)]
  | (n, t) :: rest => if n = name then (name, type) :: rest else (n, t) :: enter name type rest

def declare (s : Symbols) (name : String) (type : ValueType) : Symbols :=
  ⟨enter name type s.entries⟩

def get? (s : Symbols) (name : String) : Option ValueType := s.entries.lookup name

def contains (s : Symbols) (name : String) : Bool := (s.get? name).isSome

def size (s : Symbols) : Nat := s.entries.length

def isEmpty (s : Symbols) : Bool := s.entries.isEmpty

/-! ## Looking up after a declaration -/

theorem get?_declare_self (s : Symbols) (name : String) (type : ValueType) :
    (s.declare name type).get? name = some type := by
  obtain ⟨entries⟩ := s
  simp only [declare, get?]
  induction entries with
  | nil => simp [enter]
  | cons p rest ih =>
    obtain ⟨n, t⟩ := p
    unfold enter
    split
    · simp
    · next h =>
      have hb : (name == n) = false := by simpa using fun e => h e.symm
      simp [List.lookup_cons, hb, ih]

theorem get?_declare_of_ne (s : Symbols) {name other : String} (type : ValueType)
    (h : other ≠ name) : (s.declare name type).get? other = s.get? other := by
  obtain ⟨entries⟩ := s
  simp only [declare, get?]
  have hb : (other == name) = false := by simpa using h
  induction entries with
  | nil => simp [enter, List.lookup_cons, hb]
  | cons p rest ih =>
    obtain ⟨n, t⟩ := p
    unfold enter
    split
    · next e => subst e; simp [List.lookup_cons, hb]
    · simp only [List.lookup_cons]
      split
      · rfl
      · exact ih

end Symbols

end EvlCheck
