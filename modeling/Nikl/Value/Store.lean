import Nikl.Value

/-
The collections that a program has made. A store only grows: a new collection is put behind all
others, and what is put in place of an old one is of the same kind.

Reading is total. A reference that the store does not know reads as an empty collection; no program
comes to hold one.
-/

set_option autoImplicit false

namespace Nikl

/-- The keys and values of a map in the order in which the keys were first written (`OrderedMap`). -/
abbrev Entries (ν : Type := String) := List (Value ν × Value ν)

/-- What a collection holds (`Value::Array`, `Value::HashMap`). -/
inductive Cell (ν : Type := String) where
  | array (items : List (Value ν))
  | map (entries : Entries ν)
  deriving Inhabited

/-- The collections of a program, oldest first (what the handles of `Heap` share). -/
structure Store (ν : Type := String) where
  cells : Array (Cell ν) := #[]
  deriving Inhabited

namespace Store

variable {ν : Type}

/-- How many collections there are. -/
def size (s : Store ν) : Nat := s.cells.size

/-- The items of an array. -/
def items (s : Store ν) (r : Ref) : List (Value ν) :=
  match s.cells[r.index]? with
  | some (.array xs) => xs
  | _ => []

/-- The entries of a map. -/
def entries (s : Store ν) (r : Ref) : Entries ν :=
  match s.cells[r.index]? with
  | some (.map es) => es
  | _ => []

/-- The reference that the next new collection gets. -/
def next (s : Store ν) : Ref := ⟨s.size⟩

/-- The store with one more collection. -/
def push (s : Store ν) (c : Cell ν) : Store ν := ⟨s.cells.push c⟩

/-- The store with other contents for one collection. -/
def put (s : Store ν) (r : Ref) (c : Cell ν) : Store ν := ⟨s.cells.setIfInBounds r.index c⟩

/-! ## What is read after a change -/

@[simp] theorem size_push (s : Store ν) (c : Cell ν) : (s.push c).size = s.size + 1 := by
  simp [push, size]

@[simp] theorem size_put (s : Store ν) (r : Ref) (c : Cell ν) : (s.put r c).size = s.size := by
  simp [put, size]

theorem cell_push (s : Store ν) (c : Cell ν) (r : Ref) :
    (s.push c).cells[r.index]? = if r = s.next then some c else s.cells[r.index]? := by
  have : r = s.next ↔ r.index = s.cells.size := by
    cases r; simp [next, size]
  simp only [push, Array.getElem?_push, this]

theorem cell_put (s : Store ν) (r q : Ref) (c : Cell ν) (h : r.index < s.size) :
    (s.put r c).cells[q.index]? = if q = r then some c else s.cells[q.index]? := by
  have : q = r ↔ q.index = r.index := by
    cases q; cases r; simp
  by_cases hq : q = r
  · subst hq
    simp_all [put, size]
  · have hne : r.index ≠ q.index := fun e => hq (this.2 e.symm)
    simp [put, hq, Array.getElem?_setIfInBounds_ne hne]

end Store

namespace Value

variable {ν : Type}

/-- How many items a value has, characters for a text (`Value::len`). -/
def length? (s : Store ν) : Value ν → Option Nat
  | string text => some text.length
  | array r => some (s.items r).length
  | map r => some (s.entries r).length
  | tuple items => some items.length
  | _ => Option.none

/-- Whether a value counts as true: all do but `False`, `None`, zero and what has no items
(`Value::is_truthy`). -/
def isTruthy (s : Store ν) : Value ν → Bool
  | bool b => b
  | int n => n != 0
  | float x => x != 0.0
  | string text => !text.isEmpty
  | array r => !(s.items r).isEmpty
  | map r => !(s.entries r).isEmpty
  | tuple items => !items.isEmpty
  | none => false
  | function _ | builtin _ => true

end Value
end Nikl
