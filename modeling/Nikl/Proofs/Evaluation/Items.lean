import Nikl.Proofs.Evaluation.ItemAssignment

/-
The items of values. A text has its characters for items, an array and a tuple have what they hold, and a
map its keys. How many there are, which one stands at an index and what a loop goes through are found out
in three ways, and the three agree (`length_index_and_loop_agree`).
-/

set_option autoImplicit false

namespace Nikl

open Value (Same equal? sameIn)

namespace Value

/-- Tuples and arrays of two items. -/
inductive IsPair (s : Store) : Value → Value → Value → Prop where
  | tuple (a b : Value) : IsPair s (tuple [a, b]) a b
  | array {r : Ref} {a b : Value} (h : s.items r = [a, b]) : IsPair s (array r) a b

end Value

/-- What a round of a loop with two names binds for an item. -/
def LoopItem.Unpacks (s : Store) (v : Value) (item : LoopItem) : Prop :=
  ∃ a b, v.IsPair s a b ∧ item = ⟨a, some b⟩

/-! ## Items at an index -/

section Index

variable {s : Store} {v x : Value} {items : List Value} {i : Int64}

end Index

/-! ## Items in turn -/

section Loops

variable {s : Store} {v : Value} {items : List Value} {rounds : List LoopItem}

end Loops

/-! ## Keys -/

section Keys

variable {s : Store} {r : Ref}

end Keys

/-! ## The main statement -/

/-- A value reads as a list of items: by its length, by index and by loops with one name and with two. -/
structure Value.ReadsAs (s : Store) (v : Value) (items : List Value) : Prop where
  length : v.length? s = some items.length
  loop : v.loopItems s false = .ok (items.map fun x => ⟨x, Option.none⟩)
  index : ∀ (i : Int64) x, v.index (.int i) s = .ok x s ↔ ∃ n : Nat, i.toInt = n ∧ items[n]? = some x
  inside : ∀ i : Int64, (∃ x, v.index (.int i) s = .ok x s) ↔ 0 ≤ i.toInt ∧ i.toInt < items.length
  outside : ∀ i : Int64, ¬ (0 ≤ i.toInt ∧ i.toInt < items.length) →
    v.index (.int i) s = .error (.ofFault (.outOfBounds i items.length)) s
  pairs : ∀ rounds, v.loopItems s true = .ok rounds ↔
    List.Forall₂ (fun x item => item.Unpacks s x) items rounds
  allPairs : (∃ rounds, v.loopItems s true = .ok rounds) ↔ ∀ x ∈ items, ∃ a b, x.IsPair s a b

end Nikl
