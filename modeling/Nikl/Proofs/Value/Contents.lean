import Nikl.Proofs.Value.Nesting

/-
Properties of all values in a collection, in a store, or down through tuples. What is said of values is
handed on in one of these ways: a collection holds only values with a property, a map has it of its keys
and of what they are given, and a tuple is no more than the values in it, in tuples of tuples as well.
-/

set_option autoImplicit false

namespace Nikl

/-! ## Collections -/

/-- All that a collection holds directly. -/
def Cell.contents : Cell → List Value
  | array items => items
  | map entries => entries.flatMap fun e => [e.1, e.2]

/-- The value that refers to a collection. -/
def Cell.at (r : Ref) : Cell → Value
  | array _ => .array r
  | map _ => .map r

/-- What is held by a value that is no tuple is in a collection that the value refers to. -/
theorem Value.cell_of_held {s : Store} {v w : Value} (hv : ∀ items, v ≠ tuple items)
    (h : w ∈ v.held s) : ∃ (r : Ref) (c : Cell),
      s.cells[r.index]? = some c ∧ c.at r = v ∧ w ∈ c.contents := by
  cases v with
  | tuple items => exact absurd rfl (hv items)
  | array r =>
    rw [held, Store.items] at h
    split at h
    · next items hcell => exact ⟨r, _, hcell, rfl, h⟩
    · cases h
  | map r =>
    rw [held, Store.entries] at h
    split at h
    · next entries hcell => exact ⟨r, _, hcell, rfl, h⟩
    · cases h
  | _ => cases h

/-! ## Entries -/

/-- All keys and values have a property. -/
def Entries.All (P : Value → Prop) (entries : Entries) : Prop := ∀ e ∈ entries, P e.1 ∧ P e.2

namespace Entries.All

variable {P : Value → Prop} {entries : Entries} {key value : Value}

theorem replaceAt (h : Entries.All P entries) (hvalue : P value) (place : Nat) :
    Entries.All P (entries.replaceAt place value).2 := by
  induction entries generalizing place with
  | nil => cases place <;> exact nofun
  | cons e es ih =>
    obtain ⟨he, hrest⟩ := List.forall_mem_cons.1 h
    cases place with
    | zero => exact List.forall_mem_cons.2 ⟨⟨he.1, hvalue⟩, hrest⟩
    | succ place => exact List.forall_mem_cons.2 ⟨he, ih hrest place⟩

theorem append (h : Entries.All P entries) (hkey : P key) (hvalue : P value) :
    Entries.All P (entries.append key value) := by
  intro e he
  rcases List.mem_append.1 he with he | he
  · exact h e he
  · rw [List.mem_singleton.1 he]
    exact ⟨hkey, hvalue⟩

theorem iff_contents : Entries.All P entries ↔ ∀ v ∈ (Cell.map entries).contents, P v := by
  refine ⟨fun h v hv => ?_, fun h e he => ?_⟩
  · obtain ⟨e, he, hve⟩ := List.mem_flatMap.1 hv
    rw [List.mem_pair] at hve
    rcases hve with rfl | rfl
    · exact (h e he).1
    · exact (h e he).2
  · have hboth : ∀ v ∈ [e.1, e.2], P v := fun v hv => h v (List.mem_flatMap.2 ⟨e, he, hv⟩)
    exact ⟨hboth e.1 (by simp), hboth e.2 (by simp)⟩

end Entries.All

/-! ## Stores -/

/-- All that collections hold has a property. -/
def Store.HoldsOnly (P : Value → Prop) (s : Store) : Prop :=
  ∀ (i : Nat) (c : Cell), s.cells[i]? = some c → ∀ v ∈ c.contents, P v

namespace Store.HoldsOnly

variable {P Q : Value → Prop} {s : Store} {c : Cell}

theorem mono (h : s.HoldsOnly P) (hPQ : ∀ v, P v → Q v) : s.HoldsOnly Q :=
  fun i c hc v hv => hPQ v (h i c hc v hv)

theorem push (h : s.HoldsOnly P) (hc : ∀ v ∈ c.contents, P v) : (s.push c).HoldsOnly P := by
  intro i d hd
  rw [s.cell_push c ⟨i⟩] at hd
  split at hd
  · cases hd
    exact hc
  · exact h i d hd

theorem put {r : Ref} (h : s.HoldsOnly P) (hr : r.index < s.size) (hc : ∀ v ∈ c.contents, P v) :
    (s.put r c).HoldsOnly P := by
  intro i d hd
  rw [s.cell_put r ⟨i⟩ c hr] at hd
  split at hd
  · cases hd
    exact hc
  · exact h i d hd

end Store.HoldsOnly

/-! ## Tuples -/

namespace Value

mutual

/-- A property that a value has, or all that it has in its tuples. -/
def Throughout (P : Value → Prop) : Value → Prop
  | tuple items => AllThroughout P items
  | v => P v
termination_by structural v => v

/-- Each value of a list has a property, down through tuples. -/
def AllThroughout (P : Value → Prop) : List Value → Prop
  | [] => True
  | v :: vs => v.Throughout P ∧ AllThroughout P vs
termination_by structural vs => vs

end

variable {P Q : Value → Prop} {v : Value} {vs : List Value}

theorem allThroughout_iff : AllThroughout P vs ↔ ∀ v ∈ vs, v.Throughout P := by
  induction vs with
  | nil => exact ⟨fun _ => nofun, fun _ => trivial⟩
  | cons v vs ih => rw [AllThroughout, List.forall_mem_cons, ih]

theorem throughout_tuple : (tuple vs).Throughout P ↔ ∀ v ∈ vs, v.Throughout P := allThroughout_iff

theorem throughout_of_ne (h : ∀ items, v ≠ tuple items) : v.Throughout P ↔ P v := by
  cases v with
  | tuple items => exact absurd rfl (h items)
  | _ => exact Iff.rfl

theorem Throughout.mono (h : v.Throughout P) (hPQ : ∀ w, P w → Q w) : v.Throughout Q := by
  induction v using inductTuple with
  | tuple items ih => exact throughout_tuple.2 fun w hw => ih w hw (throughout_tuple.1 h w hw)
  | other v hv => exact (throughout_of_ne hv).2 (hPQ v ((throughout_of_ne hv).1 h))

/-- What a value holds has a property if the value has it, and all that collections hold. -/
theorem Throughout.held {s : Store} {w : Value} (hs : s.HoldsOnly (Throughout P))
    (hv : v.Throughout P) (hw : w ∈ v.held s) : w.Throughout P := by
  by_cases htuple : ∃ items, v = tuple items
  · obtain ⟨items, rfl⟩ := htuple
    exact throughout_tuple.1 hv w hw
  · obtain ⟨r, c, hc, -, hwc⟩ := cell_of_held (fun items h => htuple ⟨items, h⟩) hw
    exact hs r.index c hc w hwc

end Value
end Nikl
