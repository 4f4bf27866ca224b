import Mathlib.Logic.Relation
import Nikl.Proofs.Value.Contents

/-
What lies inside a value, and what a change elsewhere leaves alone. A comparison reads the collections
inside the two values that it compares, and no others: in a store where these hold what they held, it
comes to the same answer (`equal?_of_unchanged`). So where two values have become equal that were not,
or can no longer be told apart, one of the collections inside them has been changed.

A store is closed if all that its collections hold is in it. What lies inside a value of a closed store
is then in the store as well, and never reads as empty for want of a collection.
-/

set_option autoImplicit false

namespace Nikl

namespace Value

/-! ## Values of a store -/

mutual

/-- Every collection that a value is, or has in its tuples, is one of the first so many. -/
def Stored (size : Nat) : Value → Prop
  | array r => r.index < size
  | map r => r.index < size
  | tuple items => AllStored size items
  | _ => True
termination_by structural v => v

/-- Every value of a list is stored. -/
def AllStored (size : Nat) : List Value → Prop
  | [] => True
  | v :: vs => v.Stored size ∧ AllStored size vs
termination_by structural vs => vs

end

section Stored

variable {n k : Nat} {vs : List Value}

theorem allStored_iff : AllStored n vs ↔ ∀ v ∈ vs, v.Stored n := by
  induction vs with
  | nil => exact ⟨fun _ => nofun, fun _ => trivial⟩
  | cons v vs ih => rw [AllStored, List.forall_mem_cons, ih]

theorem stored_tuple : (tuple vs).Stored n ↔ ∀ v ∈ vs, v.Stored n := allStored_iff

theorem Stored.mono {v : Value} (h : v.Stored n) (hk : n ≤ k) : v.Stored k := by
  induction v using inductTuple with
  | tuple items ih => exact stored_tuple.2 fun v hv => ih v hv (stored_tuple.1 h v hv)
  | other v hv =>
    cases v with
    | tuple items => exact absurd rfl (hv items)
    | array r => exact Nat.lt_of_lt_of_le h hk
    | map r => exact Nat.lt_of_lt_of_le h hk
    | _ => trivial

end Stored

end Value

/-- All keys and values are stored. -/
def Entries.Stored (size : Nat) (entries : Entries) : Prop :=
  ∀ e ∈ entries, e.1.Stored size ∧ e.2.Stored size

/-- All that a collection holds is stored. -/
def Cell.Stored (size : Nat) : Cell → Prop
  | array items => ∀ v ∈ items, v.Stored size
  | map entries => entries.Stored size

/-- The entries of a map. An array has none. -/
def Cell.entries : Cell → Entries
  | array _ => []
  | map entries => entries

/-! ## Closed stores -/

/-- **No collection holds a reference that the store does not know.** -/
def Store.Closed (s : Store) : Prop := ∀ (i : Nat) (c : Cell), s.cells[i]? = some c → c.Stored s.size

section Changes

variable {s : Store} {n k : Nat} {es : Entries}

theorem Entries.Stored.mono (h : es.Stored n) (hk : n ≤ k) : es.Stored k :=
  fun e he => ⟨(h e he).1.mono hk, (h e he).2.mono hk⟩

theorem Cell.Stored.mono {c : Cell} (h : c.Stored n) (hk : n ≤ k) : c.Stored k := by
  cases c with
  | array items => exact fun v hv => (h v hv).mono hk
  | map entries => exact Entries.Stored.mono h hk

theorem Entries.Stored.append {key value : Value} (h : es.Stored n) (hkey : key.Stored n)
    (hvalue : value.Stored n) : (es.append key value).Stored n :=
  Entries.All.append h hkey hvalue

/-- Writing to a place changes no key. -/
theorem Entries.keys_replaceAt (place : Nat) (value : Value) (es : Entries) :
    Entries.keys (es.replaceAt place value).2 = es.keys := by
  induction es generalizing place with
  | nil => cases place <;> rfl
  | cons e es ih =>
    cases place with
    | zero => rfl
    | succ place => exact congrArg (e.1 :: ·) (ih place)

theorem Entries.Stored.replaceAt {value : Value} (h : es.Stored n) (hvalue : value.Stored n)
    (place : Nat) : Entries.Stored n (es.replaceAt place value).2 :=
  Entries.All.replaceAt h hvalue place

namespace Store

theorem Closed.items (h : s.Closed) (r : Ref) : ∀ v ∈ s.items r, v.Stored s.size := by
  unfold Store.items
  split
  · next xs hcell => exact h r.index _ hcell
  · exact nofun

theorem Closed.entries (h : s.Closed) (r : Ref) : (s.entries r).Stored s.size := by
  unfold Store.entries
  split
  · next es hcell => exact h r.index _ hcell
  · exact nofun

theorem Closed.push (h : s.Closed) {c : Cell} (hc : c.Stored s.size) : (s.push c).Closed := by
  intro i d hd
  have hle : s.size ≤ (s.push c).size := by
    rw [size_push]
    exact Nat.le_succ _
  rw [cell_push s c ⟨i⟩] at hd
  split at hd
  · cases hd
    exact hc.mono hle
  · exact (h i d hd).mono hle

/-- What would be put behind the last collection is not put at all. -/
theorem put_of_size_le {r : Ref} {c : Cell} (h : s.size ≤ r.index) : s.put r c = s := by
  rw [Store.put, Array.setIfInBounds_eq_of_size_le h]

theorem Closed.put (h : s.Closed) {c : Cell} (hc : c.Stored s.size) (r : Ref) : (s.put r c).Closed := by
  intro i d hd
  rw [size_put]
  by_cases hr : r.index < s.size
  · rw [cell_put s r ⟨i⟩ c hr] at hd
    split at hd
    · cases hd
      exact hc
    · exact h i d hd
  · rw [put_of_size_le (Nat.le_of_not_lt hr)] at hd
    exact h i d hd

/-- After a new collection a map holds what it held, or it is the new one. -/
theorem entries_push (s : Store) (c : Cell) (r : Ref) :
    (s.push c).entries r = s.entries r ∨ (s.push c).entries r = c.entries := by
  unfold entries
  rw [cell_push]
  by_cases hr : r = s.next
  · rw [if_pos hr]
    right
    cases c <;> rfl
  · rw [if_neg hr]
    exact .inl rfl

/-- After a change of a collection a map holds what it held, or it is the changed one. -/
theorem entries_put (s : Store) (r q : Ref) (c : Cell) :
    (s.put r c).entries q = s.entries q ∨ (s.put r c).entries q = c.entries := by
  by_cases hr : r.index < s.size
  · unfold entries
    rw [cell_put s r q c hr]
    by_cases hq : q = r
    · rw [if_pos hq]
      right
      cases c <;> rfl
    · rw [if_neg hq]
      exact .inl rfl
  · left
    rw [put_of_size_le (Nat.le_of_not_lt hr)]

end Store

end Changes

namespace Value

/-! ## What lies inside -/

/-- A collection is a value, or is found in it on the way down. -/
def Inside (s : Store) (v : Value) (r : Ref) : Prop :=
  ∃ w, Relation.ReflTransGen (Holds s) v w ∧ (w = array r ∨ w = map r)

section Inside

variable {s : Store} {v w : Value} {r : Ref}

theorem Inside.of_held (hw : w ∈ v.held s) (h : Inside s w r) : Inside s v r := by
  obtain ⟨x, hx, hr⟩ := h
  exact ⟨x, .head hw hx, hr⟩

theorem inside_array (s : Store) (r : Ref) : Inside s (array r) r := ⟨array r, .refl, .inl rfl⟩

theorem inside_map (s : Store) (r : Ref) : Inside s (map r) r := ⟨map r, .refl, .inr rfl⟩

theorem Stored.of_held (hs : s.Closed) (hv : v.Stored s.size) (hw : w ∈ v.held s) :
    w.Stored s.size := by
  cases v with
  | tuple items => exact stored_tuple.1 hv w hw
  | array r => exact hs.items r w hw
  | map r =>
    obtain ⟨e, he, hwe⟩ := List.mem_flatMap.1 hw
    rw [List.mem_pair] at hwe
    rcases hwe with rfl | rfl
    · exact (hs.entries r e he).1
    · exact (hs.entries r e he).2
  | _ => cases hw

/-- What lies inside a value of a closed store is in the store. -/
theorem Inside.index_lt (hs : s.Closed) (hv : v.Stored s.size) (h : Inside s v r) :
    r.index < s.size := by
  obtain ⟨w, hw, hr⟩ := h
  have hstored : w.Stored s.size := by
    clear hr
    induction hw with
    | refl => exact hv
    | tail _ hw ih => exact ih.of_held hs hw
  rcases hr with rfl | rfl
  · exact hstored
  · exact hstored

end Inside

/-! ## What a change elsewhere leaves alone -/

/-- The collections inside a value of one store hold the same in another. -/
def Unchanged (s t : Store) (v : Value) : Prop :=
  ∀ r, Inside s v r → t.cells[r.index]? = s.cells[r.index]?

section Unchanged

variable {s t : Store} {v w : Value} {b : Bool}

theorem Unchanged.of_held (h : Unchanged s t v) (hw : w ∈ v.held s) : Unchanged s t w :=
  fun r hr => h r (hr.of_held hw)

theorem Unchanged.items {r : Ref} (h : Unchanged s t (array r)) : t.items r = s.items r := by
  rw [Store.items, Store.items, h r (inside_array s r)]

theorem Unchanged.entries {r : Ref} (h : Unchanged s t (map r)) : t.entries r = s.entries r := by
  rw [Store.entries, Store.entries, h r (inside_map s r)]

theorem Unchanged.held (h : Unchanged s t v) : v.held t = v.held s := by
  cases v with
  | array r => exact h.items
  | map r => exact congrArg (List.flatMap _) h.entries
  | _ => rfl

/-- Nothing else lies inside a value inside which nothing has changed. -/
theorem Unchanged.inside {r : Ref} (h : Unchanged s t v) (hr : Inside t v r) : Inside s v r := by
  obtain ⟨w, hw, hwr⟩ := hr
  refine ⟨w, ?_, hwr⟩
  induction hw using Relation.ReflTransGen.head_induction_on with
  | refl => exact .refl
  | head hvx _ ih =>
    rw [Holds, h.held] at hvx
    exact .head hvx (ih (h.of_held hvx))

theorem unchanged_put {r : Ref} (h : ¬ Inside s v r) (c : Cell) : Unchanged s (s.put r c) v := by
  intro q hq
  have hne : r.index ≠ q.index := by
    intro hindex
    have hrq : r = q := by
      cases r
      cases q
      exact congrArg Ref.mk hindex
    exact h (hrq ▸ hq)
  rw [Store.put, Array.getElem?_setIfInBounds_ne hne]

/-- One level of a comparison keeps its answer if what it compares below does. -/
theorem equalWith_unchanged {f g : Value → Value → Settled Bool}
    (hfg : ∀ v w b, Unchanged s t v → Unchanged s t w → f v w = some b → g v w = some b)
    (hv : Unchanged s t v) (hw : Unchanged s t w) (h : equalWith s f v w = some b) :
    equalWith t g v w = some b := by
  induction v using inductTuple generalizing w b with
  | tuple vs ih =>
    cases w with
    | tuple ws =>
      rw [equalWith_tuple] at h ⊢
      refine itemsEqual_extends (fun v hv' w hw' b hsame => ?_) h
      exact ih v hv' (hv.of_held hv') (hw.of_held hw') hsame
    | _ => exact h
  | other v hother =>
    cases v with
    | tuple items => exact absurd rfl (hother items)
    | array r =>
      cases w with
      | array q =>
        by_cases hrq : r = q
        · rw [hrq, (equalWith_self _ _ q).1] at h ⊢
          exact h
        · rw [equalWith_array _ hrq] at h ⊢
          rw [hv.items, hw.items]
          refine itemsEqual_extends (fun v hv' w hw' b => ?_) h
          exact hfg v w b (hv.of_held hv') (hw.of_held hw')
      | _ => exact h
    | map r =>
      cases w with
      | map q =>
        by_cases hrq : r = q
        · rw [hrq, (equalWith_self _ _ q).2] at h ⊢
          exact h
        · rw [equalWith_map _ hrq] at h ⊢
          rw [hv.entries, hw.entries]
          refine entriesEqual_extends (fun e he d hd b => ?_) (fun e he d hd b => ?_) h
          · exact hfg e.1 d.1 b (hw.of_held (held_key he)) (hv.of_held (held_key hd))
          · exact hfg e.2 d.2 b (hw.of_held (held_value he)) (hv.of_held (held_value hd))
      | _ => exact h
    | _ => cases w <;> exact h

theorem equalWithin_unchanged {n : Nat} (hv : Unchanged s t v) (hw : Unchanged s t w)
    (h : equalWithin s n v w = some b) : equalWithin t n v w = some b := by
  induction n generalizing v w b with
  | zero =>
    refine equalWith_unchanged (fun _ _ _ _ _ hnone => ?_) hv hw h
    cases hnone
  | succ n ih => exact equalWith_unchanged (fun v w b hv hw => ih hv hw) hv hw h

/-- **A comparison depends on nothing but the collections inside the two values.** -/
theorem equal?_unchanged (hv : Unchanged s t v) (hw : Unchanged s t w) (h : equal? s v w = some b) :
    equal? t v w = some b := by
  obtain ⟨n, hn⟩ := equal?_eq_some_iff.1 h
  exact equal?_eq_some_iff.2 ⟨n, equalWithin_unchanged hv hw hn⟩

end Unchanged

end Value
end Nikl
