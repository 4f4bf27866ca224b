import Mathlib.Data.Fintype.Card
import Mathlib.Data.Finite.Prod
import Mathlib.Logic.Relation
import Nikl.Proofs.Value.Comparison

/-
What values hold, and how deep they nest. A tuple holds its items, and an array or a map holds what the
store has for it. A store is acyclic if no value is found inside itself on the way down. There are
finitely many collections, so each way down ends there, and every value nests to some depth
(`Store.Acyclic.nests`). That depth is what inductions over values of an acyclic store go along: two or
three values that are compared side by side have a common depth, while the trees under them differ.
-/

set_option autoImplicit false

namespace Nikl

namespace Value

/-- What a value holds directly. -/
def held (s : Store) : Value → List Value
  | tuple items => items
  | array r => s.items r
  | map r => (s.entries r).flatMap fun e => [e.1, e.2]
  | _ => []

/-- One value holds another directly. -/
def Holds (s : Store) (v w : Value) : Prop := w ∈ v.held s

/-- A value nests less than so deep. -/
def Nests (s : Store) : Nat → Value → Prop
  | 0, _ => False
  | n + 1, v => ∀ w ∈ v.held s, Nests s n w

instance decidableNests (s : Store) : (n : Nat) → (v : Value) → Decidable (Nests s n v)
  | 0, _ => .isFalse id
  | n + 1, v =>
    have := decidableNests s n
    inferInstanceAs (Decidable (∀ w ∈ v.held s, Nests s n w))

section Held

variable {s : Store} {n : Nat} {r : Ref} {e : Value × Value}

theorem held_key (h : e ∈ s.entries r) : e.1 ∈ (map r).held s :=
  List.mem_flatMap.2 ⟨e, h, List.mem_cons_self⟩

theorem held_value (h : e ∈ s.entries r) : e.2 ∈ (map r).held s :=
  List.mem_flatMap.2 ⟨e, h, List.mem_cons_of_mem _ List.mem_cons_self⟩

theorem Nests.succ {v : Value} (h : Nests s n v) : Nests s (n + 1) v := by
  induction n generalizing v with
  | zero => exact h.elim
  | succ n ih => exact fun w hw => ih (h w hw)

theorem Nests.mono {v : Value} {k : Nat} (h : Nests s n v) (hk : n ≤ k) : Nests s k v := by
  induction hk with
  | refl => exact h
  | step _ ih => exact ih.succ

/-- A value nests if all that it holds does: the greatest of the depths is enough for all. -/
theorem nests_of_held {v : Value} (h : ∀ w ∈ v.held s, ∃ n, Nests s n w) : ∃ n, Nests s n v := by
  have common : ∀ ws : List Value, (∀ w ∈ ws, ∃ n, Nests s n w) → ∃ n, ∀ w ∈ ws, Nests s n w := by
    intro ws
    induction ws with
    | nil => exact fun _ => ⟨0, nofun⟩
    | cons w ws ih =>
      intro hws
      rw [List.forall_mem_cons] at hws
      obtain ⟨n, hn⟩ := hws.1
      obtain ⟨k, hk⟩ := ih hws.2
      refine ⟨max n k, List.forall_mem_cons.2 ⟨hn.mono (Nat.le_max_left n k), fun x hx => ?_⟩⟩
      exact (hk x hx).mono (Nat.le_max_right n k)
  obtain ⟨n, hn⟩ := common _ h
  exact ⟨n + 1, hn⟩

end Held

/-- The collections of a store, each as an array and as a map. -/
def Known (s : Store) (v : Value) : Prop := ∃ i : Fin s.size, v = array ⟨i⟩ ∨ v = map ⟨i⟩

instance finite_known (s : Store) : Finite { v : Value // Known s v } := by
  let collection (p : Fin s.size × Bool) : { v : Value // Known s v } :=
    if p.2 then ⟨array ⟨p.1⟩, p.1, .inl rfl⟩ else ⟨map ⟨p.1⟩, p.1, .inr rfl⟩
  refine Finite.of_surjective collection ?_
  rintro ⟨v, i, rfl | rfl⟩
  · exact ⟨(i, true), rfl⟩
  · exact ⟨(i, false), rfl⟩

/-- What holds something and is no tuple is a collection of the store. -/
theorem known_of_held {s : Store} {v w : Value} (hv : ∀ items, v ≠ tuple items) (h : w ∈ v.held s) :
    Known s v := by
  cases v with
  | tuple items => exact absurd rfl (hv items)
  | array r => exact ⟨⟨r.index, s.index_lt_of_items (List.ne_nil_of_mem h)⟩, .inl rfl⟩
  | map r =>
    have hne : s.entries r ≠ [] := by
      intro hnil
      rw [held, hnil] at h
      cases h
    exact ⟨⟨r.index, s.index_lt_of_entries hne⟩, .inr rfl⟩
  | _ => cases h

end Value

open Value

/-- No value is found inside itself. -/
def Store.Acyclic (s : Store) : Prop := ∀ v, ¬ Relation.TransGen (Holds s) v v

/-- **In an acyclic store every value nests to some depth.** Below a collection only other collections
are found, and there are finitely many of them. -/
theorem Store.Acyclic.nests {s : Store} (hs : s.Acyclic) (v : Value) : ∃ n, Nests s n v := by
  let Below (c d : { v : Value // Known s v }) : Prop := Relation.TransGen (Holds s) d.1 c.1
  have hwf : WellFounded Below := by
    have : IsTrans _ Below := ⟨fun _ _ _ hab hbc => hbc.trans hab⟩
    have : Std.Irrefl Below := ⟨fun c => hs c.1⟩
    exact Finite.wellFounded_of_trans_of_irrefl Below
  -- tuples are gone through on the way from one collection to the next
  have down : ∀ (P : Value → Prop), (∀ v w, P v → Holds s v w → P w) →
      (∀ c : { v : Value // Known s v }, P c.1 → ∃ n, Nests s n c.1) →
      ∀ v, P v → ∃ n, Nests s n v := by
    intro P hP hknown v
    induction v using inductTuple with
    | tuple items ih => exact fun hv => nests_of_held fun w hw => ih w hw (hP _ w hv hw)
    | other v hv =>
      intro hPv
      by_cases hempty : v.held s = []
      · exact ⟨1, by simp [Nests, hempty]⟩
      · obtain ⟨w, hw⟩ := List.exists_mem_of_ne_nil _ hempty
        exact hknown ⟨v, known_of_held hv hw⟩ hPv
  have known : ∀ c : { v : Value // Known s v }, ∃ n, Nests s n c.1 := by
    intro c
    induction c using hwf.induction with
    | h c ih =>
      refine nests_of_held fun w hw => ?_
      refine down (fun v => Relation.TransGen (Holds s) c.1 v) (fun v w hv hw => hv.tail hw) ?_ w
        (.single hw)
      exact fun d hd => ih d hd
  exact down (fun _ => True) (fun _ _ _ _ => trivial) (fun c _ => known c) v trivial

/-- A value found in one that nests to some depth nests less deep. -/
theorem Value.Nests.inside {s : Store} {n : Nat} {v w : Value} (hv : Nests s n v)
    (h : Relation.TransGen (Holds s) v w) : ∃ k < n, Nests s k w := by
  induction h with
  | single hw =>
    cases n with
    | zero => exact hv.elim
    | succ n => exact ⟨n, n.lt_succ_self, hv _ hw⟩
  | tail _ hw ih =>
    obtain ⟨k, hk, hnests⟩ := ih
    cases k with
    | zero => exact hnests.elim
    | succ k => exact ⟨k, Nat.lt_trans k.lt_succ_self hk, hnests _ hw⟩

/-- A store is acyclic just when every value nests to some depth. -/
theorem Store.acyclic_iff_nests {s : Store} : s.Acyclic ↔ ∀ v, ∃ n, Nests s n v := by
  refine ⟨Store.Acyclic.nests, fun h v hv => ?_⟩
  obtain ⟨n, hn⟩ := h v
  -- a value inside itself would nest less and less deep
  induction n using Nat.strongRecOn with
  | ind n ih =>
    obtain ⟨k, hk, hnests⟩ := hn.inside hv
    exact ih k hk hnests

end Nikl
