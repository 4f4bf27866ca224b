import Nikl.Proofs.Value.Equivalence
import Nikl.Proofs.Value.Inside
import Nikl.Proofs.Value.Writing

/-
Collections that hold older ones only. A new collection is made of values that there are, so it is younger
than all that it holds; only a change of its contents can put something younger into it. As long as no
collection is changed, the way down from a value goes to older and older collections and comes to an end.

So values nest, comparisons have answers, and writing a value never meets a collection that is being
written: the text is the one that is written with no look at what is open (`plainWithin`).
-/

set_option autoImplicit false

namespace Nikl

open Value

/-- Every collection holds older collections only. -/
def Store.Aged (s : Store) : Prop := ∀ (i : Nat) (c : Cell), s.cells[i]? = some c → c.Stored i

namespace Store.Aged

variable {s : Store} {v w : Value} {r : Ref} {n : Nat}

theorem closed (h : s.Aged) : s.Closed :=
  fun i c hc => (h i c hc).mono (Nat.le_of_lt (Array.getElem?_eq_some_iff.1 hc).1)

theorem push (h : s.Aged) {c : Cell} (hc : c.Stored s.size) : (s.push c).Aged := by
  intro i d hd
  rw [s.cell_push c ⟨i⟩] at hd
  split at hd
  · next hi =>
    cases hd
    rw [show i = s.size from congrArg Ref.index hi]
    exact hc
  · exact h i d hd

theorem items (h : s.Aged) (r : Ref) : ∀ v ∈ s.items r, v.Stored r.index := by
  unfold Store.items
  split
  · next xs hcell => exact h r.index _ hcell
  · exact nofun

theorem entries (h : s.Aged) (r : Ref) : (s.entries r).Stored r.index := by
  unfold Store.entries
  split
  · next es hcell => exact h r.index _ hcell
  · exact nofun

/-- What a collection holds is older. -/
theorem held (h : s.Aged) (hv : v = array r ∨ v = map r) (hw : w ∈ v.held s) : w.Stored r.index := by
  rcases hv with rfl | rfl
  · exact h.items r w hw
  · obtain ⟨e, he, hwe⟩ := List.mem_flatMap.1 hw
    rw [List.mem_pair] at hwe
    rcases hwe with rfl | rfl
    · exact (h.entries r e he).1
    · exact (h.entries r e he).2

/-! ## Nesting -/

/-- A value made of so many collections nests: the induction is on how old they are. -/
theorem nests_of_stored (h : s.Aged) (hv : v.Stored n) : ∃ k, Nests s k v := by
  induction n using Nat.strongRecOn generalizing v with
  | ind n ih =>
    induction v using inductTuple with
    | tuple items ihItems =>
      exact nests_of_held fun w hw => ihItems w hw (stored_tuple.1 hv w hw)
    | other v hother =>
      cases v with
      | tuple items => exact absurd rfl (hother items)
      | array r => exact nests_of_held fun w hw => ih r.index hv (h.held (.inl rfl) hw)
      | map r => exact nests_of_held fun w hw => ih r.index hv (h.held (.inr rfl) hw)
      | _ => exact ⟨1, nofun⟩

theorem nests (h : s.Aged) (v : Value) : ∃ k, Nests s k v := by
  induction v using inductTuple with
  | tuple items ih => exact nests_of_held ih
  | other v hother =>
    cases v with
    | tuple items => exact absurd rfl (hother items)
    | array r => exact nests_of_held fun w hw => h.nests_of_stored (h.held (.inl rfl) hw)
    | map r => exact nests_of_held fun w hw => h.nests_of_stored (h.held (.inr rfl) hw)
    | _ => exact ⟨1, nofun⟩

end Store.Aged

/-- The way down from a value that nests comes to an end. -/
theorem Value.Nests.acc {s : Store} {n : Nat} {v : Value} (h : Nests s n v) :
    Acc (fun w v => Holds s v w) v := by
  induction n generalizing v with
  | zero => exact h.elim
  | succ n ih => exact .intro v fun w hw => ih (h w hw)

namespace Store.Aged

variable {s : Store}

/-- **Holding is well-founded.** -/
theorem wellFounded (h : s.Aged) : WellFounded fun w v => Holds s v w :=
  ⟨fun v => (h.nests v).elim fun _ hn => hn.acc⟩

/-- **Every comparison has an answer.** -/
theorem equal? (h : s.Aged) (v w : Value) : ∃ same, v.equal? s w = some same := by
  obtain ⟨n, hv⟩ := h.nests v
  obtain ⟨k, hw⟩ := h.nests w
  exact Option.isSome_iff_exists.1
    (isSome_equal?_of_nests (hv.mono (Nat.le_max_left n k)) (hw.mono (Nat.le_max_right n k)))

end Store.Aged

/-! ## Writing -/

namespace Value

/-- The form of a value in which collections nest at most so deep, written as if no collection were open
around another. So no collection is ever shown by three dots. -/
def plainWithin (s : Store) : (depth : Nat) → Value → List Char
  | 0 => textWith s (fun _ _ => []) []
  | depth + 1 => textWith s (fun _ => plainWithin s depth) []

section Plain

variable {s : Store} {opened : List Ref} {n : Nat} {v : Value}

/-- On one level it makes no difference what is open, if that is younger than all that the value is made
of. -/
theorem textWith_eq_plain {inner : List Ref → Value → List Char} {plain : Value → List Char}
    (hv : v.Stored n) (hopened : ∀ r ∈ opened, n ≤ r.index)
    (hinner : ∀ r w, r.index < n → w ∈ (array r).held s ∨ w ∈ (map r).held s →
      inner (r :: opened) w = plain w) :
    textWith s inner opened v = textWith s (fun _ => plain) [] v := by
  have closed : ∀ r : Ref, r.index < n → r ∉ opened := fun r hr hin =>
    Nat.lt_irrefl _ (Nat.lt_of_lt_of_le hr (hopened r hin))
  induction v using inductTuple with
  | tuple items ih =>
    rw [textWith_tuple, textWith_tuple]
    exact congrArg tupleText (List.map_congr_left fun w hw => ih w hw (stored_tuple.1 hv w hw))
  | other v hother =>
    cases v with
    | tuple items => exact absurd rfl (hother items)
    | array r =>
      have hitems : (s.items r).map (inner (r :: opened)) = (s.items r).map plain :=
        List.map_congr_left fun w hw => hinner r w hv (.inl hw)
      rw [textWith_array _ s (closed r hv), textWith_array _ s List.not_mem_nil, hitems]
    | map r =>
      have hentries : ((s.entries r).map fun e =>
          entryText (inner (r :: opened) e.1) (inner (r :: opened) e.2)) =
          (s.entries r).map fun e => entryText (plain e.1) (plain e.2) := by
        refine List.map_congr_left fun e he => ?_
        rw [hinner r e.1 hv (.inr (held_key he)), hinner r e.2 hv (.inr (held_value he))]
      rw [textWith_map _ s (closed r hv), textWith_map _ s List.not_mem_nil, hentries]
    | _ => rfl

end Plain

end Value

namespace Store.Aged

variable {s : Store} {opened : List Ref} {n depth : Nat} {v : Value}

theorem textWithin_eq_plain (h : s.Aged) (hv : v.Stored n) (hopened : ∀ r ∈ opened, n ≤ r.index)
    (hn : n ≤ depth) : v.textWithin s depth opened = v.plainWithin s depth := by
  induction depth generalizing n opened v with
  | zero =>
    refine textWith_eq_plain hv hopened fun r w hr => ?_
    exact absurd (Nat.lt_of_lt_of_le hr hn) (Nat.not_lt_zero _)
  | succ depth ih =>
    refine textWith_eq_plain hv hopened fun r w hr hw => ?_
    -- below a collection everything is older than it, and so than all that is open
    have hstored : w.Stored r.index := hw.elim (h.held (.inl rfl)) (h.held (.inr rfl))
    refine ih hstored (List.forall_mem_cons.2 ⟨Nat.le_refl _, fun q hq => ?_⟩) ?_
    · exact Nat.le_trans (Nat.le_of_lt hr) (hopened q hq)
    · exact Nat.le_of_lt_succ (Nat.lt_of_lt_of_le hr hn)

/-- **No collection is shown by dots.** -/
theorem text_eq_plain (h : s.Aged) (hv : v.Stored s.size) (hdepth : s.size ≤ depth) :
    v.text s = String.ofList (v.plainWithin s depth) := by
  rw [text, ← textWithin_stable v hdepth, h.textWithin_eq_plain hv (List.forall_mem_nil _) hdepth]

end Store.Aged
end Nikl
