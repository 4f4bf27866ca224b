import Nikl.Evaluation.Indexing
import Nikl.Proofs.Value.Inside

/-
Values that hold nothing: numbers, truth values, texts and `None`. They are what literals stand for, what
operators make of other values unless they join two arrays, and what built-in functions give back. So
whatever is said of values by what they hold is said of these without a look at the collections.
-/

set_option autoImplicit false

namespace Nikl.Value

/-- Whether a value holds nothing and is no function. -/
def IsScalar : Value → Prop
  | int _ | float _ | bool _ | string _ | none => True
  | _ => False

variable {v : Value}

theorem IsScalar.stored (h : v.IsScalar) (n : Nat) : v.Stored n := by
  cases v with
  | tuple items => exact h.elim
  | array r => exact h.elim
  | map r => exact h.elim
  | _ => trivial

theorem IsScalar.throughout {P : Value → Prop} (h : v.IsScalar) (hP : P v) : v.Throughout P := by
  cases v with
  | tuple items => exact h.elim
  | _ => exact hP

theorem isScalar_ofLiteral (l : Literal) : (ofLiteral l).IsScalar := by
  cases l <;> trivial

theorem isScalar_letters (content : String) : ∀ v ∈ letters content, v.IsScalar := by
  intro v hv
  obtain ⟨c, -, rfl⟩ := List.mem_map.1 hv
  trivial

theorem isScalar_of_checked {operation : Arithmetic} {result : Option Int64}
    (h : BinaryOp.checked operation result = .ok v) : v.IsScalar := by
  cases result with
  | none => cases h
  | some m =>
    cases h
    trivial

theorem isScalar_of_onInts {op : BinaryOp} {a b : Int64} (h : op.onInts a b = .ok v) : v.IsScalar := by
  unfold BinaryOp.onInts at h
  split at h
  · exact isScalar_of_checked h
  · exact isScalar_of_checked h
  · exact isScalar_of_checked h
  · split at h
    · cases h
    · exact isScalar_of_checked h
  · split at h
    · cases h
    · exact isScalar_of_checked h
  · cases h
    trivial

theorem isScalar_of_onFloats {op : BinaryOp} {a b : Float} (h : op.onFloats a b = .ok v) :
    v.IsScalar := by
  unfold BinaryOp.onFloats at h
  split at h
  · cases h
    trivial
  · cases h
    trivial
  · cases h
    trivial
  · split at h <;> cases h
    trivial
  · split at h <;> cases h
    trivial
  · cases h
    trivial

theorem isScalar_of_onStrings {op : BinaryOp} {a b : String} (h : op.onStrings a b = .ok v) :
    v.IsScalar := by
  unfold BinaryOp.onStrings at h
  split at h
  · cases h
    trivial
  · split at h <;> cases h
    trivial

/-- Operators on scalars make scalars. -/
theorem isScalar_of_onScalars {op : BinaryOp} {l r : Value} (h : op.onScalars l r = .ok v) :
    v.IsScalar := by
  unfold BinaryOp.onScalars at h
  split at h
  · exact isScalar_of_onInts h
  · exact isScalar_of_onFloats h
  · exact isScalar_of_onFloats h
  · exact isScalar_of_onFloats h
  · exact isScalar_of_onStrings h
  · cases h

/-- What a built-in function gives back is a scalar. -/
theorem isScalar_of_apply {s : Store} {b : Builtin} {args : List Value} {printed : String}
    (h : b.apply s args = .ok (printed, v)) : v.IsScalar := by
  unfold Builtin.apply at h
  split at h
  · cases h
    trivial
  · split at h <;> cases h
    trivial
  · cases h

end Nikl.Value

namespace Nikl

/-! ## What a loop goes through -/

/-- What a round of a loop binds has a property. -/
def LoopItem.All (P : Value → Prop) (item : LoopItem) : Prop :=
  P item.first ∧ ∀ v, item.second = some v → P v

namespace LoopItem

variable {P : Value → Prop} {s : Store} {v : Value} {items : List LoopItem}

theorem all_of_pair? {item : LoopItem} (h : ∀ w ∈ v.held s, P w) (hitem : v.pair? s = .ok item) :
    item.All P := by
  unfold Value.pair? at hitem
  split at hitem
  · next a b =>
    cases hitem
    exact ⟨h a (by simp [Value.held]), fun w hw => Option.some.inj hw ▸ h b (by simp [Value.held])⟩
  · cases hitem
  · next r =>
    split at hitem
    · next a b hitems =>
      cases hitem
      have hab : ∀ w ∈ [a, b], P w := fun w hw => h w (show w ∈ s.items r from hitems ▸ hw)
      exact ⟨hab a (by simp), fun w hw => Option.some.inj hw ▸ hab b (by simp)⟩
    · cases hitem
  · cases hitem

theorem all_of_mapM {vs : List Value} (hheld : ∀ v w, P v → w ∈ v.held s → P w) (hvs : ∀ v ∈ vs, P v)
    (h : vs.mapM (Value.pair? s) = .ok items) : ∀ item ∈ items, item.All P := by
  induction vs generalizing items with
  | nil =>
    cases h
    exact nofun
  | cons v vs ih =>
    obtain ⟨hv, hvs⟩ := List.forall_mem_cons.1 hvs
    rw [List.mapM_cons] at h
    cases hpair : v.pair? s with
    | error fault =>
      rw [hpair] at h
      cases h
    | ok item =>
      cases hrest : vs.mapM (Value.pair? s) with
      | error fault =>
        rw [hpair, hrest] at h
        cases h
      | ok rest =>
        rw [hpair, hrest] at h
        cases h
        exact List.forall_mem_cons.2 ⟨all_of_pair? (hheld v · hv) hpair, ih hvs hrest⟩

/-- The items of a loop have every property of the value that is handed down to what a value holds, and
that scalar values have. -/
theorem all_of_loopItems {pairs : Bool} (hheld : ∀ v w, P v → w ∈ v.held s → P w)
    (hscalar : ∀ v : Value, v.IsScalar → P v) (hv : P v) (h : v.loopItems s pairs = .ok items) :
    ∀ item ∈ items, item.All P := by
  have each : ∀ vs : List Value, (∀ w ∈ vs, P w) →
      (if pairs then vs.mapM (Value.pair? s) else .ok (vs.map fun v => ⟨v, none⟩)) = .ok items →
      ∀ item ∈ items, item.All P := by
    intro vs hvs hitems
    split at hitems
    · exact all_of_mapM hheld hvs hitems
    · cases hitems
      intro item hitem
      obtain ⟨w, hw, rfl⟩ := List.mem_map.1 hitem
      exact ⟨hvs w hw, nofun⟩
  unfold Value.loopItems at h
  cases v with
  | map r =>
    cases h
    intro item hitem
    obtain ⟨e, he, rfl⟩ := List.mem_map.1 hitem
    refine ⟨hheld _ _ hv (Value.held_key he), fun w hw => ?_⟩
    cases pairs with
    | true => exact Option.some.inj hw ▸ hheld _ _ hv (Value.held_value he)
    | false => cases hw
  | array r => exact each _ (fun w hw => hheld _ w hv hw) h
  | tuple vs => exact each _ (fun w hw => hheld _ w hv hw) h
  | string content => exact each _ (fun v hv => hscalar v (Value.isScalar_letters content v hv)) h
  | _ => cases h

end LoopItem

end Nikl
