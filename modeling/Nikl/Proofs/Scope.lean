import Mathlib.Data.List.Basic
import Nikl.Scope

/-
What a change of a scope changes. Each operation on an environment reaches one scope, and in it one
name: at all other names a scope is as it was, bound or not and deleted or not (`Scope.SameAt`). Giving
a bound name another value leaves even that name as it was, in this sense.
-/

set_option autoImplicit false

namespace Nikl

/-! ## Bindings -/

namespace Bindings

variable {x y : String} {v : Value}

theorem get?_erase_of_ne (h : y ≠ x) (bs : Bindings) : (bs.erase x).get? y = bs.get? y := by
  unfold get? erase
  induction bs with
  | nil => rfl
  | cons b bs ih =>
    by_cases hb : b.1 = x
    · have hy : (y == b.1) = false := by simpa [hb] using h
      rw [List.filter_cons_of_neg (by simpa using hb), ih, List.lookup_cons, hy]
    · rw [List.filter_cons_of_pos (by simpa using hb), List.lookup_cons, List.lookup_cons, ih]

theorem get?_set_self (x : String) (v : Value) (bs : Bindings) : (bs.set x v).get? x = some v := by
  rw [get?, set, List.lookup_cons, beq_self_eq_true]

theorem get?_set_of_ne (h : y ≠ x) (v : Value) (bs : Bindings) : (bs.set x v).get? y = bs.get? y := by
  have hy : (y == x) = false := by simpa using h
  rw [get?, set, List.lookup_cons, hy]
  exact get?_erase_of_ne h bs

end Bindings

/-! ## Scopes at a name -/

namespace Scope

variable {x y : String} {v : Value} {before between after : Scope}

/-- A name is bound in both scopes or in none, and deleted in both or in none. -/
structure SameAt (x : String) (before after : Scope) : Prop where
  binds : after.binds x = before.binds x
  deleted : x ∈ after.deleted ↔ x ∈ before.deleted

/-- A name is bound, and not deleted. -/
def Has (x : String) (scope : Scope) : Prop := scope.binds x = true ∧ x ∉ scope.deleted

theorem SameAt.refl (x : String) (scope : Scope) : SameAt x scope scope := ⟨rfl, Iff.rfl⟩

theorem SameAt.trans (h : SameAt x before between) (h' : SameAt x between after) :
    SameAt x before after :=
  ⟨h'.binds.trans h.binds, h'.deleted.trans h.deleted⟩

theorem SameAt.has (h : SameAt x before after) (hx : before.Has x) : after.Has x := by
  obtain ⟨hbinds, hdeleted⟩ := hx
  exact ⟨h.binds.trans hbinds, fun hin => hdeleted (h.deleted.1 hin)⟩

theorem sameAt_define (h : y ≠ x) (v : Value) (scope : Scope) : SameAt y scope (scope.define x v) where
  binds := by
    rw [Scope.binds, Bindings.contains, define, Bindings.get?_set_of_ne h]
    rfl
  deleted := by
    rw [define, List.mem_filter]
    simp [h]

theorem sameAt_remove (h : y ≠ x) (scope : Scope) : SameAt y scope (scope.remove x) where
  binds := by
    rw [Scope.binds, Bindings.contains, remove, Bindings.get?_erase_of_ne h]
    rfl
  deleted := by
    rw [remove, List.mem_cons]
    simp [h]

/-- A name that is bound stays bound when it gets another value, and all other names are as they were. -/
theorem sameAt_rebind {scope : Scope} (h : scope.binds x = true) (y : String) (v : Value) :
    SameAt y scope (scope.rebind x v) where
  binds := by
    by_cases hy : y = x
    · rw [hy, h, Scope.binds, Bindings.contains, rebind, Bindings.get?_set_self]
      rfl
    · rw [Scope.binds, Bindings.contains, rebind, Bindings.get?_set_of_ne hy]
      rfl
  deleted := Iff.rfl

theorem has_define (x : String) (v : Value) (scope : Scope) : (scope.define x v).Has x := by
  refine ⟨?_, ?_⟩
  · rw [binds, Bindings.contains, define, Bindings.get?_set_self]
    rfl
  · rw [define, List.mem_filter]
    simp

end Scope

/-! ## Environments -/

namespace Environment

variable {env : Environment} {r q : ScopeRef}

/-- A change of one scope reaches no other. -/
theorem scope_modifyScope (env : Environment) (r q : ScopeRef) (f : Scope → Scope) :
    (env.modifyScope r f).scope q = env.scope q ∨
      q = r ∧ (env.modifyScope r f).scope q = f (env.scope q) := by
  simp only [scope, modifyScope, Array.getD_eq_getD_getElem?, Array.getElem?_modify]
  split
  · next hindex =>
    cases env.scopes[q.index]? with
    | none => exact .inl rfl
    | some scope => exact .inr ⟨by cases q; cases r; simp_all, rfl⟩
  · exact .inl rfl

@[simp] theorem size_modifyScope (env : Environment) (r : ScopeRef) (f : Scope → Scope) :
    (env.modifyScope r f).scopes.size = env.scopes.size := by
  simp [modifyScope]

@[simp] theorem size_openInside (env : Environment) (r : ScopeRef) :
    (env.openInside r).scopes.size = env.scopes.size + 1 := by
  simp [openInside]

/-- Opening a scope leaves all that there are as they were. -/
theorem scope_openInside (h : q.index < env.scopes.size) (r : ScopeRef) :
    (env.openInside r).scope q = env.scope q := by
  have hne : q.index ≠ env.scopes.size := Nat.ne_of_lt h
  simp only [scope, openInside, Array.getD_eq_getD_getElem?, Array.getElem?_push, if_neg hne]

/-! ## What is bound -/

/-- Every value that is bound in any scope has a property. -/
def BindsOnly (P : Value → Prop) (env : Environment) : Prop :=
  ∀ r, ∀ b ∈ (env.scope r).bindings, P b.2

section BindsOnly

variable {P : Value → Prop} {x : String} {v : Value}

theorem BindsOnly.mono {Q : Value → Prop} (h : env.BindsOnly P) (hPQ : ∀ v, P v → Q v) :
    env.BindsOnly Q :=
  fun r b hb => hPQ b.2 (h r b hb)

theorem BindsOnly.modifyScope (h : env.BindsOnly P) (r : ScopeRef) {f : Scope → Scope}
    (hf : ∀ scope, ∀ b ∈ (f scope).bindings, P b.2 ∨ b ∈ scope.bindings) :
    (env.modifyScope r f).BindsOnly P := by
  intro q b hb
  rcases env.scope_modifyScope r q f with hq | ⟨-, hq⟩
  · rw [hq] at hb
    exact h q b hb
  · rw [hq] at hb
    exact (hf _ b hb).elim id fun hold => h q b hold

theorem BindsOnly.openInside (h : env.BindsOnly P) (r : ScopeRef) : (env.openInside r).BindsOnly P := by
  intro q b hb
  by_cases hq : q.index < env.scopes.size
  · rw [scope_openInside hq] at hb
    exact h q b hb
  · -- the new scope binds nothing, and neither does one that there is not
    have hnone : ((env.openInside r).scope q).bindings = [] := by
      simp only [scope, Environment.openInside, Array.getD_eq_getD_getElem?, Array.getElem?_push]
      split
      · rfl
      · rw [Array.getElem?_eq_none (Nat.le_of_not_lt hq)]
        rfl
    rw [hnone] at hb
    cases hb

theorem bindsOnly_of_set {bs : Bindings} {b : String × Value} (hv : P v) (h : b ∈ bs.set x v) :
    P b.2 ∨ b ∈ bs := by
  rcases List.mem_cons.1 h with rfl | h
  · exact .inl hv
  · exact .inr (List.mem_of_mem_filter h)

theorem BindsOnly.define (h : env.BindsOnly P) (x : String) (hv : P v) : (env.define x v).BindsOnly P :=
  h.modifyScope _ fun _ _ hb => bindsOnly_of_set hv hb

theorem BindsOnly.defineGlobal (h : env.BindsOnly P) (x : String) (hv : P v) :
    (env.defineGlobal x v).BindsOnly P :=
  h.modifyScope _ fun _ _ hb => bindsOnly_of_set hv hb

theorem BindsOnly.assign (h : env.BindsOnly P) (x : String) (hv : P v) : (env.assign x v).BindsOnly P := by
  rw [Environment.assign, assignFrom]
  cases env.binder? x (env.chain env.current) with
  | none => exact h.defineGlobal x hv
  | some r => exact h.modifyScope r fun _ _ hb => bindsOnly_of_set hv hb

theorem BindsOnly.delete (h : env.BindsOnly P) (x : String) : (env.delete x).2.BindsOnly P := by
  rw [Environment.delete, removeFrom]
  split
  · exact h.modifyScope _ fun _ b hb => .inr (List.mem_of_mem_filter hb)
  · exact h

theorem BindsOnly.lookup (h : env.BindsOnly P) (hv : env.lookup x = .ok v) : P v := by
  have along : ∀ chain, env.lookupIn x chain = .ok v → P v := by
    intro chain
    induction chain with
    | nil => exact nofun
    | cons r outer ih =>
      intro hlookup
      rw [lookupIn] at hlookup
      cases hbound : (env.scope r).bindings.get? x with
      | some w =>
        rw [hbound] at hlookup
        cases hlookup
        obtain ⟨before, behind, hbindings, -⟩ := List.lookup_eq_some_iff.1 hbound
        exact h r (x, v) (hbindings ▸ List.mem_append_right before List.mem_cons_self)
      | none =>
        rw [hbound] at hlookup
        cases houter : env.lookupIn x outer with
        | ok w =>
          rw [houter] at hlookup
          exact ih (houter.trans hlookup)
        | error fault =>
          rw [houter] at hlookup
          cases fault <;> cases hlookup
  exact along _ hv

theorem bindsOnly_withBuiltins (h : ∀ b, P (.builtin b)) : withBuiltins.BindsOnly P := by
  have hempty : ({} : Environment).BindsOnly P := by
    intro r b hb
    have hscope : ({} : Environment).scope r = {} := by
      rcases r with ⟨_ | i⟩ <;> rfl
    rw [hscope] at hb
    cases hb
  have hprint := hempty.defineGlobal Builtin.print.name (h .print)
  exact hprint.defineGlobal Builtin.len.name (h .len)

end BindsOnly

end Environment

end Nikl
