import Nikl.Proofs.Scope

/-
Scopes lie inside one another. Whatever is done to scopes, opened, closed, kept, opened inside again
long after they were closed, or changed through what was kept of them, each was opened inside an older
one. So the way outward from any scope is finite and ends in the global scope; and no scope has a name
both bound and deleted (`Environment.Founded`).
-/

set_option autoImplicit false

namespace Nikl

/-! ## Single scopes -/

theorem Bindings.get?_erase_self (x : String) (bs : Bindings) : (bs.erase x).get? x = none := by
  rw [get?, List.lookup_eq_none_iff]
  intro b hb
  have hne : b.1 ≠ x := by simpa using (List.mem_filter.1 hb).2
  simpa using hne.symm

namespace Scope

variable {x : String} {v : Value} {scope : Scope}

theorem binds_eq_false_iff : scope.binds x = false ↔ scope.bindings.get? x = none := by
  rw [binds, Bindings.contains, Option.isSome_eq_false_iff, Option.isNone_iff_eq_none]

/-- No name is both bound and deleted. -/
def Apart (scope : Scope) : Prop := ∀ x ∈ scope.deleted, scope.binds x = false

theorem Apart.define (h : scope.Apart) (x : String) (v : Value) : (scope.define x v).Apart := by
  intro y hy
  have hne : y ≠ x := by
    rintro rfl
    exact (has_define y v scope).2 hy
  have hsame := sameAt_define hne v scope
  exact hsame.binds.trans (h y (hsame.deleted.1 hy))

theorem Apart.rebind (h : scope.Apart) (hx : scope.binds x = true) (v : Value) :
    (scope.rebind x v).Apart :=
  fun y hy => (sameAt_rebind hx y v).binds.trans (h y hy)

theorem Apart.remove (h : scope.Apart) (x : String) : (scope.remove x).Apart := by
  intro y hy
  by_cases hne : y = x
  · rw [hne, binds, Bindings.contains, Scope.remove, Bindings.get?_erase_self]
    rfl
  · have hsame := sameAt_remove hne scope
    exact hsame.binds.trans (h y (hsame.deleted.1 hy))

end Scope

namespace Environment

variable {env : Environment} {r q p : ScopeRef} {x y : String} {v : Value} {f : Scope → Scope}

/-! ## The way outward -/

/-- A scope is one of those that there are. -/
def Has (env : Environment) (r : ScopeRef) : Prop := r.index < env.scopes.size

/-- The scope directly around a scope. -/
def parent? (env : Environment) (r : ScopeRef) : Option ScopeRef := (env.scope r).outer.head?

/-- The way from a scope outward, from each scope on it to the one directly around it, up to one that
nothing is around. -/
inductive Climbs (env : Environment) : ScopeRef → List ScopeRef → Prop
  | top {r : ScopeRef} : env.parent? r = none → env.Climbs r [r]
  | up {r p : ScopeRef} {way : List ScopeRef} :
      env.parent? r = some p → env.Climbs p way → env.Climbs r (r :: way)

/-- Every scope but the global one lies inside an older one, and no scope has a name both bound and
deleted. -/
structure Founded (env : Environment) : Prop where
  hasGlobal : env.Has global
  outermost : (env.scope global).outer = []
  inside : ∀ r, env.Has r → r ≠ global → ∃ p : ScopeRef, p.index < r.index ∧ (env.scope r).outer = env.chain p
  apart : ∀ r, (env.scope r).Apart
  opened : ∀ r ∈ env.inner, env.Has r

/-- What holds of the global scope, and of a scope if it holds of the one directly around it, holds of
all scopes. -/
theorem Founded.induction (h : env.Founded) {motive : ScopeRef → Prop} (outermost : motive global)
    (inside : ∀ r p : ScopeRef, env.Has p → p.index < r.index → env.chain r = r :: env.chain p →
      motive p → motive r) (hr : env.Has r) : motive r := by
  obtain ⟨n, hn⟩ : ∃ n, r.index = n := ⟨_, rfl⟩
  induction n using Nat.strongRecOn generalizing r with
  | _ n ih =>
    by_cases hglobal : r = global
    · exact hglobal ▸ outermost
    · obtain ⟨p, hlt, houter⟩ := h.inside r hr hglobal
      have hp : env.Has p := Nat.lt_trans hlt hr
      exact inside r p hp hlt (congrArg (r :: ·) houter) (ih p.index (hn ▸ hlt) hp rfl)

theorem Founded.chain_global (h : env.Founded) : env.chain global = [global] := by
  rw [chain, h.outermost]

theorem Founded.climbs (h : env.Founded) (hr : env.Has r) : env.Climbs r (env.chain r) := by
  refine h.induction (motive := fun r => env.Climbs r (env.chain r)) ?_ ?_ hr
  · rw [h.chain_global]
    exact .top (by rw [parent?, h.outermost, List.head?_nil])
  · intro r p _ _ hchain hp
    rw [hchain]
    refine .up ?_ hp
    have houter : (env.scope r).outer = env.chain p := (List.cons.inj hchain).2
    rw [parent?, houter, chain, List.head?_cons]

theorem Founded.getLast?_chain (h : env.Founded) (hr : env.Has r) :
    (env.chain r).getLast? = some global := by
  refine h.induction (motive := fun r => (env.chain r).getLast? = some global) ?_ ?_ hr
  · rw [h.chain_global, List.getLast?_singleton]
  · intro r p _ _ hchain hp
    rw [hchain, List.getLast?_cons, hp]
    rfl

theorem Founded.global_mem_chain (h : env.Founded) (hr : env.Has r) : global ∈ env.chain r :=
  List.mem_of_getLast? (h.getLast?_chain hr)

/-- On the way outward scopes get older. -/
theorem Founded.chain_older (h : env.Founded) (hr : env.Has r) :
    (env.chain r).Pairwise fun q p => p.index < q.index := by
  refine (h.induction (motive := fun r => (env.chain r).Pairwise (fun q p => p.index < q.index) ∧
    ∀ q ∈ env.chain r, q.index ≤ r.index) ?_ ?_ hr).1
  · rw [h.chain_global]
    exact ⟨List.pairwise_singleton .., by simp⟩
  · rintro r p _ hlt hchain ⟨hpairwise, hle⟩
    rw [hchain]
    have hbelow : ∀ q ∈ env.chain p, q.index < r.index := fun q hq =>
      Nat.lt_of_le_of_lt (hle q hq) hlt
    refine ⟨List.pairwise_cons.2 ⟨hbelow, hpairwise⟩, fun q hq => ?_⟩
    rcases List.mem_cons.1 hq with rfl | hq
    · exact Nat.le_refl _
    · exact Nat.le_of_lt (hbelow q hq)

theorem Founded.current (h : env.Founded) : env.Has env.current := by
  rw [Environment.current]
  cases hinner : env.inner with
  | nil => exact h.hasGlobal
  | cons r inner => exact h.opened r (hinner ▸ List.mem_cons_self)

/-! ## Changes -/

theorem scope_modifyScope_self (hr : env.Has r) (f : Scope → Scope) :
    (env.modifyScope r f).scope r = f (env.scope r) := by
  simp only [scope, modifyScope, Array.getD_eq_getD_getElem?, Array.getElem?_modify, if_true,
    Array.getElem?_eq_getElem hr, Option.map_some, Option.getD_some]

@[simp] theorem has_modifyScope : (env.modifyScope r f).Has q ↔ env.Has q := by
  rw [Has, Has, size_modifyScope]

/-- What is around scopes, seen from a change that leaves it alone. -/
theorem outer_modifyScope (hf : (f (env.scope r)).outer = (env.scope r).outer) (q : ScopeRef) :
    ((env.modifyScope r f).scope q).outer = (env.scope q).outer := by
  rcases env.scope_modifyScope r q f with hq | ⟨rfl, hq⟩
  · rw [hq]
  · rw [hq, hf]

theorem chain_modifyScope (hf : (f (env.scope r)).outer = (env.scope r).outer) (q : ScopeRef) :
    (env.modifyScope r f).chain q = env.chain q :=
  congrArg (q :: ·) (outer_modifyScope hf q)

theorem Founded.modifyScope (h : env.Founded) (houter : (f (env.scope r)).outer = (env.scope r).outer)
    (hapart : (f (env.scope r)).Apart) : (env.modifyScope r f).Founded where
  hasGlobal := has_modifyScope.2 h.hasGlobal
  outermost := (outer_modifyScope houter global).trans h.outermost
  inside q hq hglobal := by
    obtain ⟨p, hlt, hp⟩ := h.inside q (has_modifyScope.1 hq) hglobal
    exact ⟨p, hlt, by rw [outer_modifyScope houter, chain_modifyScope houter, hp]⟩
  apart q := by
    rcases env.scope_modifyScope r q f with hq | ⟨rfl, hq⟩
    · exact hq ▸ h.apart q
    · exact hq ▸ hapart
  opened q hq := has_modifyScope.2 (h.opened q hq)

theorem Founded.defineIn (h : env.Founded) (r : ScopeRef) (x : String) (v : Value) :
    (env.modifyScope r (·.define x v)).Founded :=
  h.modifyScope rfl ((h.apart r).define x v)

theorem Founded.removeFrom (h : env.Founded) (r : ScopeRef) (x : String) :
    (env.removeFrom r x).2.Founded := by
  rw [Environment.removeFrom]
  split
  · exact h.modifyScope rfl ((h.apart r).remove x)
  · exact h

theorem binds_of_binder? {chain : List ScopeRef} (h : env.binder? x chain = some q) :
    (env.scope q).binds x = true :=
  List.find?_some (p := fun r => (env.scope r).binds x) h

theorem Founded.assignFrom (h : env.Founded) (r : ScopeRef) (x : String) (v : Value) :
    (env.assignFrom r x v).2.Founded := by
  rw [Environment.assignFrom]
  cases hbinder : env.binder? x (env.chain r) with
  | none => exact h
  | some q => exact h.modifyScope rfl ((h.apart q).rebind (binds_of_binder? hbinder) v)

/-- An assignment changes the scope that binds the name, or else the global one. -/
theorem assign_eq (env : Environment) (x : String) (v : Value) :
    env.assign x v =
      match env.binder? x (env.chain env.current) with
      | some q => env.modifyScope q (·.rebind x v)
      | none => env.modifyScope global (·.define x v) := by
  rw [assign, assignFrom]
  cases env.binder? x (env.chain env.current) <;> rfl

theorem Founded.assign (h : env.Founded) (x : String) (v : Value) : (env.assign x v).Founded := by
  rw [assign_eq]
  cases hbinder : env.binder? x (env.chain env.current) with
  | none => exact h.defineIn global x v
  | some q => exact h.modifyScope rfl ((h.apart q).rebind (binds_of_binder? hbinder) v)

theorem has_openInside (h : env.Has q) (r : ScopeRef) : (env.openInside r).Has q := by
  rw [Has, size_openInside]
  exact Nat.lt_succ_of_lt h

theorem scope_openInside_next (r : ScopeRef) :
    (env.openInside r).scope env.next = { outer := env.chain r } := by
  simp [scope, openInside, next]

theorem chain_openInside (h : env.Has q) (r : ScopeRef) : (env.openInside r).chain q = env.chain q := by
  rw [chain, scope_openInside h, chain]

/-- A scope is opened inside one that there is, which need not be open. -/
theorem Founded.openInside (h : env.Founded) (hr : env.Has r) : (env.openInside r).Founded where
  hasGlobal := has_openInside h.hasGlobal r
  outermost := by rw [scope_openInside h.hasGlobal, h.outermost]
  inside q hq hglobal := by
    by_cases hold : env.Has q
    · obtain ⟨p, hlt, hp⟩ := h.inside q hold hglobal
      exact ⟨p, hlt, by rw [scope_openInside hold, chain_openInside (Nat.lt_trans hlt hold), hp]⟩
    · have hnext : q = env.next := by
        rw [Has, size_openInside] at hq
        rw [Has] at hold
        rcases q with ⟨i⟩
        exact congrArg ScopeRef.mk (Nat.le_antisymm (Nat.le_of_lt_succ hq) (Nat.le_of_not_lt hold))
      refine ⟨r, hnext ▸ hr, ?_⟩
      rw [hnext, scope_openInside_next, chain_openInside hr]
  apart q := by
    by_cases hold : env.Has q
    · rw [scope_openInside hold]
      exact h.apart q
    · -- nothing was deleted in a new scope, nor in one that there is not
      have hnone : ((env.openInside r).scope q).deleted = [] := by
        simp only [scope, Environment.openInside, Array.getD_eq_getD_getElem?, Array.getElem?_push]
        split
        · rfl
        · rw [Array.getElem?_eq_none (Nat.le_of_not_lt hold)]
          rfl
      intro x hx
      rw [hnone] at hx
      cases hx
  opened q hq := by
    rcases List.mem_cons.1 hq with rfl | hq
    · rw [Has, size_openInside]
      exact Nat.lt_succ_self _
    · exact has_openInside (h.opened q hq) r

theorem Founded.close (h : env.Founded) : env.close.Founded where
  hasGlobal := h.hasGlobal
  outermost := h.outermost
  inside := h.inside
  apart := h.apart
  opened q hq := h.opened q (List.mem_of_mem_tail hq)

theorem founded_empty : ({} : Environment).Founded where
  hasGlobal := Nat.zero_lt_one
  outermost := rfl
  inside := by
    rintro ⟨i⟩ hr hglobal
    exact absurd (congrArg ScopeRef.mk (Nat.lt_one_iff.1 hr)) hglobal
  apart := by
    rintro ⟨_ | i⟩ <;> exact nofun
  opened := nofun

end Environment

/-! ## Anything that is done to scopes -/

/-- What can be done to scopes. A scope that was kept is told by how many were kept before it. -/
inductive ScopeOperation where
  | openBlock
  | openInside (kept : Nat)
  | close
  /-- Keeps the current scope, as a function does that is defined in it. -/
  | keep
  | define (x : String) (v : Value)
  | defineGlobal (x : String) (v : Value)
  | assign (x : String) (v : Value)
  | delete (x : String)
  | defineIn (kept : Nat) (x : String) (v : Value)
  | assignIn (kept : Nat) (x : String) (v : Value)
  | deleteIn (kept : Nat) (x : String)

/-- An environment, and the scopes of it that were kept, the first one first. -/
structure KeptScopes where
  env : Environment := {}
  kept : List ScopeRef := []

namespace KeptScopes

open Environment

/-- A change of the environment through a scope that was kept; without such a scope there is none. -/
def through (s : KeptScopes) (kept : Nat) (change : ScopeRef → Environment) : KeptScopes :=
  match s.kept[kept]? with
  | some r => { s with env := change r }
  | none => s

def step (s : KeptScopes) : ScopeOperation → KeptScopes
  | .openBlock => { s with env := s.env.openBlock }
  | .openInside kept => s.through kept s.env.openInside
  | .close => { s with env := s.env.close }
  | .keep => { s with kept := s.kept ++ [s.env.current] }
  | .define x v => { s with env := s.env.define x v }
  | .defineGlobal x v => { s with env := s.env.defineGlobal x v }
  | .assign x v => { s with env := s.env.assign x v }
  | .delete x => { s with env := (s.env.delete x).2 }
  | .defineIn kept x v => s.through kept fun r => s.env.modifyScope r (·.define x v)
  | .assignIn kept x v => s.through kept fun r => (s.env.assignFrom r x v).2
  | .deleteIn kept x => s.through kept fun r => (s.env.removeFrom r x).2

/-- What operations lead to from an environment in which nothing was done. -/
def after (operations : List ScopeOperation) : KeptScopes := operations.foldl step {}

/-- The scopes that were kept are among those that there are. -/
structure Sound (s : KeptScopes) : Prop where
  env : s.env.Founded
  kept : ∀ r ∈ s.kept, s.env.Has r

variable {s : KeptScopes}

/-- A change that loses no scope loses none that was kept. -/
theorem Sound.withEnv (h : s.Sound) {env : Environment} (hfounded : env.Founded)
    (hsize : s.env.scopes.size ≤ env.scopes.size) : ({ s with env := env } : KeptScopes).Sound :=
  ⟨hfounded, fun r hr => Nat.lt_of_lt_of_le (h.kept r hr) hsize⟩

theorem Sound.through (h : s.Sound) {change : ScopeRef → Environment} (kept : Nat)
    (hchange : ∀ r, s.env.Has r → (change r).Founded ∧ s.env.scopes.size ≤ (change r).scopes.size) :
    (s.through kept change).Sound := by
  rw [KeptScopes.through]
  cases hkept : s.kept[kept]? with
  | none => exact h
  | some r =>
    obtain ⟨hfounded, hsize⟩ := hchange r (h.kept r (List.mem_of_getElem? hkept))
    exact h.withEnv hfounded hsize

theorem size_removeFrom (env : Environment) (r : ScopeRef) (x : String) :
    (env.removeFrom r x).2.scopes.size = env.scopes.size := by
  rw [removeFrom]
  split
  · exact size_modifyScope ..
  · rfl

theorem size_assignFrom (env : Environment) (r : ScopeRef) (x : String) (v : Value) :
    (env.assignFrom r x v).2.scopes.size = env.scopes.size := by
  rw [assignFrom]
  split
  · exact size_modifyScope ..
  · rfl

theorem size_assign (env : Environment) (x : String) (v : Value) :
    (env.assign x v).scopes.size = env.scopes.size := by
  rw [assign_eq]
  split <;> exact size_modifyScope ..

theorem size_le_openInside (env : Environment) (r : ScopeRef) :
    env.scopes.size ≤ (env.openInside r).scopes.size :=
  (size_openInside env r).symm ▸ Nat.le_succ _

theorem Sound.step (h : s.Sound) (operation : ScopeOperation) : (s.step operation).Sound := by
  cases operation with
  | openBlock => exact h.withEnv (h.env.openInside h.env.current) (size_le_openInside ..)
  | openInside kept =>
    exact h.through kept fun r hr => ⟨h.env.openInside hr, size_le_openInside ..⟩
  | close => exact h.withEnv h.env.close (Nat.le_refl _)
  | keep =>
    refine ⟨h.env, fun r hr => ?_⟩
    rcases List.mem_append.1 hr with hr | hr
    · exact h.kept r hr
    · rw [List.mem_singleton.1 hr]
      exact h.env.current
  | define x v => exact h.withEnv (h.env.defineIn _ x v) (Nat.le_of_eq (size_modifyScope ..).symm)
  | defineGlobal x v => exact h.withEnv (h.env.defineIn _ x v) (Nat.le_of_eq (size_modifyScope ..).symm)
  | assign x v => exact h.withEnv (h.env.assign x v) (Nat.le_of_eq (size_assign ..).symm)
  | delete x => exact h.withEnv (h.env.removeFrom _ x) (Nat.le_of_eq (size_removeFrom ..).symm)
  | defineIn kept x v =>
    exact h.through kept fun r _ => ⟨h.env.defineIn r x v, Nat.le_of_eq (size_modifyScope ..).symm⟩
  | assignIn kept x v =>
    exact h.through kept fun r _ => ⟨h.env.assignFrom r x v, Nat.le_of_eq (size_assignFrom ..).symm⟩
  | deleteIn kept x =>
    exact h.through kept fun r _ => ⟨h.env.removeFrom r x, Nat.le_of_eq (size_removeFrom ..).symm⟩

theorem sound_after (operations : List ScopeOperation) : (after operations).Sound := by
  have hrun : ∀ s : KeptScopes, s.Sound → (operations.foldl KeptScopes.step s).Sound := by
    induction operations with
    | nil => exact fun s hs => hs
    | cons operation rest ih => exact fun s hs => ih _ (hs.step operation)
  exact hrun {} ⟨founded_empty, nofun⟩

end KeptScopes

end Nikl
