import Nikl.Proofs.Scope.Founded

/-
What a name means in a scope is its binding in the nearest scope on the way outward that has one. An
assignment finds the same binding, or makes one in the global scope, which is on the way outward from
everywhere; so afterwards the name means the value there, and all else is as it was. What is around a
scope does not follow from which scopes were opened before it, so all of this rests on the way outward
alone (`Environment.Founded`).
-/

set_option autoImplicit false

namespace Nikl

/-! ## What a name means -/

namespace Environment

variable {env : Environment} {r q p : ScopeRef} {x y : String} {v : Value} {chain : List ScopeRef}

/-- A scope has the binding that a name means in another: it is the nearest on the way outward that binds
the name. -/
def Meant (env : Environment) (r : ScopeRef) (x : String) (q : ScopeRef) : Prop :=
  ∃ nearer further, env.chain r = nearer ++ q :: further ∧ (env.scope q).binds x = true ∧
    ∀ p ∈ nearer, (env.scope p).binds x = false

theorem binder?_eq_some_iff : env.binder? x (env.chain r) = some q ↔ env.Meant r x q := by
  rw [binder?, List.find?_eq_some_iff_append]
  constructor
  · rintro ⟨hbinds, nearer, further, hchain, hnearer⟩
    exact ⟨nearer, further, hchain, hbinds, fun p hp => by simpa using hnearer p hp⟩
  · rintro ⟨nearer, further, hchain, hbinds, hnearer⟩
    exact ⟨hbinds, nearer, further, hchain, fun p hp => by simpa using hnearer p hp⟩

theorem binder?_eq_none_iff :
    env.binder? x chain = none ↔ ∀ p ∈ chain, (env.scope p).binds x = false := by
  simp [binder?]

/-- A name means one binding. -/
theorem Meant.unique (hp : env.Meant r x p) (hq : env.Meant r x q) : p = q := by
  rw [← binder?_eq_some_iff] at hp hq
  exact Option.some.inj (hp.symm.trans hq)

theorem unbound_of_unmeant (h : ∀ p, ¬ env.Meant r x p) :
    ∀ p ∈ env.chain r, (env.scope p).binds x = false := by
  rw [← binder?_eq_none_iff]
  cases hbinder : env.binder? x (env.chain r) with
  | none => rfl
  | some p => exact absurd (binder?_eq_some_iff.1 hbinder) (h p)

/-- Where a scope binds a name, the name means its value there. -/
theorem lookupIn_of_binder? (h : env.binder? x chain = some q)
    (hv : (env.scope q).bindings.get? x = some v) : env.lookupIn x chain = .ok v := by
  induction chain with
  | nil => cases h
  | cons r outer ih =>
    rw [binder?, List.find?_cons] at h
    rw [lookupIn]
    cases hbinds : (env.scope r).binds x with
    | true =>
      rw [hbinds] at h
      rw [Option.some.inj h, hv]
    | false =>
      rw [hbinds] at h
      rw [Scope.binds_eq_false_iff.1 hbinds, ih h]

theorem Meant.lookupFrom (h : env.Meant r x q) :
    ∃ v, (env.scope q).bindings.get? x = some v ∧ env.lookupFrom r x = .ok v := by
  have hbinder := binder?_eq_some_iff.2 h
  obtain ⟨v, hv⟩ := Option.isSome_iff_exists.1 (binds_of_binder? hbinder)
  exact ⟨v, hv, lookupIn_of_binder? hbinder hv⟩

/-- Where no scope binds a name, it means nothing, and counts as deleted if one has deleted it. -/
theorem lookupIn_of_unbound (h : env.binder? x chain = none) :
    env.lookupIn x chain =
      .error (if ∃ p ∈ chain, x ∈ (env.scope p).deleted then .deleted else .undefined) := by
  induction chain with
  | nil => rw [lookupIn, if_neg (by simp)]
  | cons r outer ih =>
    have hnone := binder?_eq_none_iff.1 h
    have hbound := Scope.binds_eq_false_iff.1 (hnone r List.mem_cons_self)
    have houter : env.binder? x outer = none :=
      binder?_eq_none_iff.2 fun p hp => hnone p (List.mem_cons_of_mem r hp)
    rw [lookupIn, hbound, ih houter]
    by_cases hfurther : ∃ p ∈ outer, x ∈ (env.scope p).deleted
    · have hsome : ∃ p ∈ r :: outer, x ∈ (env.scope p).deleted := by
        obtain ⟨p, hp, hx⟩ := hfurther
        exact ⟨p, List.mem_cons_of_mem r hp, hx⟩
      rw [if_pos hfurther, if_pos hsome]
    · rw [if_neg hfurther]
      by_cases hhere : x ∈ (env.scope r).deleted
      · simp [hhere]
      · simp [hhere, hfurther]

/-- What a name means in a scope, told by the bindings and the deleted names on the way outward. -/
structure ResolvesAt (env : Environment) (r : ScopeRef) (x : String) : Prop where
  bound : ∀ v, env.lookupFrom r x = .ok v ↔
    ∃ q, env.Meant r x q ∧ (env.scope q).bindings.get? x = some v
  deleted : env.lookupFrom r x = .error .deleted ↔
    (∀ p ∈ env.chain r, (env.scope p).binds x = false) ∧ ∃ p ∈ env.chain r, x ∈ (env.scope p).deleted
  undefined : env.lookupFrom r x = .error .undefined ↔
    (∀ p ∈ env.chain r, (env.scope p).binds x = false) ∧ ∀ p ∈ env.chain r, x ∉ (env.scope p).deleted

theorem resolvesAt (env : Environment) (r : ScopeRef) (x : String) : env.ResolvesAt r x := by
  by_cases hmeant : ∃ q, env.Meant r x q
  · obtain ⟨q, hq⟩ := hmeant
    obtain ⟨w, hw, hlookup⟩ := hq.lookupFrom
    have hbound : ¬ ∀ p ∈ env.chain r, (env.scope p).binds x = false := by
      intro hnone
      obtain ⟨nearer, further, hchain, hbinds, -⟩ := hq
      rw [hnone q (by simp [hchain])] at hbinds
      cases hbinds
    refine ⟨fun v => ?_, by simp [hlookup, hbound], by simp [hlookup, hbound]⟩
    rw [hlookup, Except.ok.injEq]
    constructor
    · rintro rfl
      exact ⟨q, hq, hw⟩
    · rintro ⟨q', hq', hv⟩
      rw [hq'.unique hq, hw] at hv
      exact Option.some.inj hv
  · have hnone := unbound_of_unmeant fun q hq => hmeant ⟨q, hq⟩
    have hlookup : env.lookupFrom r x = _ := lookupIn_of_unbound (binder?_eq_none_iff.2 hnone)
    refine ⟨fun v => ?_, ?_, ?_⟩
    · rw [hlookup]
      constructor
      · intro h
        cases h
      · rintro ⟨q, hq, -⟩
        exact absurd ⟨q, hq⟩ hmeant
    · rw [hlookup, Except.error.injEq, and_iff_right hnone]
      split <;> simp_all
    · rw [hlookup, Except.error.injEq, and_iff_right hnone]
      split <;> simp_all

/-- Names mean the same in two environments whose scopes on the way outward agree on them. -/
theorem lookupIn_congr {after : Environment}
    (h : ∀ p ∈ chain, (after.scope p).bindings.get? x = (env.scope p).bindings.get? x ∧
      (x ∈ (after.scope p).deleted ↔ x ∈ (env.scope p).deleted)) :
    after.lookupIn x chain = env.lookupIn x chain := by
  induction chain with
  | nil => rfl
  | cons r outer ih =>
    obtain ⟨hget, hdeleted⟩ := h r List.mem_cons_self
    have hcontains : (after.scope r).deleted.contains x = (env.scope r).deleted.contains x := by
      rw [Bool.eq_iff_iff, List.contains_iff_mem, List.contains_iff_mem, hdeleted]
    rw [lookupIn, lookupIn, hget, hcontains, ih fun p hp => h p (List.mem_cons_of_mem r hp)]

/-! ## What an assignment changes -/

/-- An assignment gave a name another value in one scope and changed nothing else. -/
structure Assigned (x : String) (v : Value) (q : ScopeRef) (before after : Environment) : Prop where
  /-- The scope is the one whose binding the name meant, or the global one if it meant none. -/
  target : before.Meant before.current x q ∨ (∀ p, ¬ before.Meant before.current x p) ∧ q = global
  value : (after.scope q).bindings.get? x = some v
  bindings : ∀ p y, p ≠ q ∨ y ≠ x → (after.scope p).bindings.get? y = (before.scope p).bindings.get? y
  deleted : ∀ p y, p ≠ q ∨ y ≠ x → (y ∈ (after.scope p).deleted ↔ y ∈ (before.scope p).deleted)
  scopes : ∀ p, after.chain p = before.chain p ∧ (after.Has p ↔ before.Has p)
  stack : after.stack = before.stack

variable {before after : Environment}

theorem Assigned.current (h : Assigned x v q before after) : after.current = before.current := by
  have hinner : after.inner = before.inner := List.append_cancel_right h.stack
  rw [Environment.current, Environment.current, hinner]

/-- A change at one name in one scope, by a function that gives it a value. -/
theorem assigned_modifyScope {f : Scope → Scope} (hq : env.Has q)
    (htarget : env.Meant env.current x q ∨ (∀ p, ¬ env.Meant env.current x p) ∧ q = global)
    (houter : (f (env.scope q)).outer = (env.scope q).outer)
    (hbindings : (f (env.scope q)).bindings = (env.scope q).bindings.set x v)
    (hdeleted : ∀ y, y ≠ x → (y ∈ (f (env.scope q)).deleted ↔ y ∈ (env.scope q).deleted)) :
    Assigned x v q env (env.modifyScope q f) where
  target := htarget
  value := by rw [scope_modifyScope_self hq, hbindings, Bindings.get?_set_self]
  bindings p y hne := by
    rcases env.scope_modifyScope q p f with hp | ⟨rfl, hp⟩
    · rw [hp]
    · rw [hp, hbindings, Bindings.get?_set_of_ne (hne.resolve_left (absurd rfl))]
  deleted p y hne := by
    rcases env.scope_modifyScope q p f with hp | ⟨rfl, hp⟩
    · rw [hp]
    · rw [hp]
      exact hdeleted y (hne.resolve_left (absurd rfl))
  scopes p := ⟨chain_modifyScope houter p, has_modifyScope⟩
  stack := rfl

/-- A scope that binds anything is one of those that there are. -/
theorem has_of_binds (h : (env.scope q).binds x = true) : env.Has q := by
  by_contra hq
  have hnone : env.scope q = {} := by
    rw [scope, Array.getD_eq_getD_getElem?, Array.getElem?_eq_none (Nat.le_of_not_lt hq)]
    rfl
  rw [hnone] at h
  cases h

theorem Founded.assigned (h : env.Founded) (x : String) (v : Value) :
    ∃ q, Assigned x v q env (env.assign x v) := by
  rw [assign_eq]
  cases hbinder : env.binder? x (env.chain env.current) with
  | some q =>
    have hq := has_of_binds (binds_of_binder? hbinder)
    exact ⟨q, assigned_modifyScope hq (.inl (binder?_eq_some_iff.1 hbinder)) rfl rfl
      fun _ _ => Iff.rfl⟩
  | none =>
    have hunmeant : ∀ p, ¬ env.Meant env.current x p := by
      intro p hp
      rw [← binder?_eq_some_iff, hbinder] at hp
      cases hp
    exact ⟨global, assigned_modifyScope h.hasGlobal (.inr ⟨hunmeant, rfl⟩) rfl rfl
      fun y hy => (Scope.sameAt_define hy v _).deleted⟩

/-- The scopes on the way to one that binds the name are not the one that changed. -/
theorem Assigned.ne_of_nearer (h : Assigned x v q before after) (hb : before.Founded)
    (hr : before.Has r) {nearer further : List ScopeRef}
    (hchain : before.chain r = nearer ++ p :: further)
    (hnearer : ∀ s ∈ nearer, (before.scope s).binds x = false) {s : ScopeRef} (hs : s ∈ nearer) :
    s ≠ q := by
  rintro rfl
  rcases h.target with hmeant | ⟨-, rfl⟩
  · have hbinds := binds_of_binder? (binder?_eq_some_iff.2 hmeant)
    rw [hnearer s hs] at hbinds
    cases hbinds
  · have holder := hb.chain_older hr
    rw [hchain, List.pairwise_append] at holder
    exact Nat.not_lt_zero _ (holder.2.2 global hs p List.mem_cons_self)

theorem Assigned.binds_of_ne (h : Assigned x v q before after) (hne : p ≠ q) :
    (after.scope p).binds x = (before.scope p).binds x := by
  rw [Scope.binds, Scope.binds, Bindings.contains, Bindings.contains, h.bindings p x (.inl hne)]

theorem Assigned.binds_self (h : Assigned x v q before after) : (after.scope q).binds x = true := by
  rw [Scope.binds, Bindings.contains, h.value, Option.isSome_some]

/-- A name that meant a binding still means the same one. -/
theorem Assigned.meant (h : Assigned x v q before after) (hb : before.Founded) (hr : before.Has r)
    (hmeant : before.Meant r x p) : after.Meant r x p := by
  obtain ⟨nearer, further, hchain, hbinds, hnearer⟩ := hmeant
  refine ⟨nearer, further, (h.scopes r).1.trans hchain, ?_, fun s hs => ?_⟩
  · by_cases hp : p = q
    · exact hp ▸ h.binds_self
    · rw [h.binds_of_ne hp, hbinds]
  · rw [h.binds_of_ne (h.ne_of_nearer hb hr hchain hnearer hs), hnearer s hs]

/-- Where the name meant nothing, it means the new binding, which is in the global scope. -/
theorem Assigned.meant_new (h : Assigned x v global before after) (hb : before.Founded)
    (hr : before.Has r) (hunmeant : ∀ p, ¬ before.Meant r x p) : after.Meant r x global := by
  obtain ⟨nearer, hchain⟩ := List.getLast?_eq_some_iff.1 (hb.getLast?_chain hr)
  have hnearer : ∀ s ∈ nearer, (before.scope s).binds x = false := fun s hs =>
    unbound_of_unmeant hunmeant s (hchain ▸ List.mem_append_left _ hs)
  refine ⟨nearer, [], (h.scopes r).1.trans hchain, h.binds_self, fun s hs => ?_⟩
  rw [h.binds_of_ne (h.ne_of_nearer hb hr hchain hnearer hs), hnearer s hs]

/-- Where the name meant what it meant in the current scope, it now means the value. -/
theorem Assigned.lookupFrom_self (h : Assigned x v q before after) (hb : before.Founded)
    (hr : before.Has r) (hsame : ∀ p, before.Meant r x p ↔ before.Meant before.current x p) :
    after.lookupFrom r x = .ok v := by
  refine ((resolvesAt after r x).bound v).2 ⟨q, ?_, h.value⟩
  rcases h.target with hmeant | ⟨hunmeant, rfl⟩
  · exact h.meant hb hr ((hsame q).2 hmeant)
  · exact h.meant_new hb hr fun p hp => hunmeant p ((hsame p).1 hp)

/-- Where the name meant another binding, it still means that one, with its value. -/
theorem Assigned.lookupFrom_of_differs (h : Assigned x v q before after) (hb : before.Founded)
    (hr : before.Has r) (hdiffers : ¬ ∀ p, before.Meant r x p ↔ before.Meant before.current x p) :
    after.lookupFrom r x = before.lookupFrom r x := by
  by_cases hbound : ∃ p, before.Meant r x p
  · obtain ⟨p, hp⟩ := hbound
    have hne : p ≠ q := by
      rintro rfl
      rcases h.target with hmeant | ⟨hunmeant, rfl⟩
      · exact hdiffers fun s => ⟨fun hs => hs.unique hp ▸ hmeant, fun hs => hs.unique hmeant ▸ hp⟩
      · -- the global scope is on the way outward from the current one, so the name meant something there
        have hunbound := unbound_of_unmeant hunmeant global (hb.global_mem_chain hb.current)
        rw [binds_of_binder? (binder?_eq_some_iff.2 hp)] at hunbound
        cases hunbound
    obtain ⟨w, hw, hbefore⟩ := hp.lookupFrom
    obtain ⟨w', hw', hafter⟩ := (h.meant hb hr hp).lookupFrom
    rw [h.bindings p x (.inl hne), hw] at hw'
    rw [hbefore, hafter, Option.some.inj hw']
  · have hunmeant : ∀ p, ¬ before.Meant r x p := fun p hp => hbound ⟨p, hp⟩
    rw [lookupFrom, lookupFrom, (h.scopes r).1]
    refine lookupIn_congr fun s hs => ?_
    -- no scope on the way binds the name, so none of them is the one that changed
    have hne : s ≠ q := by
      rintro rfl
      rcases h.target with hmeant | ⟨hnone, -⟩
      · have hunbound := unbound_of_unmeant hunmeant s hs
        rw [binds_of_binder? (binder?_eq_some_iff.2 hmeant)] at hunbound
        cases hunbound
      · exact hdiffers fun p => iff_of_false (hunmeant p) (hnone p)
    exact ⟨h.bindings s x (.inl hne), h.deleted s x (.inl hne)⟩

theorem Assigned.lookupFrom_of_ne (h : Assigned x v q before after) (hy : y ≠ x) (r : ScopeRef) :
    after.lookupFrom r y = before.lookupFrom r y := by
  rw [lookupFrom, lookupFrom, (h.scopes r).1]
  exact lookupIn_congr fun p _ => ⟨h.bindings p y (.inr hy), h.deleted p y (.inr hy)⟩

/-! ## The main statement -/

/-- The way outward from every scope is finite and ends in the global scope, which is at the bottom of
the open ones; and no scope has a name both bound and deleted. -/
structure Rooted (env : Environment) : Prop where
  bottom : env.stack.getLast? = some global
  opened : ∀ r ∈ env.stack, env.Has r
  way : ∀ r, env.Has r → env.Climbs r (env.chain r) ∧ (env.chain r).getLast? = some global
  apart : ∀ r x, ¬ ((env.scope r).binds x = true ∧ x ∈ (env.scope r).deleted)

theorem Founded.rooted (h : env.Founded) : env.Rooted where
  bottom := by rw [stack, List.getLast?_concat]
  opened r hr := by
    rcases List.mem_append.1 hr with hr | hr
    · exact h.opened r hr
    · exact List.mem_singleton.1 hr ▸ h.hasGlobal
  way r hr := ⟨h.climbs hr, h.getLast?_chain hr⟩
  apart r x := by
    rintro ⟨hbinds, hdeleted⟩
    rw [h.apart r x hdeleted] at hbinds
    cases hbinds

/-- An assignment changes the one binding that the name means in the current scope, or makes one in the
global scope. The name means the value from then on wherever it meant the same, and all else that can
be looked up is as it was. -/
structure AssignsExactly (env : Environment) (x : String) (v : Value) : Prop where
  assigned : ∃ q, Assigned x v q env (env.assign x v)
  current : (env.assign x v).lookup x = .ok v
  same : ∀ r, env.Has r → (∀ p, env.Meant r x p ↔ env.Meant env.current x p) →
    (env.assign x v).lookupFrom r x = .ok v
  other : ∀ r y, env.Has r → y ≠ x ∨ ¬ (∀ p, env.Meant r x p ↔ env.Meant env.current x p) →
    (env.assign x v).lookupFrom r y = env.lookupFrom r y

theorem Founded.assignsExactly (h : env.Founded) (x : String) (v : Value) : env.AssignsExactly x v := by
  obtain ⟨q, hq⟩ := h.assigned x v
  refine ⟨⟨q, hq⟩, ?_, fun r hr hsame => hq.lookupFrom_self h hr hsame, fun r y hr hother => ?_⟩
  · rw [lookup, hq.current]
    exact hq.lookupFrom_self h h.current fun _ => Iff.rfl
  · by_cases hy : y = x
    · subst hy
      exact hq.lookupFrom_of_differs h hr (hother.resolve_left (absurd rfl))
    · exact hq.lookupFrom_of_ne hy r

end Environment

/-- **Names resolve exactly.** After anything that was done to scopes, from the first environment on, the
way outward from each scope leads to the global one, no scope has a name both bound and deleted, a name
means its nearest binding on that way, and an assignment changes what its name means and nothing else. -/
theorem names_resolve_exactly (operations : List ScopeOperation) :
    let s := KeptScopes.after operations
    (s.env.Rooted ∧ ∀ r ∈ s.kept, s.env.Has r) ∧
      (∀ r x, s.env.Has r → s.env.ResolvesAt r x) ∧ ∀ x v, s.env.AssignsExactly x v := by
  have hs := KeptScopes.sound_after operations
  exact ⟨⟨hs.env.rooted, hs.kept⟩, fun r x _ => Environment.resolvesAt _ r x, hs.env.assignsExactly⟩

/-- A scope was kept, and another one inside it; both were closed. An assignment from inside the inner one
reaches the binding in the outer one. -/
example :
    let s := KeptScopes.after [.openBlock, .define "x" (.int 1), .keep, .openBlock, .keep, .close, .close,
      .defineGlobal "x" (.int 3), .openInside 1, .assign "x" (.int 2)]
    s.env.lookupFrom ⟨1⟩ "x" = .ok (.int 2) ∧ s.env.lookupFrom Environment.global "x" = .ok (.int 3) :=
  ⟨rfl, rfl⟩

end Nikl
