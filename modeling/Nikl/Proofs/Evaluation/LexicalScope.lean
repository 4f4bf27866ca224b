import Nikl.Proofs.Evaluation.Balance

/-
Scoping is lexical. Work looks at the open scopes through the current one alone: two states that are the
same but for the scopes that are open, and have the same current scope, lead to ends that are the same
but for the scopes that are open (`Blind`). A call does not even look at the current scope, since its
body runs in a new scope inside the one that the function keeps. So what a call does is the same from
wherever the function is called.
-/

set_option autoImplicit false

namespace Nikl

/-! ## Other open scopes -/

namespace Environment

/-- The environment with other open scopes; the scopes and their contents are the same. -/
def withOpen (inner : List ScopeRef) (env : Environment) : Environment := { env with inner := inner }

variable {env : Environment} {inner : List ScopeRef}

/-- What a name means in some scopes does not depend on which scopes are open. -/
@[simp] theorem lookupIn_withOpen (env : Environment) (inner : List ScopeRef) (x : String)
    (chain : List ScopeRef) : (env.withOpen inner).lookupIn x chain = env.lookupIn x chain := by
  induction chain with
  | nil => rfl
  | cons r outer ih =>
    rw [lookupIn, lookupIn, ih]
    rfl

/-- Two environments that differ in the open scopes, but not in the current one. -/
abbrev SameCurrent (inner : List ScopeRef) (env : Environment) : Prop :=
  (env.withOpen inner).current = env.current

theorem lookup_withOpen (h : env.SameCurrent inner) (x : String) :
    (env.withOpen inner).lookup x = env.lookup x := by
  rw [lookup, h]
  exact lookupIn_withOpen ..

theorem define_withOpen (h : env.SameCurrent inner) (x : String) (v : Value) :
    (env.withOpen inner).define x v = (env.define x v).withOpen inner := by
  rw [define, h]
  rfl

theorem assign_withOpen (h : env.SameCurrent inner) (x : String) (v : Value) :
    (env.withOpen inner).assign x v = (env.assign x v).withOpen inner := by
  have hbinder : (env.withOpen inner).binder? x ((env.withOpen inner).chain env.current) =
      env.binder? x (env.chain env.current) := rfl
  rw [assign, assign, assignFrom, assignFrom, h, hbinder]
  cases env.binder? x (env.chain env.current) <;> rfl

theorem delete_withOpen (h : env.SameCurrent inner) (x : String) :
    (env.withOpen inner).delete x =
      ((env.delete x).1, (env.delete x).2.withOpen inner) := by
  have hscope : ((env.withOpen inner).scope env.current).binds x = (env.scope env.current).binds x := rfl
  rw [delete, delete, removeFrom, removeFrom, h, hscope]
  split <;> rfl

end Environment

namespace Machine

/-- The same state with other open scopes. -/
def withOpen (inner : List ScopeRef) (m : Machine) : Machine := { m with env := m.env.withOpen inner }

theorem bindAll_withOpen (params : List Param) (args : List Value) {env : Environment}
    {inner : List ScopeRef} (h : env.SameCurrent inner) :
    bindAll params args (env.withOpen inner) = (bindAll params args env).withOpen inner := by
  unfold bindAll
  induction params.zip args generalizing env with
  | nil => rfl
  | cons binding rest ih =>
    have hdefine := Environment.define_withOpen h binding.1.name binding.2
    rw [List.foldl_cons, List.foldl_cons, ← ih (show (env.define _ _).SameCurrent inner from h)]
    exact congrArg (fun env => List.foldl _ env rest) hdefine

end Machine

namespace Eval

variable {α β : Type}

/-- The same end in another state. -/
def mapState (f : Machine → Machine) :
    EStateM.Result Stop Machine α → EStateM.Result Stop Machine α
  | .ok a m => .ok a (f m)
  | .error stop m => .error stop (f m)

/-! ## Work that looks at the current scope only -/

/-- Two pieces of work that do the same from states which differ in the open scopes, but not in the
current one. -/
structure Blind (α : Type) (w w' : Eval α) : Prop where
  balanced : Balanced w
  same (m : Machine) (inner : List ScopeRef) : m.env.SameCurrent inner →
    w' (m.withOpen inner) = mapState (Machine.withOpen inner) (w m)

/-- Balanced work leaves the current scope as it is. -/
theorem sameCurrent_of_balanced {w : Eval α} {m n : Machine} {inner : List ScopeRef} (hw : Balanced w)
    (hn : w.after m = n) (h : m.env.SameCurrent inner) : n.env.SameCurrent inner := by
  have hstack := (hw m).scopes
  rw [hn] at hstack
  exact (show _ = m.env.current from h).trans (Environment.current_eq_of_stack hstack).symm

theorem Blind.bind {w w' : Eval α} {f f' : α → Eval β} (hw : Blind α w w')
    (hf : ∀ a, Blind β (f a) (f' a)) : Blind β (w >>= f) (w' >>= f') := by
  refine ⟨steady_sameStacks.bind hw.balanced fun a => (hf a).balanced, fun m inner hcurrent => ?_⟩
  have first := hw.same m inner hcurrent
  cases hr : w m with
  | ok a n =>
    rw [hr] at first
    rw [bind_of_ok hr, bind_of_ok first]
    exact (hf a).same n inner (sameCurrent_of_balanced hw.balanced (after_of_ok hr) hcurrent)
  | error stop n =>
    rw [hr] at first
    rw [bind_of_error hr, bind_of_error first]
    rfl

theorem Blind.located {w w' : Eval α} (span : Span) (hw : Blind α w w') :
    Blind α (located span w) (located span w') := by
  refine ⟨Steady.located span hw.balanced, fun m inner hcurrent => ?_⟩
  have inside := hw.same m inner hcurrent
  cases hr : w m with
  | ok a n =>
    rw [hr] at inside
    rw [located_of_ok hr, located_of_ok inside]
    rfl
  | error stop n =>
    rw [hr] at inside
    rw [located_of_error hr, located_of_error inside]
    rfl

theorem Blind.inBlock {w w' : Eval α} (hw : Blind α w w') : Blind α (inBlock w) (inBlock w') := by
  refine ⟨steady_sameStacks.inBlock w hw.balanced, fun m inner hcurrent => ?_⟩
  -- the block opens inside one and the same scope, and is then the current one on both sides
  have hopen : (m.withOpen inner).env.openBlock = m.env.openBlock.withOpen (m.env.next :: inner) := by
    rw [Environment.openBlock, show (m.withOpen inner).env.current = m.env.current from hcurrent]
    rfl
  have inside := hw.same { m with env := m.env.openBlock } (m.env.next :: inner) rfl
  have hstate : ({ m with env := m.env.openBlock } : Machine).withOpen (m.env.next :: inner) =
      { m.withOpen inner with env := (m.withOpen inner).env.openBlock } := by
    rw [hopen]
    rfl
  rw [hstate] at inside
  cases hr : w { m with env := m.env.openBlock } with
  | ok a n =>
    rw [hr] at inside
    rw [inBlock_of_ok hr, inBlock_of_ok inside]
    rfl
  | error stop n =>
    rw [hr] at inside
    rw [inBlock_of_error hr, inBlock_of_error inside]
    rfl

theorem blind_modify {f : Machine → Machine} (hbalanced : Balanced (modify f : Eval Unit))
    (hf : ∀ m inner, m.env.SameCurrent inner → f (m.withOpen inner) = (f m).withOpen inner) :
    Blind Unit (modify f) (modify f) := by
  refine ⟨hbalanced, fun m inner hcurrent => ?_⟩
  show EStateM.Result.ok () (f (m.withOpen inner)) = .ok () ((f m).withOpen inner)
  rw [hf m inner hcurrent]

theorem blind_onStore {w : StoreM α} (hbalanced : Balanced (onStore w)) :
    Blind α (onStore w) (onStore w) := by
  refine ⟨hbalanced, fun m inner _ => ?_⟩
  rcases m with ⟨env, s, calls, output, closures⟩
  simp only [onStore, Machine.withOpen]
  rcases w s with ⟨a, t⟩ | ⟨stop, t⟩ <;> rfl

theorem congruent_blind : Congruent Blind := by
  have same := steady_sameStacks.congruent
  exact {
    pure := fun a => ⟨same.pure a, fun _ _ _ => rfl⟩
    fail := fun fault => ⟨same.fail fault, fun _ _ _ => rfl⟩
    bind := Blind.bind
    located := Blind.located
    inBlock := Blind.inBlock
    reading := fun look f g hf => ⟨fun m => (hf (look m.store)).balanced m,
      fun m inner hcurrent => (hf (look m.store)).same m inner hcurrent⟩
    nameValue := fun x => ⟨same.nameValue x, fun m inner hcurrent => by
      have hlookup : (m.withOpen inner).env.lookup x = m.env.lookup x :=
        Environment.lookup_withOpen hcurrent x
      rw [nameValue_eq, nameValue_eq, hlookup]
      rcases m.env.lookup x with (_ | _) | v <;> rfl⟩
    deleteName := fun x => ⟨same.deleteName x, fun m inner hcurrent => by
      have hdelete : (m.withOpen inner).env.delete x = _ := Environment.delete_withOpen hcurrent x
      rw [deleteName_eq, deleteName_eq, hdelete]
      split <;> rfl⟩
    define := fun x v => blind_modify (same.define x v) fun m inner hcurrent => by
      exact congrArg (fun env => { m with env := env }) (Environment.define_withOpen hcurrent x v)
    assign := fun x v => blind_modify (same.assign x v) fun m inner hcurrent => by
      exact congrArg (fun env => { m with env := env }) (Environment.assign_withOpen hcurrent x v)
    defineFunction := fun d => blind_modify (same.defineFunction d) fun m inner hcurrent => by
      rw [Machine.defineFunction, show (m.withOpen inner).env.current = m.env.current from hcurrent]
      exact congrArg (fun env => { m with env := env, closures := m.closures + 1 })
        (Environment.define_withOpen hcurrent ..)
    write := fun text => blind_modify (same.write text) fun _ _ _ => rfl
    settled := fun a => blind_onStore (same.settled a)
    newArray := fun items => blind_onStore (same.newArray items)
    newMap := fun es => blind_onStore (same.newMap es)
    binary := fun op l r => blind_onStore (same.binary op l r)
    unary := fun op v => blind_onStore (same.unary op v)
    index := fun t i => blind_onStore (same.index t i)
    assignIndex := fun t i v => blind_onStore (same.assignIndex t i v) }

/-! ## Calls -/

/-- A call opens its scope inside the one that the function keeps, whatever scopes are open. So it does
the same from all of them, even where the current scopes differ. -/
theorem duringCall_withOpen (f : Closure) (args : List Value) (span : Span) {body body' : Eval Completion}
    (hbody : Blind Completion body body') (m : Machine) (inner : List ScopeRef) :
    duringCall f args span body' (m.withOpen inner) =
      mapState (Machine.withOpen inner) (duringCall f args span body m) := by
  by_cases harity : args.length = f.arity
  · have hcalls : (m.withOpen inner).calls = m.calls := rfl
    cases hpush : m.calls.push ⟨f.name, some span⟩ with
    | error fault =>
      rw [duringCall_of_full harity hpush, duringCall_of_full harity (hcalls ▸ hpush)]
      rfl
    | ok calls =>
      have hentered : entered f args calls (m.withOpen inner) =
          (entered f args calls m).withOpen (m.env.next :: inner) := by
        have hnew : (m.env.openInside f.scope).SameCurrent (m.env.next :: inner) := rfl
        exact congrArg (fun env => { m with env := env, calls := calls })
          (Machine.bindAll_withOpen f.definition.params args hnew)
      have hcurrent : (entered f args calls m).env.SameCurrent (m.env.next :: inner) := by
        have hstack := Machine.stack_bindAll f.definition.params args (m.env.openInside f.scope)
        exact (Environment.current_eq_of_stack hstack).symm
      have inside := hbody.same _ _ hcurrent
      rw [duringCall_of_push harity hpush, duringCall_of_push harity (hcalls ▸ hpush), hentered, inside]
      cases body (entered f args calls m) <;> rfl
  · rw [duringCall_of_arity harity, duringCall_of_arity harity]
    rfl

/-- The body of a function looks at the current scope only, which is the one that its call has opened. -/
theorem blind_bodyWithin (room : Nat) (d : FunctionDef) :
    Blind Completion (bodyWithin room d) (bodyWithin room d) := by
  induction room generalizing d with
  | zero => exact ⟨fun _ => ⟨rfl, rfl⟩, fun _ _ _ => rfl⟩
  | succ room ih =>
    have hcall : ∀ f args span, Blind Value (callWithin room f args span) (callWithin room f args span) :=
      fun f args span => ⟨balanced_callWithin room f args span, fun m inner _ =>
        duringCall_withOpen f args span (ih f.definition) m inner⟩
    rw [bodyWithin_succ]
    exact congruent_blind.stmts hcall d.body.stmts

/-- A built-in function does not look at scopes at all. -/
theorem callBuiltin_withOpen (b : Builtin) (args : List Value) (m : Machine) (inner : List ScopeRef) :
    callBuiltin b args (m.withOpen inner) = mapState (Machine.withOpen inner) (callBuiltin b args m) := by
  have hstore : (m.withOpen inner).store = m.store := rfl
  rw [callBuiltin_eq, callBuiltin_eq, hstore]
  rcases b.apply m.store args with fault | ⟨printed, v⟩ <;> rfl

end Eval

/-! ## The main statement -/

/-- **Scoping is lexical.** From two states that differ in nothing but the scopes that are open, a call of
any value with any arguments gives the same result or the same error, and leaves states behind that
again differ in nothing but the scopes that are open. Scopes and what is bound in them, collections,
output and calls under way are the same in both. -/
theorem calls_ignore_open_scopes (room : Nat) (callee : Value) (args : List Value) (span : Span)
    (m : Machine) (inner : List ScopeRef) :
    Eval.callValue (Eval.callWithin room) callee args span (m.withOpen inner) =
      Eval.mapState (Machine.withOpen inner)
        (Eval.callValue (Eval.callWithin room) callee args span m) := by
  cases callee with
  | function f =>
    exact Eval.duringCall_withOpen f args span (Eval.blind_bodyWithin room f.definition) m inner
  | builtin b => exact Eval.callBuiltin_withOpen b args m inner
  | _ => rfl

end Nikl
