import Nikl.Proofs.Evaluation.Course
import Nikl.Proofs.Scope

/-
Definitions and deletions are confined to the scope that they are carried out in. A run leaves the scopes
that it found as they are: the scopes around each, the names bound in it and the names deleted in it.
Values may change, by assignment. There are two exceptions. An assignment to a name that is bound nowhere
binds it in the global scope. And a single statement that defines or deletes a name changes the current
scope, at that name.

Which names of which scopes have to stay is a parameter, `keep`. A contract follows the current scope: it
is one that is kept only where nothing is defined or deleted directly. Blocks, rounds and calls open a
scope of their own, which is none of those that were found.
-/

set_option autoImplicit false

namespace Nikl

/-! ## Declarations and assignments -/

/-- A statement itself defines or deletes a name, in the scope it is carried out in. -/
def Stmt.Declares (x : String) : Stmt → Prop
  | .define y _ _ _ => y = x
  | .function d _ => d.name = x
  | .delete y _ => y = x
  | _ => False

/-- A job is an assignment to a name. -/
def Job.IsAssignment (x : String) {α : Type} : Job α → Prop
  | stmt (.assign y _ _) => y = x
  | _ => False

/-- The next thing in a script is to give a name another value. -/
def Script.Assigns (x : String) {α : Type} : Script α → Prop
  | act (.assign y _) _ => y = x
  | _ => False

/-- An assignment is about to give a value to a name that is bound nowhere from the current scope on. -/
structure Point.AssignsUnbound (x : String) (p : Point) : Prop where
  job : p.job.IsAssignment x
  rest : p.rest.Assigns x
  unbound : p.state.env.binder? x (p.state.env.chain p.state.env.current) = none

/-! ## Confined changes -/

namespace Environment

/-- From one environment to another, the first `b` scopes keep the scopes around them, and are as they
were at the names that have to stay; but the global scope may have been given some names. -/
structure Confined (b : Nat) (keep : ScopeRef → String → Prop) (given : String → Prop)
    (before after : Environment) : Prop where
  outer (r : ScopeRef) : r.index < b → (after.scope r).outer = (before.scope r).outer
  names (r : ScopeRef) (x : String) : keep r x → Scope.SameAt x (before.scope r) (after.scope r) ∨
    r = global ∧ given x ∧ (after.scope r).Has x

section Confined

variable {b : Nat} {keep : ScopeRef → String → Prop} {given : String → Prop}
  {env between after : Environment}

theorem Confined.refl (env : Environment) : Confined b keep given env env :=
  ⟨fun _ _ => rfl, fun r x _ => .inl (.refl x (env.scope r))⟩

theorem confined_close (env : Environment) : Confined b keep given env env.close :=
  ⟨fun _ _ => rfl, fun r x _ => .inl (.refl x (env.scope r))⟩

theorem Confined.trans (h : Confined b keep given env between) (h' : Confined b keep given between after) :
    Confined b keep given env after := by
  refine ⟨fun r hr => (h'.outer r hr).trans (h.outer r hr), fun r x hx => ?_⟩
  rcases h'.names r x hx with hsame' | hgiven
  · rcases h.names r x hx with hsame | ⟨hglobal, hgiven, hhas⟩
    · exact .inl (hsame.trans hsame')
    · exact .inr ⟨hglobal, hgiven, hsame'.has hhas⟩
  · exact .inr hgiven

/-- A change of one scope that stays as it was where it has to. -/
theorem Confined.modifyScope (r : ScopeRef) {f : Scope → Scope}
    (houter : (f (env.scope r)).outer = (env.scope r).outer)
    (hnames : ∀ x, keep r x → Scope.SameAt x (env.scope r) (f (env.scope r)) ∨
      r = global ∧ given x ∧ (f (env.scope r)).Has x) :
    Confined b keep given env (env.modifyScope r f) := by
  refine ⟨fun q _ => ?_, fun q x hx => ?_⟩
  · rcases env.scope_modifyScope r q f with hq | ⟨rfl, hq⟩
    · rw [hq]
    · rw [hq, houter]
  · rcases env.scope_modifyScope r q f with hq | ⟨rfl, hq⟩
    · rw [hq]
      exact .inl (.refl x (env.scope q))
    · rw [hq]
      exact hnames x hx

theorem confined_define {x : String} (hx : ¬ keep env.current x) (v : Value) :
    Confined b keep given env (env.define x v) := by
  refine .modifyScope env.current rfl fun y hy => .inl (Scope.sameAt_define ?_ v _)
  rintro rfl
  exact hx hy

theorem confined_delete {x : String} (hx : ¬ keep env.current x) :
    Confined b keep given env (env.delete x).2 := by
  unfold delete removeFrom
  split
  · refine .modifyScope env.current rfl fun y hy => .inl (Scope.sameAt_remove ?_ _)
    rintro rfl
    exact hx hy
  · exact .refl env

/-- An assignment changes no scope but in the value of a bound name, or it gives the global scope a
name that is bound nowhere. -/
theorem confined_assign {x : String} (hx : env.binder? x (env.chain env.current) = none → given x)
    (v : Value) : Confined b keep given env (env.assign x v) := by
  unfold assign assignFrom
  cases hbinder : env.binder? x (env.chain env.current) with
  | some r =>
    have hbinds : (env.scope r).binds x = true :=
      List.find?_some (p := fun r => (env.scope r).binds x) hbinder
    exact .modifyScope r rfl fun y _ => .inl (Scope.sameAt_rebind hbinds y v)
  | none =>
    refine .modifyScope global rfl fun y _ => ?_
    by_cases hy : y = x
    · subst hy
      exact .inr ⟨rfl, hx hbinder, Scope.has_define y v _⟩
    · exact .inl (Scope.sameAt_define hy v _)

theorem confined_openInside (hkeep : ∀ r x, keep r x → r.index < b) (hb : b ≤ env.scopes.size)
    (r : ScopeRef) : Confined b keep given env (env.openInside r) := by
  refine ⟨fun q hq => ?_, fun q x hx => .inl ?_⟩
  · rw [scope_openInside (Nat.lt_of_lt_of_le hq hb)]
  · rw [scope_openInside (Nat.lt_of_lt_of_le (hkeep q x hx) hb)]
    exact .refl x (env.scope q)

end Confined

end Environment

/-! ## What jobs may do to scopes -/

section Sparing

variable {b : Nat} {keep : ScopeRef → String → Prop}

/-- A job defines and deletes nothing directly that has to stay in the current scope. -/
def Job.Spares (keep : ScopeRef → String → Prop) (env : Environment) {α : Type} : Job α → Prop
  | stmt s => ∀ x, s.Declares x → ¬ keep env.current x
  | stmts ss => ∀ s ∈ ss, ∀ x, s.Declares x → ¬ keep env.current x
  | bindAll arguments => ∀ a ∈ arguments, ¬ keep env.current a.1.name
  | body _ => ∀ x, ¬ keep env.current x
  | _ => True

/-- What an action of a job may do to scopes. -/
def Action.Spares (keep : ScopeRef → String → Prop) {α : Type} (j : Job α) (env : Environment)
    {β : Type} : Action β → Prop
  | define x _ => ¬ keep env.current x
  | defineFunction d => ¬ keep env.current d.name
  | delete x => ¬ keep env.current x
  | assign x _ => j.IsAssignment x
  | _ => True

/-- Parameters are bound in the scope that is current before and after. -/
def Job.StaysIn (env after : Environment) {α : Type} : Job α → Prop
  | bindAll _ => after.current = env.current
  | _ => True

/-- The scopes that were found stay, at the names that have to, as long as nothing is defined or deleted
there directly. -/
def sparing (b : Nat) (keep : ScopeRef → String → Prop) : Contract where
  Inv m := b ≤ m.env.scopes.size
  Later _ _ := True
  Pre j m := j.Spares keep m.env
  Post j m _ n := j.StaysIn m.env n.env
  Legal j _ a m := a.Spares keep j m.env
  refl _ := trivial
  trans _ _ := trivial
  act {_ _ _ _ m a} hm _ := by
    refine ⟨?_, trivial⟩
    cases a with
    | openBlock => exact Nat.le_trans hm (by simp [Machine.host, Environment.openBlock])
    | openInside r => exact Nat.le_trans hm (by simp [Machine.host])
    | define x v => simpa [Machine.host, Environment.define] using hm
    | defineFunction d => simpa [Machine.host, Machine.defineFunction, Environment.define] using hm
    | assign x v =>
      show b ≤ (m.env.assign x v).scopes.size
      unfold Environment.assign Environment.assignFrom
      cases m.env.binder? x (m.env.chain m.env.current) <;>
        simpa [Environment.defineGlobal] using hm
    | delete x =>
      show b ≤ (m.env.delete x).2.scopes.size
      unfold Environment.delete Environment.removeFrom
      split
      · simpa using hm
      · exact hm
    | enter frame =>
      simp only [Machine.host]
      cases m.calls.push frame <;> exact hm
    | _ => exact hm
  leave closing hm := by
    refine ⟨?_, trivial⟩
    cases closing <;> exact hm

/-- A scope that is opened is none of those that have to stay. -/
theorem not_keep_opened (hkeep : ∀ r x, keep r x → r.index < b) {env : Environment}
    (hb : b ≤ env.scopes.size) (r : ScopeRef) (x : String) : ¬ keep (env.openInside r).current x := by
  intro h
  have hlt : env.scopes.size < b := hkeep _ x h
  omega

/-- What a job leaves open is what it found open. -/
theorem Job.Ends.current {α : Type} {j : Job α} {m n : Machine} {r : Except EvalError α}
    {w : Eval α} (h : j.Ends m r n) (hw : Carries m.calls.room (Script.job j) w) :
    n.env.current = m.env.current :=
  Environment.current_eq_of_stack (hw.sameStacks h).scopes

namespace Script

variable {α : Type} {j : Job α} {start m : Machine}

/-- A script that does nothing to scopes itself. -/
abbrev Spared {β : Type} (b : Nat) (keep : ScopeRef → String → Prop) (j : Job α) (start m : Machine)
    (s : Script β) : Prop :=
  s.Abides (sparing b keep) j start (fun _ _ => True) m

theorem spared_newArray (items : List Value) : Spared b keep j start m (newArray items) :=
  abides_look_bind trivial (abides_action_bind trivial fun _ _ => trivial)

theorem spared_newMap (entries : Entries) : Spared b keep j start m (newMap entries) :=
  abides_look_bind trivial (abides_action_bind trivial fun _ _ => trivial)

theorem spared_ofExcept {β : Type} (r : Except EvalFault β) : Spared b keep j start m (ofExcept r) :=
  abides_ofExcept fun _ _ => trivial

theorem spared_binary (op : BinaryOp) (l r : Value) : Spared b keep j start m (binary op l r) := by
  unfold binary
  split
  · exact abides_same_bind fun _ _ => trivial
  split
  · exact abides_same_bind fun _ _ => trivial
  cases op.joined? l r with
  | some refs => exact abides_look_bind trivial (spared_newArray _)
  | none => exact spared_ofExcept _

theorem spared_unary (op : UnaryOp) (v : Value) : Spared b keep j start m (unary op v) := by
  cases op with
  | not => exact abides_look_bind trivial trivial
  | neg =>
    cases v with
    | int n => exact spared_ofExcept _
    | _ => trivial

theorem spared_itemAt (items : List Value) (i : Int64) : Spared b keep j start m (itemAt items i) := by
  unfold itemAt
  cases (placeOf? i items.length).bind (items[·]?) <;> trivial

theorem spared_index (t i : Value) : Spared b keep j start m (index t i) := by
  unfold index
  split
  · exact abides_look_bind trivial (spared_itemAt _ _)
  · exact spared_itemAt _ _
  · exact spared_itemAt _ _
  · refine abides_look_bind trivial (abides_job_bind trivial fun place _ _ _ _ _ => ?_)
    cases place.bind ((m.store.entries _)[·]?) <;> trivial
  · trivial

theorem spared_assignIndex (t i v : Value) : Spared b keep j start m (assignIndex t i v) := by
  unfold assignIndex
  split
  · refine abides_look_bind trivial ?_
    cases placeOf? _ (m.store.items _).length with
    | some place => exact abides_action_bind (t := give) trivial fun _ _ => trivial
    | none => trivial
  · trivial
  · refine abides_look_bind trivial (abides_job_bind trivial fun place _ _ _ _ _ => ?_)
    cases place <;> exact abides_action_bind (t := give) trivial fun _ _ => trivial
  · trivial
  · trivial

theorem spared_callValue (callee : Value) (args : List Value) (span : Span) :
    Spared b keep j start m (callValue callee args span) := by
  cases callee with
  | function f => exact abides_job trivial fun _ _ _ _ _ _ => trivial
  | builtin f =>
    exact abides_look_bind trivial (abides_ofExcept_bind fun _ _ =>
      abides_action_bind trivial fun _ _ => trivial)
  | _ => trivial

theorem spared_expr (e : Expr) : Spared b keep j start m (expr e) := by
  cases e with
  | literal l span => trivial
  | ident x span =>
    refine abides_action_bind trivial fun _ _ => ?_
    split <;> trivial
  | array items span => exact abides_job_bind trivial fun vs _ _ _ _ _ => spared_newArray vs
  | tuple items span => exact abides_job_bind trivial fun _ _ _ _ _ _ => trivial
  | map entries span => exact abides_job_bind trivial fun es _ _ _ _ _ => spared_newMap es
  | binary op left right span =>
    exact abides_job_bind trivial fun l _ _ _ _ _ => abides_job_bind trivial fun r _ _ _ _ _ =>
      spared_binary op l r
  | unary op operand span => exact abides_job_bind trivial fun v _ _ _ _ _ => spared_unary op v
  | call callee args span =>
    exact abides_job_bind trivial fun f _ _ _ _ _ => abides_job_bind trivial fun vs _ _ _ _ _ =>
      spared_callValue f vs span
  | index target i span =>
    exact abides_job_bind trivial fun t _ _ _ _ _ => abides_job_bind trivial fun i _ _ _ _ _ =>
      spared_index t i

theorem spared_bindItem (hfresh : ∀ x, ¬ keep m.env.current x) (first : String) (second : Option String)
    (item : LoopItem) :
    (bindItem first second item).Abides (sparing b keep) j start
      (fun _ n => n.env.current = m.env.current) m := by
  refine abides_action_bind (hfresh first) fun _ _ => ?_
  rcases second with _ | x <;> rcases item.second with _ | v
  · exact abides_pure rfl
  · exact abides_pure rfl
  · exact abides_pure rfl
  · exact abides_action_bind (t := give) (hfresh x) fun _ _ => rfl

/-- A statement defines and deletes in the scope in which it began. -/
theorem spared_stmt (s : Stmt) (h : (Job.stmt s).Spares keep m.env) :
    Spared b keep (.stmt s) start m (stmt s) := by
  have carried := Carries.expr (Carries.call m.calls.room)
  have hassign : ∀ x value span, (Job.stmt (.assign x value span)).IsAssignment x := fun _ _ _ => rfl
  cases s with
  | expr e span => exact abides_job_bind trivial fun _ _ _ _ _ _ => trivial
  | define x type value span =>
    refine abides_job_bind trivial fun v n hends _ _ _ => abides_action_bind ?_ fun _ _ => trivial
    show ¬ keep n.env.current x
    rw [hends.current (carried value)]
    exact h x rfl
  | assign x value span =>
    exact abides_job_bind trivial fun v n _ _ _ _ =>
      abides_action_bind (hassign x value span) fun _ _ => trivial
  | assignIndex target i value span =>
    exact abides_job_bind trivial fun t _ _ _ _ _ => abides_job_bind trivial fun i _ _ _ _ _ =>
      abides_job_bind trivial fun v _ _ _ _ _ =>
        Abides.bind ((spared_assignIndex t i v).mono fun _ _ _ => trivial)
  | delete x span =>
    refine abides_action_bind (h x rfl) fun _ _ => ?_
    split <;> trivial
  | function d span => exact abides_action_bind (h d.name rfl) fun _ _ => trivial
  | ifThen condition thenBranch span =>
    refine abides_job_bind trivial fun c n _ _ _ _ => abides_look_bind trivial ?_
    split
    · exact abides_job trivial fun _ _ _ _ _ _ => trivial
    · trivial
  | ifElse condition thenBranch elseBranch span =>
    refine abides_job_bind trivial fun c n _ _ _ _ => abides_look_bind trivial ?_
    split <;> exact abides_job trivial fun _ _ _ _ _ _ => trivial
  | forEach first second iterable body span =>
    exact abides_job_bind trivial fun v n _ _ _ _ => abides_look_bind trivial
      (abides_ofExcept_bind fun items _ => abides_job trivial fun _ _ _ _ _ _ => trivial)
  | giveBack value span =>
    cases value with
    | none => trivial
    | some e => exact abides_job_bind trivial fun _ _ _ _ _ _ => trivial

end Script

/-- **The script of every job spares the scopes that were found.** -/
theorem sparing_kept (hkeep : ∀ r x, keep r x → r.index < b) : (sparing b keep).Kept := by
  open Script in
  intro α j m hm hpre
  have hopened := not_keep_opened hkeep hm
  cases j with
  | expr e => exact spared_expr e
  | exprs es =>
    cases es with
    | nil => trivial
    | cons e rest =>
      exact abides_job_bind trivial fun _ _ _ _ _ _ => abides_job_bind trivial fun _ _ _ _ _ _ => trivial
  | mapEntries written es =>
    cases es with
    | nil => trivial
    | cons e rest =>
      refine abides_job_bind trivial fun k _ _ _ _ _ => abides_job_bind trivial fun v _ _ _ _ _ => ?_
      refine Abides.bind (abides_job_bind trivial fun place _ _ _ _ _ => ?_)
      cases place <;> exact abides_job trivial fun _ _ _ _ _ _ => trivial
  | find key entries =>
    cases entries with
    | nil => trivial
    | cons e rest =>
      refine abides_same_bind fun same _ => ?_
      split
      · trivial
      · exact abides_job_bind trivial fun _ _ _ _ _ _ => trivial
  | stmt s => exact spared_stmt s hpre
  | stmts ss =>
    cases ss with
    | nil => trivial
    | cons s rest =>
      obtain ⟨hs, hrest⟩ := List.forall_mem_cons.1 hpre
      have carried := Carries.stmt (Carries.call m.calls.room) s
      refine abides_job_bind hs fun c n hends _ _ _ => ?_
      cases c with
      | returned v => trivial
      | fellThrough =>
        refine abides_job (fun s' hs' x hx => ?_) fun _ _ _ _ _ _ => trivial
        rw [hends.current carried]
        exact hrest s' hs' x hx
  | block ss =>
    exact abides_action_bind trivial fun _ _ =>
      abides_job (fun _ _ x _ => hopened m.env.current x) fun _ _ _ _ _ _ => trivial
  | round first second ss item =>
    refine abides_action_bind trivial fun _ _ => Abides.bind ?_
    refine (spared_bindItem (hopened m.env.current) first second item).mono fun _ n hcurrent => ?_
    refine abides_job (fun _ _ x _ => ?_) fun _ _ _ _ _ _ => trivial
    rw [hcurrent]
    exact hopened m.env.current x
  | rounds first second ss items =>
    cases items with
    | nil => trivial
    | cons item rest =>
      refine abides_job_bind trivial fun c n _ _ _ _ => ?_
      cases c with
      | returned v => trivial
      | fellThrough => exact abides_job trivial fun _ _ _ _ _ _ => trivial
  | call f args span =>
    show Spared b keep _ m m (Script.call f args span)
    unfold Script.call
    split
    · trivial
    refine abides_action_bind trivial fun hentered _ => abides_ofExcept_bind fun _ _ => ?_
    have hfresh := not_keep_opened hkeep hentered f.scope
    refine abides_action_bind trivial fun _ _ => abides_job_bind (fun a _ => hfresh a.1.name) ?_
    intro _ n _ _ _ hcurrent
    refine abides_job_bind (fun x => ?_) fun _ _ _ _ _ _ => trivial
    rw [show n.env.current = _ from hcurrent]
    exact hfresh x
  | bindAll arguments =>
    cases arguments with
    | nil => exact abides_pure (show (Job.bindAll []).StaysIn m.env m.env from rfl)
    | cons a rest =>
      obtain ⟨ha, hrest⟩ := List.forall_mem_cons.1 hpre
      exact abides_action_bind ha fun _ _ => abides_job hrest fun _ n _ _ _ hcurrent => hcurrent
  | body d => exact abides_job (fun _ _ x _ => hpre x) fun _ _ _ _ _ _ => trivial

/-! ## Runs -/

/-- A run passes an assignment that gives a name which is bound nowhere to the global scope. -/
def Job.Gives {α : Type} (j : Job α) (m : Machine) (x : String) : Prop :=
  ∃ p, j.Passes m p ∧ p.AssignsUnbound x

section Runs

open Environment

variable {α : Type} {j : Job α} {m n : Machine}

/-- An action of a run changes no more than it may. -/
theorem Job.Passes.confined_act {γ β : Type} {i : Job γ} {l k : Machine} {a : Action β}
    {next : β → Script γ} (h : j.Passes m ⟨i, l, .act a next, k⟩)
    (hkeep : ∀ r x, keep r x → r.index < b) (hsize : b ≤ k.env.scopes.size)
    (ha : a.Spares keep i k.env) :
    Confined b keep (j.Gives m) k.env (Machine.host.act a k).2.env := by
  cases a with
  | define x v => exact confined_define ha v
  | defineFunction d => exact confined_define ha _
  | delete x => exact confined_delete ha
  | assign x v => exact confined_assign (fun hunbound => ⟨_, h, ha, rfl, hunbound⟩) v
  | openBlock => exact confined_openInside hkeep hsize _
  | openInside r => exact confined_openInside hkeep hsize r
  | enter frame =>
    simp only [Machine.host]
    cases k.calls.push frame <;> exact .refl k.env
  | close => exact confined_close k.env
  | leave => exact confined_close k.env
  | _ => exact .refl k.env

theorem Closing.confined {given : String → Prop} (closing : Closing) (k : Machine) :
    Confined b keep given k.env (closing.leave k).env := by
  cases closing with
  | block => exact confined_close k.env
  | call => exact confined_close k.env
  | _ => exact .refl k.env

variable (hkeep : ∀ r x, keep r x → r.index < m.env.scopes.size) (hj : j.Spares keep m.env)

include hkeep hj

/-- **A run changes no scope that it found more than it may**, whichever way it ends. -/
theorem Job.Ends.confined {r : Except EvalError α} (h : j.Ends m r n) :
    Confined m.env.scopes.size keep (j.Gives m) m.env n.env := by
  refine h.of_passes (R := fun k k' => Confined m.env.scopes.size keep (j.Gives m) k.env k'.env)
    (fun k => .refl k.env) (fun h h' => h.trans h') Closing.confined ?_
  intro γ β i l a next k hpass
  obtain ⟨hsize, ha⟩ := Contract.legal (sparing_kept hkeep) (Nat.le_refl m.env.scopes.size) hj hpass
  exact hpass.confined_act hkeep hsize ha

end Runs

end Sparing

/-! ## The main statement -/

/-- What is carried out on its own: an expression, a block, the rounds of a loop, a call of a value, or a
statement in the current scope. -/
inductive Piece where
  | expr (e : Expr)
  | block (b : Block)
  | rounds (first : String) (second : Option String) (body : List Stmt) (items : List LoopItem)
  | call (callee : Value) (args : List Value) (span : Span)
  | stmt (s : Stmt)

/-- Work ends in a state, with a result or with an error. -/
def EvalOf.EndsIn {ν α : Type} (w : EvalOf ν α) (m n : Machine ν) : Prop :=
  (∃ a, w m = .ok a n) ∨ ∃ e, w m = .error (.error e) n

namespace Piece

/-- Carrying out a piece from a state ends in another one. -/
def Ends (m n : Machine) : Piece → Prop
  | expr e => (Eval.expr (Eval.callWithin m.calls.room) e).EndsIn m n
  | block b => (Eval.block (Eval.callWithin m.calls.room) b).EndsIn m n
  | rounds first second body items => (Eval.forEach (fun item => Eval.inBlock do
      Eval.bindItem first second item
      Eval.stmts (Eval.callWithin m.calls.room) body) items).EndsIn m n
  | call callee args span =>
    (Eval.callValue (Eval.callWithin m.calls.room) callee args span).EndsIn m n
  | stmt s => (Eval.stmt (Eval.callWithin m.calls.room) s).EndsIn m n

/-- Carrying out a piece passes an assignment that gives a name which is bound nowhere to the global
scope. Calling what is no function passes nothing. -/
def Gives (m : Machine) (x : String) : Piece → Prop
  | expr e => (Job.expr e).Gives m x
  | block b => (Job.block b.stmts).Gives m x
  | rounds first second body items => (Job.rounds first second body items).Gives m x
  | call (.function f) args span => (Job.call f args span).Gives m x
  | call _ _ _ => False
  | stmt s => (Job.stmt s).Gives m x

/-- A piece is a statement that itself defines or deletes a name. -/
def Declares (x : String) : Piece → Prop
  | stmt s => s.Declares x
  | _ => False

end Piece

theorem Follows.ends_of_endsIn {α : Type} {j : Job α} {w : Eval α} {m n : Machine}
    (h : Follows (Script.job j) w m) (hw : w.EndsIn m n) : ∃ r, j.Ends m r n := by
  rcases hw with ⟨a, hw⟩ | ⟨e, hw⟩
  · exact ⟨.ok a, h.ends_of_ok hw⟩
  · exact ⟨.error e, h.ends_of_error hw⟩

/-- What is no function does nothing to scopes when it is called. -/
theorem EvalOf.EndsIn.env_of_callValue {call : Call} {callee : Value} {args : List Value} {span : Span}
    {m n : Machine} (hcallee : ∀ f, callee ≠ .function f)
    (h : (Eval.callValue call callee args span).EndsIn m n) : n.env = m.env := by
  have hafter : (Eval.callValue call callee args span).after m = n := by
    rcases h with ⟨a, h⟩ | ⟨e, h⟩
    · exact Eval.after_of_ok h
    · exact Eval.after_of_error h
  rw [← hafter]
  cases callee with
  | function f => exact absurd rfl (hcallee f)
  | builtin b =>
    show ((Eval.callBuiltin b args).after m).env = m.env
    rw [EvalOf.after, Eval.callBuiltin_eq]
    rcases b.apply m.store args with fault | ⟨printed, v⟩ <;> rfl
  | _ => rfl

/-- **Definitions and deletions are confined to the current scope.** Whatever is carried out from whatever
state, and whether it ends with a result or with an error: each scope that there was before keeps the
scopes around it, and at each name it is as it was, bound or not and deleted or not. There are two
exceptions: the current scope, at a name that the piece is a definition or a deletion of; and the global
scope, which has a name if an assignment to it was passed when it was bound nowhere. -/
theorem declarations_confined {m n : Machine} {piece : Piece} (h : piece.Ends m n) (r : ScopeRef)
    (hr : r.index < m.env.scopes.size) :
    (n.env.scope r).outer = (m.env.scope r).outer ∧
      ∀ x, Scope.SameAt x (m.env.scope r) (n.env.scope r) ∨
        (r = m.env.current ∧ piece.Declares x) ∨
        (r = Environment.global ∧ piece.Gives m x ∧ (n.env.scope r).Has x) := by
  let keep (r : ScopeRef) (x : String) : Prop :=
    r.index < m.env.scopes.size ∧ ¬ (r = m.env.current ∧ piece.Declares x)
  have hkeep : ∀ r x, keep r x → r.index < m.env.scopes.size := fun _ _ hx => hx.1
  have hcalls := Carries.call m.calls.room
  have hconfined : m.env.Confined m.env.scopes.size keep (piece.Gives m) n.env := by
    cases piece with
    | expr e =>
      obtain ⟨r, hends⟩ := ((Carries.expr hcalls e).follows m rfl).ends_of_endsIn h
      exact hends.confined hkeep trivial
    | block b =>
      obtain ⟨r, hends⟩ := ((Carries.block hcalls b).follows m rfl).ends_of_endsIn h
      exact hends.confined hkeep trivial
    | rounds first second body items =>
      have hrounds := Carries.rounds (Carries.stmts hcalls body) first second items
      obtain ⟨r, hends⟩ := (hrounds.follows m rfl).ends_of_endsIn h
      exact hends.confined hkeep trivial
    | stmt s =>
      obtain ⟨r, hends⟩ := ((Carries.stmt hcalls s).follows m rfl).ends_of_endsIn h
      exact hends.confined hkeep fun x hx hstays => hstays.2 ⟨rfl, hx⟩
    | call callee args span =>
      by_cases hcallee : ∃ f, callee = .function f
      · obtain ⟨f, rfl⟩ := hcallee
        obtain ⟨r, hends⟩ := ((hcalls f args span).follows m rfl).ends_of_endsIn h
        exact hends.confined hkeep trivial
      · rw [EvalOf.EndsIn.env_of_callValue (fun f hf => hcallee ⟨f, hf⟩) h]
        exact .refl m.env
  refine ⟨hconfined.outer r hr, fun x => ?_⟩
  by_cases hdeclares : r = m.env.current ∧ piece.Declares x
  · exact .inr (.inl hdeclares)
  · rcases hconfined.names r x ⟨hr, hdeclares⟩ with hsame | hgiven
    · exact .inl hsame
    · exact .inr (.inr hgiven)

/-- A function that binds and deletes a name, and gives another one the value of its argument. -/
def givesTotal : Closure :=
  let here := Span.nowhere
  let body : Block := .mk [
    .define "b" none (.ident "a" here) here,
    .delete "b" here,
    .assign "total" (.ident "a" here) here] here
  ⟨0, .mk "f" [⟨"a", none, here⟩] none body here, Environment.global⟩

/-- The state in which a call of the function ends, in a new interpreter. -/
def givenTotal : Machine :=
  (Eval.callValue (Eval.callWithin 3) (.function givesTotal) [.int 5] .nowhere).after (.ofLimit 3)

/-- The call leaves no trace of the name that it bound and deleted, and gives the global scope the other
name, which was bound nowhere. -/
theorem declarations_confined_givesTotal :
    let callsIt : Piece := .call (.function givesTotal) [.int 5] .nowhere
    let before := (Machine.ofLimit 3).env.scope Environment.global
    let after := givenTotal.env.scope Environment.global
    callsIt.Ends (.ofLimit 3) givenTotal ∧ Scope.SameAt "b" before after ∧
      callsIt.Gives (.ofLimit 3) "total" ∧ after.Has "total" := by
  intro callsIt before after
  have hends : callsIt.Ends (.ofLimit 3) givenTotal := .inl ⟨.none, rfl⟩
  have hold : ((Machine.ofLimit 3).env.scope Environment.global).binds "total" = false := by rfl
  have hnew : (givenTotal.env.scope Environment.global).binds "total" = true := by rfl
  have hgone : (givenTotal.env.scope Environment.global).binds "b" = false := by rfl
  have hconfined := (declarations_confined hends Environment.global (by decide)).2
  refine ⟨hends, ?_, ?_⟩
  · rcases hconfined "b" with hsame | ⟨-, hdeclares⟩ | ⟨-, -, hhas⟩
    · exact hsame
    · exact hdeclares.elim
    · cases hgone.symm.trans hhas.1
  · rcases hconfined "total" with hsame | ⟨-, hdeclares⟩ | ⟨-, hgives, hhas⟩
    · cases hnew.symm.trans (hsame.binds.trans hold)
    · exact hdeclares.elim
    · exact ⟨hgives, hhas⟩

end Nikl
