import Mathlib.Logic.Relation
import Nikl.Proofs.Evaluation.Chronicle

/-
The course of a run. What a job ends with says nothing of the states in between, and nothing of which
actions led from one to the next. So a run is told by the points it passes: a point is a job under way,
with the state that the job began in, what is left of its script, and the state reached so far. From a
point a run passes to the next one of the same job, or to the first one of a job that the script asks
for (`Point.Next`).

Two principles go along the course of a run. What every action at a passed point keeps, the run keeps
(`Job.Ends.of_passes`). And what is legal for an action may depend on the job it belongs to: a contract
says what a job has to begin with, what it ends with, and which actions are legal in it. If all scripts
abide by a contract, all actions of all runs are legal (`Contract.legal`).
-/

set_option autoImplicit false

namespace Nikl

open Relation (ReflTransGen)

/-! ## Ends -/

/-- The state that a job leaves behind, from the one its script ends in. -/
def Closing.leave (closing : Closing) (m : Machine) : Machine :=
  match closing with
  | block => { m with env := m.env.close }
  | call => m.leaveCall
  | _ => m

/-- What the end of a job makes of an error. -/
def Closing.tell (closing : Closing) (m : Machine) (e : EvalError) : EvalError :=
  match closing with
  | place span => e.orSpan span
  | call => m.calls.attach e
  | _ => e

/-- A job ends so, with some amount of fuel and then with any more. -/
def Job.Ends {α : Type} (j : Job α) (m : Machine) (r : Except EvalError α) (n : Machine) : Prop :=
  ∃ fuel, j.run Machine.host fuel m = .ended r n

/-- A script goes to its end: one rule for each thing that it may ask for. -/
inductive Script.Goes : {α : Type} → Script α → Machine → Except EvalError α → Machine → Prop
  | give {α : Type} (a : α) (k : Machine) : Goes (.give a) k (.ok a) k
  | fault {α : Type} (f : EvalFault) (k : Machine) : Goes (.fault f : Script α) k (.error ⟨f, none, none⟩) k
  | act {α β : Type} (a : Action β) {next : β → Script α} {k n : Machine} {r : Except EvalError α}
      (rest : Goes (next (Machine.host.act a k).1) (Machine.host.act a k).2 r n) :
      Goes (.act a next) k r n
  | compare {α : Type} {v w : Value} {same : Bool} {next : Bool → Script α} {k n : Machine}
      {r : Except EvalError α} (hsame : v.equal? k.store w = some same) (rest : Goes (next same) k r n) :
      Goes (.compare v w next) k r n
  /-- A job comes to a result, with which the script goes on. -/
  | back {α β : Type} {i : Job β} {next : β → Script α} {b : β} {k l n : Machine} {r : Except EvalError α}
      (ends : i.Ends k (.ok b) (i.closing.leave l)) (inner : Goes i.script k (.ok b) l)
      (rest : Goes (next b) (i.closing.leave l) r n) : Goes (.perform i next) k r n
  /-- A job comes to an error, with which the script ends. -/
  | broken {α β : Type} {i : Job β} {next : β → Script α} {e : EvalError} {k l : Machine}
      (inner : Goes i.script k (.error e) l) :
      Goes (.perform i next) k (.error (i.closing.tell l e)) (i.closing.leave l)

section Ends

variable {α : Type} {j : Job α} {m n : Machine} {r : Except EvalError α}

theorem Closing.apply_ended (closing : Closing) (r : Except EvalError α) (k : Machine) :
    closing.apply Machine.host (.ended r k) = .ended (r.mapError (closing.tell k)) (closing.leave k) := by
  cases closing <;> cases r <;> rfl

/-- A job that ends does so from an end of its script. -/
theorem Closing.apply_eq_ended {closing : Closing} {p : Progress Machine α}
    (h : closing.apply Machine.host p = .ended r n) :
    ∃ r' k, p = .ended r' k ∧ r'.mapError (closing.tell k) = r ∧ closing.leave k = n := by
  cases p with
  | ended r' k =>
    rw [apply_ended] at h
    cases h
    exact ⟨r', k, rfl, rfl, rfl⟩
  | unfinished => cases closing <;> cases h
  | comparing s v w k => cases closing <;> cases h

theorem Closing.ok_of_mapError {f : EvalError → EvalError} {r : Except EvalError α} {a : α}
    (h : r.mapError f = .ok a) : r = .ok a := by
  cases r <;> cases h
  rfl

theorem Closing.apply_eq_comparing {closing : Closing} {p : Progress Machine α} {s : Store}
    {v w : Value} (h : closing.apply Machine.host p = .comparing s v w n) : p = .comparing s v w n := by
  rcases p with ⟨e | a, k⟩ | _ | ⟨s, v, w, k⟩ <;> cases closing <;> cases h <;> rfl

/-- A script goes on from a comparison if there is enough depth for it. -/
theorem Script.run_compare (perform : {β : Type} → Job β → Machine → Progress Machine β) (depth : Nat)
    (v w : Value) (next : Bool → Script α) (m : Machine) :
    (Script.compare v w next).run Machine.host perform depth m =
      match v.equalWithin m.store depth w with
      | some same => (next same).run Machine.host perform depth m
      | none => .comparing m.store v w m := by
  simp only [run]
  rfl

/-- **A job that ends goes by the rules to its end.** -/
theorem Job.Ends.goes (h : j.Ends m r n) :
    ∃ r' k, j.script.Goes m r' k ∧ r'.mapError (j.closing.tell k) = r ∧ j.closing.leave k = n := by
  obtain ⟨fuel, h⟩ := h
  induction fuel generalizing α m r n with
  | zero => cases h
  | succ fuel ih =>
    have along : ∀ (s : Script α) (k : Machine) {r' : Except EvalError α} {k' : Machine},
        s.run Machine.host (Job.run Machine.host fuel) fuel k = .ended r' k' → s.Goes k r' k' := by
      intro s
      induction s with
      | give a =>
        intro k r' k' hrun
        cases hrun
        exact .give a k
      | fault f =>
        intro k r' k' hrun
        cases hrun
        exact .fault f k
      | act a next ihs => exact fun k r' k' hrun => .act a (ihs _ _ hrun)
      | compare v w next ihs =>
        intro k r' k' hrun
        rw [Script.run_compare] at hrun
        cases hsame : v.equalWithin k.store fuel w with
        | none =>
          rw [hsame] at hrun
          cases hrun
        | some same =>
          rw [hsame] at hrun
          exact .compare (Value.equal?_eq_some_iff.2 ⟨fuel, hsame⟩) (ihs same k hrun)
      | perform i next ihs =>
        intro k r' k' hrun
        rw [Script.run] at hrun
        cases hi : Job.run Machine.host fuel i k with
        | unfinished =>
          rw [hi] at hrun
          cases hrun
        | comparing u v w i =>
          rw [hi] at hrun
          cases hrun
        | ended b l =>
          rw [hi] at hrun
          obtain ⟨b', l', hinner, rfl, rfl⟩ := ih hi
          cases b' with
          | error e =>
            cases hrun
            exact .broken hinner
          | ok b => exact .back ⟨fuel, hi⟩ hinner (ihs b _ hrun)
    obtain ⟨r', k, hrun, hresult, hleave⟩ := Closing.apply_eq_ended h
    exact ⟨r', k, along j.script m hrun, hresult, hleave⟩

/-- Where the evaluator comes to a result, the job ends with it. -/
theorem Follows.ends_of_ok {w : Eval α} {a : α} (h : Follows (Script.job j) w m)
    (hw : w m = .ok a n) : j.Ends m (.ok a) n := by
  obtain ⟨p, htold, enough, hcomes⟩ := h
  rw [hw] at htold
  cases htold
  have hrun := hcomes enough (Nat.le_refl enough)
  rw [Script.run_job] at hrun
  exact ⟨enough, hrun⟩

theorem Follows.ends_of_error {w : Eval α} {e : EvalError} (h : Follows (Script.job j) w m)
    (hw : w m = .error (.error e) n) : j.Ends m (.error e) n := by
  obtain ⟨p, htold, enough, hcomes⟩ := h
  rw [hw] at htold
  cases htold
  have hrun := hcomes enough (Nat.le_refl enough)
  rw [Script.run_job] at hrun
  exact ⟨enough, hrun⟩

/-- Where the evaluator leaves scopes and calls as it found them, so does the job. -/
theorem Carries.sameStacks {w : Eval α} (h : Carries m.calls.room (Script.job j) w)
    (hends : j.Ends m r n) : SameStacks m n := by
  have hbalanced := h.balanced m
  obtain ⟨p, htold, enough, hcomes⟩ := h.follows m rfl
  obtain ⟨fuel, hrun⟩ := hends
  have hp : p = .ended r n := by
    have hmore := hcomes (max fuel enough) (Nat.le_max_right fuel enough)
    rw [Script.run_job, Job.run_mono (Nat.le_max_left fuel enough) j m (by rw [hrun]; trivial),
      hrun] at hmore
    exact hmore.symm
  subst hp
  cases hw : w m with
  | ok a k =>
    rw [hw] at htold
    cases htold
    rwa [Eval.after_of_ok hw] at hbalanced
  | error stop k =>
    rw [hw] at htold
    cases htold
    rwa [Eval.after_of_error hw] at hbalanced

end Ends

/-! ## Points -/

/-- How far a job has come. -/
structure Point where
  {α : Type}
  job : Job α
  /-- The state in which the job began. -/
  start : Machine
  /-- What is left of the script of the job. -/
  rest : Script α
  state : Machine

/-- From one point to the next. -/
inductive Point.Next : Point → Point → Prop
  | act {α β : Type} (j : Job α) (m : Machine) (a : Action β) (next : β → Script α) (k : Machine) :
      Next ⟨j, m, .act a next, k⟩ ⟨j, m, next (Machine.host.act a k).1, (Machine.host.act a k).2⟩
  | compare {α : Type} (j : Job α) (m : Machine) (next : Bool → Script α) {k : Machine} {v w : Value}
      {same : Bool} (hsame : v.equal? k.store w = some same) :
      Next ⟨j, m, .compare v w next, k⟩ ⟨j, m, next same, k⟩
  /-- A job that the script asks for begins. -/
  | enter {α β : Type} (j : Job α) (m : Machine) (i : Job β) (next : β → Script α) (k : Machine) :
      Next ⟨j, m, .perform i next, k⟩ ⟨i, k, i.script, k⟩
  /-- A job that the script asks for has come to a result. -/
  | back {α β : Type} (j : Job α) (m : Machine) {i : Job β} (next : β → Script α) {k n : Machine} {b : β}
      (ends : i.Ends k (.ok b) n) : Next ⟨j, m, .perform i next, k⟩ ⟨j, m, next b, n⟩

/-- A run of a job from a state passes a point. -/
def Job.Passes {α : Type} (j : Job α) (m : Machine) : Point → Prop :=
  ReflTransGen Point.Next ⟨j, m, j.script, m⟩

/-- A program that is run from one state comes through another one, or ends in it. -/
def Machine.During (m : Machine) (program : Block) (n : Machine) : Prop :=
  (∃ p, (Job.stmts program.stmts).Passes m p ∧ p.state = n) ∨ m.Ends program n

section Course

variable {α β : Type} {j : Job α} {m n k : Machine} {p : Point}

theorem Job.passes_start (j : Job α) (m : Machine) : j.Passes m ⟨j, m, j.script, m⟩ := .refl

/-- What a job passes that a script asks for, the run passes. -/
theorem Job.Passes.inner {i : Job β} {next : β → Script α} (h : j.Passes m ⟨j, m, .perform i next, k⟩)
    (hp : i.Passes k p) : j.Passes m p :=
  (h.tail (.enter j m i next k)).trans hp

/-- A run that stays at a comparison passes the point where the two values are compared. -/
theorem Job.passes_of_comparing {fuel : Nat} {s : Store} {v w : Value}
    (h : j.run Machine.host fuel m = .comparing s v w n) :
    ∃ p, j.Passes m p ∧ p.state = n ∧ n.store = s ∧ ∃ next, p.rest = .compare v w next := by
  induction fuel generalizing α m with
  | zero => cases h
  | succ fuel ih =>
    have along : ∀ (t : Script α) (k : Machine), j.Passes m ⟨j, m, t, k⟩ →
        t.run Machine.host (Job.run Machine.host fuel) fuel k = .comparing s v w n →
        ∃ p, j.Passes m p ∧ p.state = n ∧ n.store = s ∧ ∃ next, p.rest = .compare v w next := by
      intro t
      induction t with
      | give a => exact fun k _ hrun => nomatch hrun
      | fault f => exact fun k _ hrun => nomatch hrun
      | act a next iht => exact fun k hpass hrun => iht _ _ (hpass.tail (.act j m a next k)) hrun
      | compare v' w' next iht =>
        intro k hpass hrun
        rw [Script.run_compare] at hrun
        cases hsame : v'.equalWithin k.store fuel w' with
        | none =>
          rw [hsame] at hrun
          cases hrun
          exact ⟨_, hpass, rfl, rfl, next, rfl⟩
        | some same =>
          rw [hsame] at hrun
          have hequal := Value.equal?_eq_some_iff.2 ⟨fuel, hsame⟩
          exact iht same k (hpass.tail (.compare j m next hequal)) hrun
      | perform i next iht =>
        intro k hpass hrun
        rw [Script.run] at hrun
        cases hi : Job.run Machine.host fuel i k with
        | unfinished =>
          rw [hi] at hrun
          cases hrun
        | comparing u v' w' i =>
          rw [hi] at hrun
          cases hrun
          obtain ⟨p, hp, hrest⟩ := ih hi
          exact ⟨p, hpass.inner hp, hrest⟩
        | ended b l =>
          rw [hi] at hrun
          cases b with
          | error e => cases hrun
          | ok b => exact iht b l (hpass.tail (.back j m next ⟨fuel, hi⟩)) hrun
    exact along j.script m (j.passes_start m) (Closing.apply_eq_comparing h)

/-! ## What actions keep -/

section Kept

variable {R : Machine → Machine → Prop} (hrefl : ∀ k, R k k)
  (htrans : ∀ {k l o : Machine}, R k l → R l o → R k o)
  (hleave : ∀ (closing : Closing) (k : Machine), R k (closing.leave k))

include hrefl htrans hleave

theorem Script.Goes.of_passes {s : Script α} {r : Except EvalError α} (h : s.Goes k r n)
    (hpass : j.Passes m ⟨j, m, s, k⟩)
    (hact : ∀ {γ β : Type} (i : Job γ) (l : Machine) (a : Action β) (next : β → Script γ) (k : Machine),
      j.Passes m ⟨i, l, .act a next, k⟩ → R k (Machine.host.act a k).2) : R k n := by
  induction h generalizing m with
  | give a k => exact hrefl k
  | fault f k => exact hrefl k
  | act a rest ih => exact htrans (hact j m a _ _ hpass) (ih (hpass.tail (.act ..)) hact)
  | compare hsame rest ih => exact ih (hpass.tail (.compare j m _ hsame)) hact
  | back ends inner rest ihInner ih =>
    have hinner := ihInner (Job.passes_start _ _) fun i l a next k hp =>
      hact i l a next k (hpass.inner hp)
    exact htrans (htrans hinner (hleave _ _)) (ih (hpass.tail (.back j m _ ends)) hact)
  | broken inner ihInner =>
    have hinner := ihInner (Job.passes_start _ _) fun i l a next k hp =>
      hact i l a next k (hpass.inner hp)
    exact htrans hinner (hleave _ _)

/-- **What every action at a passed point keeps, a run keeps from its beginning to its end.** -/
theorem Job.Ends.of_passes {r : Except EvalError α} (h : j.Ends m r n)
    (hact : ∀ {γ β : Type} (i : Job γ) (l : Machine) (a : Action β) (next : β → Script γ) (k : Machine),
      j.Passes m ⟨i, l, .act a next, k⟩ → R k (Machine.host.act a k).2) : R m n := by
  obtain ⟨r', k, hgoes, -, rfl⟩ := h.goes
  exact htrans (hgoes.of_passes hrefl htrans hleave (j.passes_start m) hact) (hleave j.closing k)

/-- **What every action at a passed point keeps, a run keeps from its beginning to every point that it
passes.** -/
theorem Job.Passes.of_passes (h : j.Passes m p)
    (hact : ∀ {γ β : Type} (i : Job γ) (l : Machine) (a : Action β) (next : β → Script γ) (k : Machine),
      j.Passes m ⟨i, l, .act a next, k⟩ → R k (Machine.host.act a k).2) : R m p.state := by
  induction h with
  | refl => exact hrefl m
  | tail hpass hnext ih =>
    cases hnext with
    | act i l a next k => exact htrans ih (hact i l a next k hpass)
    | compare => exact ih
    | enter => exact ih
    | back i l next ends =>
      have inner := ends.of_passes hrefl htrans hleave fun i' l' a next' k' hp =>
        hact i' l' a next' k' ((hpass.tail (.enter ..)).trans hp)
      exact htrans ih inner

omit j in
/-- What every action at a passed point keeps, a run of a program keeps all the while. -/
theorem Machine.During.of_passes {program : Block} (h : m.During program n)
    (hact : ∀ {γ β : Type} (i : Job γ) (l : Machine) (a : Action β) (next : β → Script γ) (k : Machine),
      (Job.stmts program.stmts).Passes m ⟨i, l, .act a next, k⟩ → R k (Machine.host.act a k).2) :
    R m n := by
  rcases h with ⟨p, hp, rfl⟩ | hended
  · exact hp.of_passes hrefl htrans hleave hact
  · obtain ⟨fuel, r, hrun⟩ := hended.rules
    exact Job.Ends.of_passes hrefl htrans hleave ⟨fuel, hrun⟩ hact

end Kept

end Course

/-! ## Contracts -/

/-- What holds of every run. -/
structure Contract where
  /-- What holds of every state. -/
  Inv : Machine → Prop
  /-- How each state is related to those after it. -/
  Later : Machine → Machine → Prop
  /-- What a job has to begin with. -/
  Pre {α : Type} (j : Job α) (m : Machine) : Prop
  /-- What a job ends with, if it comes to a result. -/
  Post {α : Type} (j : Job α) (m : Machine) (a : α) (n : Machine) : Prop
  /-- Which actions a job may carry out, by the state it began in and the one it has come to. -/
  Legal {α β : Type} (j : Job α) (start : Machine) (a : Action β) (m : Machine) : Prop
  refl (m : Machine) : Later m m
  trans {l m n : Machine} : Later l m → Later m n → Later l n
  act {α β : Type} {j : Job α} {start m : Machine} {a : Action β} : Inv m → Legal j start a m →
    Inv (Machine.host.act a m).2 ∧ Later m (Machine.host.act a m).2
  leave {m : Machine} (closing : Closing) : Inv m → Inv (closing.leave m) ∧ Later m (closing.leave m)

/-- What is left of the script of a job abides by a contract: its actions are legal, its jobs have what
they have to begin with, and its result is as it should be. -/
def Script.Abides (C : Contract) {α β : Type} (j : Job α) (start : Machine)
    (Q : β → Machine → Prop) : Script β → Machine → Prop
  | give b, m => Q b m
  | fault _, _ => True
  | act a next, m => C.Legal j start a m ∧
      (C.Inv (Machine.host.act a m).2 → C.Later m (Machine.host.act a m).2 →
        (next (Machine.host.act a m).1).Abides C j start Q (Machine.host.act a m).2)
  | compare v w next, m => ∀ same, v.equal? m.store w = some same → (next same).Abides C j start Q m
  | perform i next, m => C.Pre i m ∧
      ∀ b n, i.Ends m (.ok b) n → C.Inv n → C.Later m n → C.Post i m b n →
        (next b).Abides C j start Q n

namespace Contract

/-- What a job ends with, said of the state that its script ends in. -/
abbrev Done (C : Contract) {α : Type} (j : Job α) (m : Machine) (a : α) (k : Machine) : Prop :=
  C.Post j m a (j.closing.leave k)

/-- The script of every job abides by a contract. -/
def Kept (C : Contract) : Prop :=
  ∀ {α : Type} (j : Job α) (m : Machine), C.Inv m → C.Pre j m → j.script.Abides C j m (C.Done j m) m

variable {C : Contract} (hC : C.Kept)

include hC

theorem goes {α β : Type} {j : Job α} {start k n : Machine} {s : Script β} {r : Except EvalError β}
    {Q : β → Machine → Prop} (h : s.Goes k r n) (hk : C.Inv k) (hs : s.Abides C j start Q k) :
    (C.Inv n ∧ C.Later k n) ∧ ∀ b, r = .ok b → Q b n := by
  induction h generalizing α start with
  | give b k => exact ⟨⟨hk, C.refl k⟩, fun c hc => Except.ok.inj hc ▸ hs⟩
  | fault f k => exact ⟨⟨hk, C.refl k⟩, nofun⟩
  | act a rest ih =>
    obtain ⟨hinv, hlater⟩ := C.act hk hs.1
    obtain ⟨⟨hend, hrest⟩, hQ⟩ := ih hinv (hs.2 hinv hlater)
    exact ⟨⟨hend, C.trans hlater hrest⟩, hQ⟩
  | compare hsame rest ih => exact ih hk (hs _ hsame)
  | back ends inner rest ihInner ih =>
    obtain ⟨⟨hl, hkl⟩, hdone⟩ := ihInner hk (hC _ _ hk hs.1)
    obtain ⟨hleft, hlater⟩ := C.leave _ hl
    have hgoes := C.trans hkl hlater
    obtain ⟨⟨hend, hrest⟩, hQ⟩ := ih hleft (hs.2 _ _ ends hleft hgoes (hdone _ rfl))
    exact ⟨⟨hend, C.trans hgoes hrest⟩, hQ⟩
  | broken inner ihInner =>
    obtain ⟨⟨hl, hkl⟩, -⟩ := ihInner hk (hC _ _ hk hs.1)
    obtain ⟨hleft, hlater⟩ := C.leave _ hl
    exact ⟨⟨hleft, C.trans hkl hlater⟩, nofun⟩

variable {α : Type} {j : Job α} {m : Machine} (hm : C.Inv m) (hpre : C.Pre j m)

include hm hpre

/-- **Every run ends as a contract says that is kept.** -/
theorem ends {r : Except EvalError α} {n : Machine} (h : j.Ends m r n) :
    (C.Inv n ∧ C.Later m n) ∧ ∀ a, r = .ok a → C.Post j m a n := by
  obtain ⟨r', k, hgoes, rfl, rfl⟩ := h.goes
  obtain ⟨⟨hk, hlater⟩, hdone⟩ := goes hC hgoes hm (hC j m hm hpre)
  obtain ⟨hleft, hleave⟩ := C.leave j.closing hk
  exact ⟨⟨hleft, C.trans hlater hleave⟩, fun a ha => hdone a (Closing.ok_of_mapError ha)⟩

/-- **At every point that a run passes, what is left abides by a contract that is kept.** -/
theorem passes {p : Point} (h : j.Passes m p) : (C.Inv p.state ∧ C.Later m p.state) ∧
    p.rest.Abides C p.job p.start (C.Done p.job p.start) p.state := by
  induction h with
  | refl => exact ⟨⟨hm, C.refl m⟩, hC j m hm hpre⟩
  | tail _ hnext ih =>
    obtain ⟨⟨hinv, hlater⟩, hrest⟩ := ih
    cases hnext with
    | act i l a next k =>
      obtain ⟨hinv', hstep⟩ := C.act hinv hrest.1
      exact ⟨⟨hinv', C.trans hlater hstep⟩, hrest.2 hinv' hstep⟩
    | compare i l next hsame => exact ⟨⟨hinv, hlater⟩, hrest _ hsame⟩
    | enter i l i' next k => exact ⟨⟨hinv, hlater⟩, hC i' k hinv hrest.1⟩
    | back i l next hends =>
      obtain ⟨⟨hinv', hstep⟩, hpost⟩ := ends hC hinv hrest.1 hends
      exact ⟨⟨hinv', C.trans hlater hstep⟩, hrest.2 _ _ hends hinv' hstep (hpost _ rfl)⟩

/-- **All actions of a run are legal.** -/
theorem legal {γ β : Type} {i : Job γ} {l k : Machine} {a : Action β} {next : β → Script γ}
    (h : j.Passes m ⟨i, l, .act a next, k⟩) : C.Inv k ∧ C.Legal i l a k := by
  obtain ⟨⟨hinv, -⟩, hrest⟩ := passes hC hm hpre h
  exact ⟨hinv, hrest.1⟩

omit hpre in
/-- **What holds of every state holds while a program is run, and when it has ended.** -/
theorem during {program : Block} {n : Machine} (hprogram : C.Pre (.stmts program.stmts) m)
    (h : m.During program n) : C.Inv n ∧ C.Later m n := by
  rcases h with ⟨p, hp, rfl⟩ | hended
  · exact (passes hC hm hprogram hp).1
  · obtain ⟨fuel, r, hrun⟩ := hended.rules
    exact (ends hC hm hprogram ⟨fuel, hrun⟩).1

end Contract

/-! ## One thing after another -/

namespace Script

variable {C : Contract} {α β γ : Type} {j : Job α} {start m : Machine} {Q : γ → Machine → Prop}

theorem Abides.bind {s : Script β} {t : β → Script γ}
    (h : s.Abides C j start (fun b k => (t b).Abides C j start Q k) m) :
    (s >>= t).Abides C j start Q m := by
  show (s.bind t).Abides C j start Q m
  induction s generalizing m with
  | give b => exact h
  | fault f => trivial
  | act a next ih => exact ⟨h.1, fun hinv hlater => ih _ (h.2 hinv hlater)⟩
  | compare v w next ih => exact fun same hsame => ih same (h same hsame)
  | perform i next ih =>
    exact ⟨h.1, fun b n hends hinv hlater hpost => ih b (h.2 b n hends hinv hlater hpost)⟩

theorem Abides.mono {P : γ → Machine → Prop} {s : Script γ} (h : s.Abides C j start P m)
    (hPQ : ∀ c k, P c k → Q c k) : s.Abides C j start Q m := by
  induction s generalizing m with
  | give c => exact hPQ c m h
  | fault f => trivial
  | act a next ih => exact ⟨h.1, fun hinv hlater => ih _ (h.2 hinv hlater)⟩
  | compare v w next ih => exact fun same hsame => ih same (h same hsame)
  | perform i next ih =>
    exact ⟨h.1, fun b n hends hinv hlater hpost => ih b (h.2 b n hends hinv hlater hpost)⟩

theorem abides_pure {c : γ} (h : Q c m) : (pure c : Script γ).Abides C j start Q m := h

theorem abides_fault (f : EvalFault) : (fault f : Script γ).Abides C j start Q m := trivial

theorem abides_job {i : Job γ} (hpre : C.Pre i m)
    (h : ∀ c n, i.Ends m (.ok c) n → C.Inv n → C.Later m n → C.Post i m c n → Q c n) :
    (job i).Abides C j start Q m :=
  ⟨hpre, h⟩

theorem abides_job_bind {i : Job β} {t : β → Script γ} (hpre : C.Pre i m)
    (h : ∀ b n, i.Ends m (.ok b) n → C.Inv n → C.Later m n → C.Post i m b n →
      (t b).Abides C j start Q n) : (job i >>= t).Abides C j start Q m :=
  ⟨hpre, h⟩

theorem abides_action_bind {a : Action β} {t : β → Script γ} (hlegal : C.Legal j start a m)
    (h : C.Inv (Machine.host.act a m).2 → C.Later m (Machine.host.act a m).2 →
      (t (Machine.host.act a m).1).Abides C j start Q (Machine.host.act a m).2) :
    (action a >>= t).Abides C j start Q m :=
  ⟨hlegal, h⟩

theorem abides_look_bind {t : Store → Script γ} (hlegal : C.Legal j start .look m)
    (h : (t m.store).Abides C j start Q m) : (action .look >>= t).Abides C j start Q m :=
  ⟨hlegal, fun _ _ => h⟩

theorem abides_same_bind {v w : Value} {t : Bool → Script γ}
    (h : ∀ same, v.equal? m.store w = some same → (t same).Abides C j start Q m) :
    (same v w >>= t).Abides C j start Q m := h

theorem abides_ofExcept {r : Except EvalFault γ} (h : ∀ c, r = .ok c → Q c m) :
    (ofExcept r).Abides C j start Q m := by
  cases r with
  | error f => trivial
  | ok c => exact h c rfl

theorem abides_ofExcept_bind {r : Except EvalFault β} {t : β → Script γ}
    (h : ∀ b, r = .ok b → (t b).Abides C j start Q m) : (ofExcept r >>= t).Abides C j start Q m := by
  cases r with
  | error f => trivial
  | ok b => exact h b rfl

end Script

end Nikl
