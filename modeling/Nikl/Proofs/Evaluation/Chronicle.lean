import Nikl.Proofs.Evaluation.Termination

/-
A run with a record of it. Whether the keys of a map differ is found out when they are written, and a
state does not tell how things were then. So a chronicle goes along with the state: it keeps the moments
that the run has passed through, and each search for a key that found nothing, with the collections as
they were. What a chronicle keeps has no bearing on the run: carried out on chronicles the rules do what
they do on states (`Job.machine_chronicle`), so every end of a program is the end of a chronicle
(`Chronicle.Reached.run`), and a program that stays at a comparison has a chronicle that stays there
(`Chronicle.Reached.stay`).
-/

set_option autoImplicit false

namespace Nikl

/-! ## Chronicles -/

/-- A search for a key that found it nowhere among some entries, in the collections as they were. -/
structure Miss where
  key : Value
  entries : Entries
  store : Store

/-- What there is at a moment of a run: the collections, and the searches up to then that found
nothing. -/
structure Moment where
  store : Store
  missed : List Miss

/-- The state of a running program with what led to it, the latest first. -/
structure Chronicle where
  machine : Machine
  missed : List Miss := []
  past : List Moment := []

namespace Chronicle

/-- The state before a first program, with a limit on nested calls. -/
def ofLimit (limit : Nat) : Chronicle := { machine := .ofLimit limit }

/-- How many collections there are. -/
abbrev size (c : Chronicle) : Nat := c.machine.store.size

def now (c : Chronicle) : Moment := ⟨c.machine.store, c.missed⟩

/-- Every moment up to now. -/
def moments (c : Chronicle) : List Moment := c.now :: c.past

/-- A step to the next state, behind which this moment is past. -/
def step (c : Chronicle) (m : Machine) : Chronicle := { c with machine := m, past := c.moments }

/-- Chronicles take actions as their states do. -/
def host : Host Chronicle where
  act a c := ((Machine.host.act a c.machine).1, c.step (Machine.host.act a c.machine).2)
  attach c := Machine.host.attach c.machine

end Chronicle

/-- What is added to a chronicle when a job is done: that a search found nothing. -/
def Job.note {α : Type} : Job α → α → Chronicle → Chronicle
  | .find key entries, none, c => { c with missed := ⟨key, entries, c.machine.store⟩ :: c.missed }
  | _, _, c => c

/-- How far a job comes, with what is added when it is done. -/
def Progress.noted {α : Type} (j : Job α) : Progress Chronicle α → Progress Chronicle α
  | ended (.ok a) c => ended (.ok a) (j.note a c)
  | p => p

/-- Carries out a job with some fuel, and keeps a chronicle of it. -/
def Job.chronicle : (fuel : Nat) → {α : Type} → Job α → Chronicle → Progress Chronicle α
  | 0, _, _, _ => .unfinished
  | fuel + 1, _, j, c =>
    (j.closing.apply Chronicle.host (j.script.run Chronicle.host (chronicle fuel) fuel c)).noted j

/-! ## The run of which it is kept -/

/-- How far carrying out comes, seen through a view of states. -/
def Progress.mapState {σ τ α : Type} (f : σ → τ) : Progress σ α → Progress τ α
  | ended r s => ended r (f s)
  | unfinished => unfinished
  | comparing s v w c => comparing s v w (f c)

section Projection

variable {α β : Type}

theorem Job.machine_note (j : Job α) (a : α) (c : Chronicle) : (j.note a c).machine = c.machine := by
  cases j with
  | find key entries => cases a <;> rfl
  | _ => rfl

theorem Progress.mapState_noted (j : Job α) (p : Progress Chronicle α) :
    (p.noted j).mapState Chronicle.machine = p.mapState Chronicle.machine := by
  rcases p with ⟨e | a, c⟩ | _ | ⟨s, v, w, c⟩
  · rfl
  · exact congrArg (ended (.ok a)) (j.machine_note a c)
  · rfl
  · rfl

theorem Closing.mapState_apply (closing : Closing) (p : Progress Chronicle α) :
    (closing.apply Chronicle.host p).mapState Chronicle.machine =
      closing.apply Machine.host (p.mapState Chronicle.machine) := by
  cases p <;> cases closing <;> rfl

theorem Progress.mapState_andThen {p : Progress Chronicle α} {f : α → Chronicle → Progress Chronicle β}
    {g : α → Machine → Progress Machine β}
    (hfg : ∀ a c, (f a c).mapState Chronicle.machine = g a c.machine) :
    (p.andThen f).mapState Chronicle.machine = (p.mapState Chronicle.machine).andThen g := by
  rcases p with ⟨e | a, c⟩ | _ | ⟨s, v, w, c⟩
  · rfl
  · exact hfg a c
  · rfl
  · rfl

theorem Script.machine_run {perform : {β : Type} → Job β → Chronicle → Progress Chronicle β}
    {perform' : {β : Type} → Job β → Machine → Progress Machine β}
    (hperform : ∀ {β : Type} (j : Job β) (c : Chronicle),
      (perform j c).mapState Chronicle.machine = perform' j c.machine)
    (depth : Nat) (s : Script α) (c : Chronicle) :
    (s.run Chronicle.host perform depth c).mapState Chronicle.machine =
      s.run Machine.host perform' depth c.machine := by
  induction s generalizing c with
  | give a => rfl
  | fault f => rfl
  | act action next ih => exact ih _ _
  | compare v w next ih =>
    have hlook : (Chronicle.host.act .look c).1 = (Machine.host.act .look c.machine).1 := rfl
    simp only [run]
    rw [hlook]
    cases v.equalWithin (Machine.host.act .look c.machine).1 depth w with
    | none => rfl
    | some same => exact ih same _
  | perform j next ih =>
    simp only [run]
    rw [← hperform j c]
    exact Progress.mapState_andThen ih

/-- **Keeping a chronicle does not change the run.** -/
theorem Job.machine_chronicle (fuel : Nat) (j : Job α) (c : Chronicle) :
    (j.chronicle fuel c).mapState Chronicle.machine = j.run Machine.host fuel c.machine := by
  induction fuel generalizing α c with
  | zero => rfl
  | succ fuel ih =>
    rw [chronicle, Progress.mapState_noted, Closing.mapState_apply,
      Script.machine_run (fun j c => ih j c), Job.run]

/-- A job of which the rules find the end has a chronicle that ends there. -/
theorem Job.chronicle_of_run {fuel : Nat} {j : Job α} {c : Chronicle} {r : Except EvalError α}
    {n : Machine} (h : j.run Machine.host fuel c.machine = .ended r n) :
    ∃ d, j.chronicle fuel c = .ended r d ∧ d.machine = n := by
  rw [← machine_chronicle] at h
  cases hd : j.chronicle fuel c with
  | ended r' d =>
    rw [hd] at h
    cases h
    exact ⟨d, rfl, rfl⟩
  | _ =>
    rw [hd] at h
    cases h

/-- A job that stays at a comparison has a chronicle that stays there. -/
theorem Job.chronicle_of_comparing {fuel : Nat} {j : Job α} {c : Chronicle} {s : Store} {v w : Value}
    {n : Machine} (h : j.run Machine.host fuel c.machine = .comparing s v w n) :
    ∃ d, j.chronicle fuel c = .comparing s v w d ∧ d.machine = n := by
  rw [← machine_chronicle] at h
  cases hd : j.chronicle fuel c with
  | comparing s' v' w' d =>
    rw [hd] at h
    cases h
    exact ⟨d, rfl, rfl⟩
  | _ =>
    rw [hd] at h
    cases h

end Projection

/-! ## Programs in turn -/

/-- How a run of a program comes to an end: with its last statement, or with an error. -/
def Machine.Ends (m : Machine) (program : Block) (n : Machine) : Prop :=
  m.run program = .ok () n ∨ ∃ e, m.run program = .error (.error e) n

/-- The rules find every end of a program. -/
theorem Machine.Ends.rules {m n : Machine} {program : Block} (h : m.Ends program n) :
    ∃ fuel r, (Job.stmts program.stmts).run host fuel m = .ended r n := by
  obtain ⟨enough, l, ⟨a, hm, hends⟩ | ⟨e, hm, hends⟩ | ⟨s, v, w, k, hm, -⟩⟩ := m.rules_of_run program
  · have hrun := hends enough (Nat.le_refl enough)
    rcases h with h | ⟨e, h⟩ <;> rw [hm] at h <;> cases h
    exact ⟨enough, _, hrun⟩
  · have hrun := hends enough (Nat.le_refl enough)
    rcases h with h | ⟨e, h⟩ <;> rw [hm] at h <;> cases h
    exact ⟨enough, _, hrun⟩
  · -- a comparison without end is no end of a program
    rcases h with h | ⟨e, h⟩ <;> rw [hm] at h <;> cases h

/-- How a run of a program comes to no end: it stays at a comparison that has no answer, however much fuel
there is. -/
def Machine.Stays (m : Machine) (program : Block) (n : Machine) : Prop :=
  ∃ enough s v w, (∀ depth, v.equalWithin s depth w = none) ∧
    ∀ fuel, enough ≤ fuel → (Job.stmts program.stmts).run host fuel m = .comparing s v w n

/-- Every program ends, or stays somewhere. -/
theorem Machine.ends_or_stays (m : Machine) (program : Block) :
    ∃ n, m.Ends program n ∨ m.Stays program n := by
  obtain ⟨enough, n, ⟨c, hm, -⟩ | ⟨e, hm, -⟩ | ⟨s, v, w, k, -, hnever, hstays⟩⟩ := m.rules_of_run program
  · exact ⟨n, .inl (.inl hm)⟩
  · exact ⟨n, .inl (.inr ⟨e, hm⟩)⟩
  · exact ⟨k, .inr ⟨enough, s, v, w, hnever, hstays⟩⟩

namespace Chronicle

/-- The chronicles of programs that were run in turn on one machine. What was printed may be taken
away. A run may stay at a comparison, or have been left there. -/
inductive Reached (limit : Nat) : Chronicle → Prop where
  | start : Reached limit (ofLimit limit)
  | ran {c d : Chronicle} {fuel : Nat} {program : Block} {r : Except EvalError Completion} :
      Reached limit c → (Job.stmts program.stmts).chronicle fuel c = .ended r d → Reached limit d
  | stayed {c d : Chronicle} {fuel : Nat} {program : Block} {s : Store} {v w : Value} :
      Reached limit c → (Job.stmts program.stmts).chronicle fuel c = .comparing s v w d → Reached limit d
  | cleared {c : Chronicle} :
      Reached limit c → Reached limit { c with machine := { c.machine with output := "" } }

/-- **Each end of a program is the end of a chronicle.** -/
theorem Reached.run {limit : Nat} {c : Chronicle} {program : Block} {n : Machine}
    (h : c.Reached limit) (hn : c.machine.Ends program n) :
    ∃ d : Chronicle, d.Reached limit ∧ d.machine = n := by
  obtain ⟨fuel, r, hrun⟩ := hn.rules
  obtain ⟨d, hd, hmachine⟩ := Job.chronicle_of_run hrun
  exact ⟨d, .ran h hd, hmachine⟩

/-- **A program that comes to no end has a chronicle, too**, up to where it stays. -/
theorem Reached.stay {limit : Nat} {c : Chronicle} {program : Block} {n : Machine}
    (h : c.Reached limit) (hn : c.machine.Stays program n) :
    ∃ d : Chronicle, d.Reached limit ∧ d.machine = n := by
  obtain ⟨enough, s, v, w, -, hstays⟩ := hn
  obtain ⟨d, hd, hmachine⟩ := Job.chronicle_of_comparing (hstays enough (Nat.le_refl enough))
  exact ⟨d, .stayed h hd, hmachine⟩

end Chronicle
end Nikl
