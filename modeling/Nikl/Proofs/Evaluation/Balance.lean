import Nikl.Proofs.Evaluation.Effect
import Nikl.Session

/-
The open scopes and the calls under way. Blocks, rounds of loops and calls open a scope, and a call
adds a frame; each of them takes away again what it added, on every way out. So work of any kind leaves
the open scopes and the calls as it found them, and between programs only the global scope is open.

The evaluator respects "the same scopes are open and the same calls under way as before" by one clause
for each operation (`steady_sameStacks`). What is left is the body of a function, which is carried out
by an evaluator with one level less of room: the induction is on the room.
-/

set_option autoImplicit false

namespace Nikl

/-! ## Scopes that open and close -/

namespace Environment

theorem stack_openInside (env : Environment) (r : ScopeRef) :
    (env.openInside r).stack = env.next :: env.stack := rfl

/-- Closing takes away the one scope that stands on top of others. -/
theorem stack_close {env outer : Environment} {r : ScopeRef} (h : env.stack = r :: outer.stack) :
    env.close.stack = outer.stack := by
  have hsplit : env.inner ++ [global] = (r :: outer.inner) ++ [global] := h
  have hinner : env.inner = r :: outer.inner := List.append_cancel_right hsplit
  simp only [stack, close, hinner, List.tail_cons]

@[simp] theorem stack_modifyScope (env : Environment) (r : ScopeRef) (f : Scope → Scope) :
    (env.modifyScope r f).stack = env.stack := rfl

@[simp] theorem stack_define (env : Environment) (x : String) (v : Value) :
    (env.define x v).stack = env.stack := rfl

@[simp] theorem stack_assign (env : Environment) (x : String) (v : Value) :
    (env.assign x v).stack = env.stack := by
  unfold assign assignFrom
  cases env.binder? x (env.chain env.current) <;> rfl

@[simp] theorem stack_delete (env : Environment) (x : String) :
    (env.delete x).2.stack = env.stack := by
  unfold delete removeFrom
  split <;> rfl

/-- The current scope is the one on top of the stack. -/
theorem current_eq_of_stack {env env' : Environment} (h : env'.stack = env.stack) :
    env'.current = env.current := by
  have hinner : env'.inner = env.inner := List.append_cancel_right h
  rw [current, hinner, current]

/-- Scopes above the global one make the stack deeper than one. -/
theorem depth_eq_length_stack (env : Environment) : env.depth = env.stack.length := by
  simp [depth, stack]

end Environment

theorem Machine.stack_bindAll (params : List Param) (args : List Value) (env : Environment) :
    (Machine.bindAll params args env).stack = env.stack := by
  unfold Machine.bindAll
  induction params.zip args generalizing env with
  | nil => rfl
  | cons binding rest ih => rw [List.foldl_cons, ih, Environment.stack_define]

/-! ## Balance -/

/-- The same scopes are open, in the same order, and the same calls are under way. -/
structure SameStacks (m n : Machine) : Prop where
  scopes : n.env.stack = m.env.stack
  calls : n.calls = m.calls

namespace Eval

/-- Work that leaves the open scopes and the calls under way as it found them. -/
abbrev Balanced {α : Type} (w : Eval α) : Prop := Keeps SameStacks w

theorem steady_sameStacks : Steady SameStacks where
  refl m := ⟨rfl, rfl⟩
  trans first second := ⟨second.scopes.trans first.scopes, second.calls.trans first.calls⟩
  inBlock w hw m := by
    have inside := hw { m with env := m.env.openBlock }
    rw [after_inBlock]
    refine ⟨?_, inside.calls⟩
    exact Environment.stack_close (inside.scopes.trans (Environment.stack_openInside ..))
  define m x v := ⟨Environment.stack_define .., rfl⟩
  assign m x v := ⟨Environment.stack_assign .., rfl⟩
  delete m x := ⟨Environment.stack_delete .., rfl⟩
  defineFunction m d := ⟨Environment.stack_define .., rfl⟩
  write m text := ⟨rfl, rfl⟩
  push m c := ⟨rfl, rfl⟩
  assignIndex m t i v := ⟨rfl, rfl⟩

/-- A call whose body is balanced is balanced: its scope is closed and its frame is gone. -/
theorem balanced_duringCall (f : Closure) (args : List Value) (span : Span) {body : Eval Completion}
    (hbody : Balanced body) : Balanced (duringCall f args span body) := by
  intro m
  rcases after_duringCall f args span body m with hsame | ⟨calls, hpush, hleave⟩
  · rw [hsame]
    exact ⟨rfl, rfl⟩
  -- the body leaves the scope and the frame of its call on top, and leaving takes away just these
  have inside := hbody (entered f args calls m)
  rw [hleave]
  constructor
  · have hscopes : (body.after (entered f args calls m)).env.stack = m.env.next :: m.env.stack :=
      inside.scopes.trans (Machine.stack_bindAll ..)
    exact Environment.stack_close hscopes
  · have hcalls : (body.after (entered f args calls m)).calls = calls := inside.calls
    show (body.after (entered f args calls m)).calls.pop = m.calls
    rw [hcalls]
    exact CallStack.pop_of_push hpush

/-- A body is carried out by the evaluator that calls with one level less of room. The stack of the
machine on which that happens makes no difference. -/
theorem bodyWithin_succ {ν : Type} [DecidableEq ν] [Naming ν] (room : Nat) (d : FunctionDef ν) :
    bodyWithin (room + 1) d = stmts (callWithin room) d.body.stmts := by
  funext m
  simp only [bodyWithin, callWithin, onFreshStack, Task.spawn]
  split <;> rfl

theorem callWithin_eq {ν : Type} [DecidableEq ν] [Naming ν] (room : Nat) (f : Closure ν)
    (args : List (Value ν)) (span : Span) :
    callWithin room f args span = duringCall f args span (bodyWithin room f.definition) := rfl

theorem balanced_callWithin (room : Nat) (f : Closure) (args : List Value) (span : Span) :
    Balanced (callWithin room f args span) := by
  induction room generalizing f args span with
  -- without room no body begins, and what stands in its place does nothing
  | zero =>
    rw [callWithin_eq]
    refine balanced_duringCall f args span fun m => ?_
    exact ⟨rfl, rfl⟩
  | succ room ih =>
    rw [callWithin_eq, bodyWithin_succ]
    exact balanced_duringCall f args span (steady_sameStacks.stmts ih f.definition.body.stmts)

end Eval

/-! ## Between programs -/

namespace Machine

/-- The state that a program leaves behind, however it ends. -/
def afterRun (m : Machine) (program : Block) : Machine :=
  match m.run program with
  | .ok _ n => n
  | .error _ n => n

section Run

variable {m n : Machine} {program : Block} {stop : Stop} {c : Completion}

theorem run_of_ok (h : Eval.stmts (Eval.callWithin m.calls.room) program.stmts m = .ok c n) :
    m.run program = .ok () n := by
  rw [run, h]

theorem run_of_error
    (h : Eval.stmts (Eval.callWithin m.calls.room) program.stmts m = .error stop n) :
    m.run program = .error stop n := by
  rw [run, h]

theorem run_eq_ok (h : m.run program = .ok () n) :
    ∃ c, Eval.stmts (Eval.callWithin m.calls.room) program.stmts m = .ok c n := by
  unfold run at h
  split at h
  · next c _ hr =>
    cases h
    exact ⟨c, hr⟩
  · cases h

theorem run_eq_error (h : m.run program = .error stop n) :
    Eval.stmts (Eval.callWithin m.calls.room) program.stmts m = .error stop n := by
  unfold run at h
  split at h
  · cases h
  · next hr =>
    cases h
    exact hr

end Run

theorem afterRun_eq (m : Machine) (program : Block) :
    m.afterRun program = (Eval.stmts (Eval.callWithin m.calls.room) program.stmts).after m := by
  unfold afterRun run EvalOf.after
  cases Eval.stmts (Eval.callWithin m.calls.room) program.stmts m <;> rfl

theorem sameStacks_afterRun (m : Machine) (program : Block) : SameStacks m (m.afterRun program) := by
  rw [afterRun_eq]
  exact Eval.steady_sameStacks.stmts (Eval.balanced_callWithin _) program.stmts m

/-- The states of a machine between programs: before the first one, and after each. What was printed
may be taken away. -/
inductive Reachable (limit : Nat) : Machine → Prop where
  | start : Reachable limit (ofLimit limit)
  | run {m : Machine} (program : Block) : Reachable limit m → Reachable limit (m.afterRun program)
  | cleared {m : Machine} : Reachable limit m → Reachable limit { m with output := "" }

namespace Reachable

variable {limit : Nat} {m : Machine}

theorem runSource (source : String) (h : Reachable limit m) :
    Reachable limit (m.runSource source).2 := by
  unfold Machine.runSource
  cases hp : programOf source with
  | error f => exact h
  | ok program =>
    have next := h.run program
    unfold afterRun at next
    cases hr : m.run program <;> simpa only [hr] using next

/-- A session of chunks goes from states between programs to states between programs. -/
theorem runChunks (chunks : List String) (h : Reachable limit m) :
    Reachable limit (m.runChunks chunks).2 := by
  induction chunks generalizing m with
  | nil => exact h
  | cons source rest ih => exact ih (h.cleared.runSource source)

theorem sameStacks_start (h : Reachable limit m) : SameStacks (ofLimit limit) m := by
  induction h with
  -- every program goes back to the scopes and calls it found, so to those of the first state
  | start => exact ⟨rfl, rfl⟩
  | run program _ ih => exact Eval.steady_sameStacks.trans ih (sameStacks_afterRun _ program)
  | cleared _ ih => exact ⟨ih.scopes, ih.calls⟩

end Reachable
end Machine

/-! ## The main statement -/

/-- **Open scopes and calls balance on every path.** Statements, blocks, loops, expressions and calls
end with the scopes that were open when they began, and with the calls that were under way, whether
they give a result, return or stop. So between programs, and after any session of chunks, only the
global scope is open and no call is under way. -/
theorem stacks_restored :
    (∀ room : Nat,
      (∀ ss, Eval.Balanced (Eval.stmts (Eval.callWithin room) ss)) ∧
      (∀ b, Eval.Balanced (Eval.block (Eval.callWithin room) b)) ∧
      (∀ first second body items, Eval.Balanced (Eval.forEach (fun item => Eval.inBlock do
        Eval.bindItem first second item
        Eval.stmts (Eval.callWithin room) body) items)) ∧
      (∀ e, Eval.Balanced (Eval.expr (Eval.callWithin room) e)) ∧
      ∀ callee args span,
        Eval.Balanced (Eval.callValue (Eval.callWithin room) callee args span)) ∧
    (∀ limit m, Machine.Reachable limit m →
      m.env.depth = 1 ∧ m.env.stack = [Environment.global] ∧ m.calls.frames = []) ∧
    ∀ limit chunks,
      ((Machine.ofLimit limit).runChunks chunks).2.env.stack = [Environment.global] ∧
      ((Machine.ofLimit limit).runChunks chunks).2.calls.frames = [] := by
  have between : ∀ limit m, Machine.Reachable limit m →
      m.env.depth = 1 ∧ m.env.stack = [Environment.global] ∧ m.calls.frames = [] := by
    intro limit m h
    have same := h.sameStacks_start
    have hstack : m.env.stack = [Environment.global] := same.scopes
    refine ⟨?_, hstack, ?_⟩
    · rw [Environment.depth_eq_length_stack, hstack]
      rfl
    · rw [same.calls]
      rfl
  refine ⟨fun room => ?_, between, fun limit chunks => ?_⟩
  · have steady := Eval.steady_sameStacks
    have hcall := Eval.balanced_callWithin room
    refine ⟨steady.stmts hcall, steady.block hcall, ?_, steady.expr hcall, steady.callValue hcall⟩
    exact fun first second body items => steady.loop hcall first second body items
  · exact (between limit _ (Machine.Reachable.start.runChunks chunks)).2

/-- A function that calls itself, and a call of it. -/
def selfCalling : Block :=
  let call : Stmt := .expr (.call (.ident "f" Span.nowhere) [] Span.nowhere) Span.nowhere
  .mk [.function (.mk "f" [] none (.mk [call] Span.nowhere) Span.nowhere) Span.nowhere, call]
    Span.nowhere

/-- The calls of a program that fails for being nested too deep are all gone behind it. -/
theorem stacks_restored_selfCalling :
    (∃ e n, (Machine.ofLimit 3).run selfCalling = .error (.error e) n ∧ e.fault = .tooDeep 3) ∧
    Machine.Reachable 3 ((Machine.ofLimit 3).afterRun selfCalling) ∧
    ((Machine.ofLimit 3).afterRun selfCalling).env.stack = [Environment.global] ∧
    ((Machine.ofLimit 3).afterRun selfCalling).calls.frames = [] := by
  have reached : Machine.Reachable 3 ((Machine.ofLimit 3).afterRun selfCalling) :=
    .run selfCalling .start
  exact ⟨⟨_, _, rfl, rfl⟩, reached, (stacks_restored.2.1 3 _ reached).2⟩

end Nikl
