import Nikl.Evaluation.Calls
import Nikl.Evaluation.Indexing
import Nikl.Scope

/-
The state of a running program, and the ways in which parts of a program are carried out on it. A part
either gives a result or stops; both ways it leaves a state behind, since what was done before a stop
stays done.
-/

set_option autoImplicit false

namespace Nikl

/-- All that a running program reads and changes (the fields of `Interpreter`). -/
structure Machine (ν : Type := String) where
  env : Environment ν
  store : Store ν := {}
  calls : CallStack ν
  /-- All that was printed. -/
  output : String := ""
  /-- How many functions were made; the number of the next one. -/
  closures : Nat := 0

namespace Machine

/-- The state before a first program, with a limit on nested calls (`InterpreterBuilder::build`). -/
def ofLimit (limit : Nat) : Machine := { env := .withBuiltins, calls := .ofLimit limit }

variable {ν : Type} [DecidableEq ν]

/-- Makes a function of a definition and binds it in the current scope, which it keeps
(`StmtKind::FunctionDef` in `Interpreter::exec_stmt_inner`). -/
def defineFunction (d : FunctionDef ν) (m : Machine ν) : Machine ν :=
  let f : Closure ν := ⟨m.closures, d, m.env.current⟩
  { m with env := m.env.define d.name (.function f), closures := m.closures + 1 }

/-- Binds parameters to arguments, in order. -/
def bindAll (params : List (Param ν)) (args : List (Value ν)) (env : Environment ν) : Environment ν :=
  (params.zip args).foldl (fun env (p, v) => env.define p.name v) env

/-- Ends a call: its scope closes and its frame goes. -/
def leaveCall (m : Machine ν) : Machine ν := { m with env := m.env.close, calls := m.calls.pop }

end Machine

/-- How a statement ends: the next one follows, or a value is returned from what is being run
(`ControlSignal`). -/
inductive Completion (ν : Type := String) where
  | fellThrough
  | returned (value : Value ν)

/-- What a call gives back: the returned value, or `None`. -/
def Completion.value {ν : Type} : Completion ν → Value ν
  | fellThrough => .none
  | returned v => v

/-- Work on the state of a program, which may stop (`EvalResult`). -/
abbrev EvalOf (ν : Type) := EStateM Stop (Machine ν)

/-- Such work where names are texts. -/
abbrev Eval := EvalOf String

namespace Eval

variable {ν α : Type}

/-- Stops with a fault. -/
def fail (fault : EvalFault) : EvalOf ν α := throw (.ofFault fault)

/-- A result, or a stop with a fault. -/
def ofExcept : Except EvalFault α → EvalOf ν α
  | .ok a => pure a
  | .error fault => fail fault

/-- Work on the collections alone. -/
def onStore (work : StoreMOf ν α) : EvalOf ν α := fun ⟨env, store, calls, output, closures⟩ =>
  match work store with
  | .ok a store => .ok a ⟨env, store, calls, output, closures⟩
  | .error stop store => .error stop ⟨env, store, calls, output, closures⟩

/-- Work whose errors lie in `span`, unless they already lie somewhere. -/
def located (span : Span) (work : EvalOf ν α) : EvalOf ν α := fun m =>
  match work m with
  | .error stop m => .error (stop.mapError (·.orSpan span)) m
  | result => result

/-- Work inside a new block, which is closed however the work ends (`Interpreter::scoped`). -/
def inBlock (work : EvalOf ν α) : EvalOf ν α := fun m =>
  match work { m with env := m.env.openBlock } with
  | .ok a m => .ok a { m with env := m.env.close }
  | .error stop m => .error stop { m with env := m.env.close }

/-- Carries out a body as a call of a function (`Interpreter::call_function`). The number of arguments
is checked before the limit on nested calls. The body runs in one new scope, inside the scope of the
function, where the parameters are bound. An error that leaves the body takes the calls under way with
it. -/
def duringCall [DecidableEq ν] [Naming ν] (f : Closure ν) (args : List (Value ν)) (span : Span)
    (body : EvalOf ν (Completion ν)) : EvalOf ν (Value ν) :=
  fun m =>
    if args.length ≠ f.arity then fail (.wrongArity f.name f.arity args.length) m
    else
      match m.calls.push ⟨f.definition.name, some span⟩ with
      | .error fault => fail fault m
      | .ok calls =>
        -- the new scope lies inside the one the function was made in, not the one it is called from
        let env := Machine.bindAll f.definition.params args (m.env.openInside f.scope)
        match body { m with env := env, calls := calls } with
        | .ok completion m => .ok completion.value m.leaveCall
        -- the calls are told before this one ends, so that it is among them
        | .error stop m => .error (stop.mapError m.calls.attach) m.leaveCall

/-- Rounds of a loop, until there are no more items or a round returns (the loop of
`Interpreter::exec_for`). -/
def forEach (round : LoopItem ν → EvalOf ν (Completion ν)) : List (LoopItem ν) → EvalOf ν (Completion ν)
  | [] => return .fellThrough
  | item :: rest => do
    match ← round item with
    | .fellThrough => forEach round rest
    | .returned v => return .returned v

end Eval
end Nikl
