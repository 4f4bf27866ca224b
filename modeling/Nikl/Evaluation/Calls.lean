import Nikl.Evaluation.Error

/-
The calls that are under way, and how many more may begin before one of them ends. The two add up to
the limit on nested calls, which nothing changes.
-/

set_option autoImplicit false

namespace Nikl

/-- The calls under way, and the room for more (`CallStack`). -/
structure CallStack (ν : Type := String) where
  /-- The calls under way, the latest first. -/
  frames : List (Frame ν) := []
  /-- How many calls may still begin inside of them. -/
  room : Nat
  deriving DecidableEq, Repr

namespace CallStack

variable {ν : Type}

/-- No calls, and a limit on how many may nest (`CallStack::new`). -/
def ofLimit (limit : Nat) : CallStack ν := ⟨[], limit⟩

/-- How many calls are under way (`CallStack::depth`). -/
def depth (c : CallStack ν) : Nat := c.frames.length

/-- How many calls may nest. -/
def limit (c : CallStack ν) : Nat := c.depth + c.room

/-- Begins a call, unless the limit is reached (`CallStack::push`). -/
def push (f : Frame ν) (c : CallStack ν) : Except EvalFault (CallStack ν) :=
  match c.room with
  | 0 => .error (.tooDeep c.limit)
  | room + 1 => .ok ⟨f :: c.frames, room⟩

/-- Ends the latest call (`CallStack::pop`). -/
def pop (c : CallStack ν) : CallStack ν :=
  match c.frames with
  | [] => c
  | _ :: frames => ⟨frames, c.room + 1⟩

/-- An error with the calls under way, unless it has its own from further inside or there are none
(`CallStack::attach_backtrace`, `CallStack::capture`). -/
def attach [Naming ν] (c : CallStack ν) (e : EvalError) : EvalError :=
  if c.frames.isEmpty || e.backtrace.isSome then e else { e with backtrace := some (c.frames.map Frame.told) }

/-- Ending a call undoes its beginning. -/
theorem pop_of_push {f : Frame ν} {c d : CallStack ν} (h : c.push f = .ok d) : d.pop = c := by
  rcases c with ⟨frames, _ | room⟩ <;> simp_all [push]
  subst h; rfl

/-- A call that begins leaves the limit as it is. -/
theorem limit_of_push {f : Frame ν} {c d : CallStack ν} (h : c.push f = .ok d) : d.limit = c.limit := by
  rcases c with ⟨frames, _ | room⟩ <;> simp_all [push]
  subst h; simp [limit, depth]; omega

end CallStack
end Nikl
