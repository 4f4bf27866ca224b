import Nikl.Proofs.Evaluation.Blame

/-
Where an error lies, and how the program came there. An error that ends a program has the place of an
expression or a statement. Without a backtrace that is one outside of all functions. With a backtrace it is
one in the body of the function that was called last; each call stands in the body of the function called
before it, and the first one stands outside of all functions.
-/

set_option autoImplicit false

namespace Nikl

/-- A place is that of a call in some code, outside of the definitions in it. -/
def Block.HasCall (b : Block) (place : Option Span) : Prop :=
  ∃ callee args span, b.HasOwnNode (.expr (.call callee args span)) ∧ place = some span

/-! ## Reading off the calls -/

namespace Leads

variable {K : FunctionDef → Prop} {top code : Block} {frames : List Frame} {frame : Frame}

/-- The latest call leads to the body of its function, from the code that the others lead to. -/
theorem split (h : Leads K top (frame :: frames) code) :
    (∃ d, K d ∧ d.name = frame.name ∧ code = d.body) ∧
      ∃ outer, Leads K top frames outer ∧ outer.HasCall frame.span := by
  cases h with
  | call h hcall hd => exact ⟨⟨_, hd, rfl, rfl⟩, _, h, _, _, _, hcall, rfl⟩

/-- Each call but the first stands in the body of the function that was called before it. -/
theorem inner (h : Leads K top frames code) (i : Nat) (hi : i + 1 < frames.length) :
    ∃ d, K d ∧ d.name = frames[i + 1].name ∧ d.body.HasCall frames[i].span := by
  induction h generalizing i with
  | top => cases hi
  | @call frames outer callee args span d h hcall hd ih =>
    cases i with
    | zero =>
      -- the latest call stands in the code that the others lead to, which the one before it entered
      obtain ⟨first, rest, rfl⟩ := List.exists_cons_of_length_pos (Nat.lt_of_succ_lt_succ hi)
      obtain ⟨⟨d', hd', hname, rfl⟩, -⟩ := h.split
      exact ⟨d', hd', hname, _, _, _, hcall, rfl⟩
    | succ i => exact ih i (Nat.lt_of_succ_lt_succ hi)

/-- The first call stands in the code of the program. -/
theorem outermost (h : Leads K top frames code) (hne : frames ≠ []) :
    top.HasCall (frames.getLast hne).span := by
  induction h with
  | top => exact absurd rfl hne
  | @call frames outer callee args span d h hcall hd ih =>
    cases h with
    | top => exact ⟨_, _, _, hcall, rfl⟩
    | call h hcall' hd' => exact ih (List.cons_ne_nil _ _)

end Leads

/-! ## Programs -/

section Programs

variable {K : FunctionDef → Prop} {hK : DefinitionsClosed K} {m n : Machine} {program : Block}
  {e : EvalError}

/-- What an error blames that ends a program, in a state where no call is under way and where the
definitions of all functions are known. -/
theorem Machine.placed_of_run (hm : (knowing K hK).Keeps m) (hframes : m.calls.frames = [])
    (hprogram : ∀ d, program.Defines d → K d) (h : m.run program = .error (.error e) n) :
    e.Placed K program m.calls program := by
  have hleads : Leads K program m.calls.frames program := hframes ▸ .top
  exact fails_stmts (callsBlame hleads) hprogram program.stmts
    (fun s hs => Block.hasOwnNode_of_mem hs) m ⟨hm, rfl⟩ e n (run_eq_error h)

/-- A new interpreter has no functions but those that are built in. -/
theorem Machine.knowing_ofLimit (limit : Nat) : (knowing K hK).Keeps (ofLimit limit) :=
  (knowing K hK).keeps_ofLimit (fun _ _ => nofun) limit

end Programs

/-! ## The main statement -/

/-- **Places and backtraces fit the program.** A program that is run in a new interpreter, with any limit
on nested calls, may end in an error. The error has a place. If it has no backtrace, that is the place of
an expression or a statement outside of all functions. If it has one, there is at least one call in it, and
there are no more than the limit allows. The error lies in the body of a function with the name of the
latest call; each call stands in the body of a function with the name of the one before it, and the first
call stands outside of all functions. In a body there count only those nodes that are in no function
defined there. If calls were nested too deep, the backtrace has just as many calls as the limit allows,
unless that is none. -/
theorem backtraces_fit_program {limit : Nat} {program : Block} {e : EvalError} {n : Machine}
    (h : (Machine.ofLimit limit).run program = .error (.error e) n) :
    (∃ span, e.span = some span) ∧
    (e.backtrace = none → e.LiesIn program) ∧
    (∀ frames, e.backtrace = some frames → ∃ hne : frames ≠ [], frames.length ≤ limit ∧
      (∃ d, program.Defines d ∧ d.name = (frames.head hne).name ∧ e.LiesIn d.body) ∧
      (∀ (i : Nat) (hi : i + 1 < frames.length),
        ∃ d, program.Defines d ∧ d.name = frames[i + 1].name ∧ d.body.HasCall frames[i].span) ∧
      program.HasCall (frames.getLast hne).span) ∧
    (e.fault.faultClass = .stackOverflow → 0 < limit →
      ∃ frames, e.backtrace = some frames ∧ frames.length = limit) := by
  have hlimit : (Machine.ofLimit limit).calls.limit = limit := Nat.zero_add limit
  have hstart : (knowing program.Defines program.definitionsClosed).Keeps (.ofLimit limit) :=
    Machine.knowing_ofLimit limit
  have hplaced := Machine.placed_of_run hstart rfl (fun _ hd => hd) h
  rcases hplaced with ⟨hbare, hplace⟩ | ⟨frames, code, hthrough⟩
  · refine ⟨hplace.span, fun _ => hplace, fun frames hframes => ?_, fun hover hpos => ?_⟩
    · rw [hbare.backtrace] at hframes
      cases hframes
    · -- at the top there is as much room as the limit says
      have hroom : limit = 0 := hbare.overflow hover
      omega
  · rw [hlimit] at hthrough
    refine ⟨hthrough.liesIn.span, fun hnone => ?_, fun frames' hframes => ?_, fun hover _ => ?_⟩
    · rw [hthrough.backtrace] at hnone
      cases hnone
    · rw [hthrough.backtrace] at hframes
      cases hframes
      have hleads := hthrough.leads
      refine ⟨hthrough.nonempty, hthrough.length_le, ?_, hleads.inner, hleads.outermost _⟩
      obtain ⟨frame, rest, rfl⟩ := List.exists_cons_of_ne_nil hthrough.nonempty
      obtain ⟨⟨d, hd, hname, rfl⟩, -⟩ := hleads.split
      exact ⟨d, hd, hname, hthrough.liesIn⟩
    · exact ⟨frames, hthrough.backtrace, hthrough.overflow hover⟩

/-- `fn half(x) { return 1 / x }`, `fn twice() { return half(0) }` and `twice()`, each on a line. -/
def divides : Block :=
  let half : Block := .mk [.giveBack
    (some (.binary .div (.literal (.int 1) ⟨20, 21⟩) (.ident "x" ⟨24, 25⟩) ⟨20, 25⟩)) ⟨13, 25⟩] ⟨11, 27⟩
  let twice : Block := .mk [.giveBack
    (some (.call (.ident "half" ⟨48, 52⟩) [.literal (.int 0) ⟨53, 54⟩] ⟨48, 55⟩)) ⟨41, 55⟩] ⟨39, 57⟩
  .mk [
    .function (.mk "half" [⟨"x", none, ⟨8, 9⟩⟩] none half ⟨0, 27⟩) ⟨0, 27⟩,
    .function (.mk "twice" [] none twice ⟨28, 57⟩) ⟨28, 57⟩,
    .expr (.call (.ident "twice" ⟨58, 63⟩) [] ⟨58, 65⟩) ⟨58, 65⟩] ⟨0, 65⟩

/-- The division fails in the first function, which the second one calls. -/
def dividesError : EvalError where
  fault := .divisionByZero
  span := some ⟨20, 25⟩
  backtrace := some [⟨"half", some ⟨48, 55⟩⟩, ⟨"twice", some ⟨58, 65⟩⟩]

/-- The division is in the one function, the call of it is in the other, and that is called outside. -/
theorem backtraces_fit_program_divides :
    (∃ n, (Machine.ofLimit 2).run divides = .error (.error dividesError) n) ∧
      (∃ d, divides.Defines d ∧ d.name = "half" ∧ dividesError.LiesIn d.body) ∧
      (∃ d, divides.Defines d ∧ d.name = "twice" ∧ d.body.HasCall (some ⟨48, 55⟩)) ∧
      divides.HasCall (some ⟨58, 65⟩) := by
  have hrun : ∃ n, (Machine.ofLimit 2).run divides = .error (.error dividesError) n := ⟨_, rfl⟩
  obtain ⟨n, hn⟩ := hrun
  obtain ⟨-, -, hframes, -⟩ := backtraces_fit_program hn
  obtain ⟨_, -, hhead, hinner, hlast⟩ := hframes _ rfl
  exact ⟨⟨n, hn⟩, hhead, hinner 0 (by decide), hlast⟩

end Nikl
