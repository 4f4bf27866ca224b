import Nikl.Proofs.Evaluation.Backtraces
import Nikl.Proofs.Session.Reading
import Nikl.Proofs.Syntax.ErrorPlaces
import Nikl.Proofs.Syntax.Soundness
import Nikl.Repl

/-
Where the errors of an interactive session lie. An error is reported with the chunk that was run last. If
the chunk cannot be read, that is where the error lies; and if no function was called, it lies at a node
of the chunk. But functions outlive the chunks that define them. An error in the body of one lies in the
chunk where the function was defined, which may be an earlier one; what is certain to be in the chunk that
was run is the first of the calls that led there.

So what is known of functions grows with the session: they are made from definitions in the chunks that
were run so far.
-/

set_option autoImplicit false

namespace Nikl

open Source

/-- The span of something lies in a source. -/
abbrev Span.LiesIn (s : Span) (source : String) : Prop := s.Within (byteLength source.toList)

/-! ## Places in one source -/

section Reading

variable {source : String}

/-- A source that cannot be read has no tokens, or tokens that are no program; the error lies in it. -/
theorem liesIn_of_unreadable {f : Failure} (h : programOf source = .error f) :
    (∃ e, f = .lex e ∧ e.span.LiesIn source) ∨ ∃ e, f = .parse e ∧ e.span.LiesIn source := by
  rw [programOf, tokensOf] at h
  cases hlex : lex source with
  | error e =>
    rw [hlex] at h
    cases h
    exact .inl ⟨e, rfl, within_of_lexFrom_error hlex (Nat.zero_add _)⟩
  | ok tokens =>
    replace h : (parse tokens).mapError Failure.parse = .error f := by rwa [hlex] at h
    cases hparse : parse tokens with
    | ok b =>
      rw [hparse] at h
      cases h
    | error e =>
      rw [hparse] at h
      cases h
      exact .inr ⟨e, rfl, within_of_parse (within_of_lexFrom hlex (Nat.zero_add _)) hparse⟩

/-- The nodes of a program lie in its source. -/
theorem Block.HasNode.liesIn {program : Block} {n : Node} (hn : program.HasNode n)
    (h : programOf source = .ok program) : n.span.LiesIn source := by
  obtain ⟨tokens, hlex, hparse⟩ := programOf_eq_ok_iff.1 h
  have hwithin : ∀ t ∈ tokens, t.span.LiesIn source := within_of_lexFrom hlex (Nat.zero_add _)
  have htiles : Tiles 0 false source.toList tokens := lexFrom_eq_ok_iff.1 hlex
  obtain ⟨ts, hts, hmade⟩ := (isProgram_of_parse hparse).foundIn hn
  have horder : InOrder ts := htiles.inOrder.within hts
  obtain ⟨⟨first, hfirst, hstart⟩, last, hlast, hstop, -⟩ := hmade.bounds horder
  have hmem := List.mem_of_mem_getLast? hlast
  have hend := hwithin last (hts.subset hmem)
  obtain ⟨rest, rfl⟩ : ∃ rest, ts = first :: rest := List.head?_eq_some_iff.1 hfirst
  -- the first token starts where the last does, or before
  have hle : first.span.start ≤ last.span.start := by
    rcases List.mem_cons.1 hmem with rfl | hrest
    · exact Nat.le_refl _
    · exact ((List.pairwise_cons.1 horder).1 last hrest).1
  exact ⟨by rw [hstart, hstop]; exact Nat.le_trans hle hend.start_le, hstop ▸ hend.stop_le⟩

end Reading

/-! ## Sessions -/

/-- A function is defined in one of some sources. -/
def DefinedIn (chunks : List String) (d : FunctionDef) : Prop :=
  ∃ source ∈ chunks, ∃ program, programOf source = .ok program ∧ program.Defines d

theorem definedIn_closed (chunks : List String) : DefinitionsClosed (DefinedIn chunks) := by
  rintro d d' ⟨source, hsource, program, hprogram, hd⟩ hd'
  exact ⟨source, hsource, program, hprogram, hd.inner hd'⟩

theorem DefinedIn.cons {chunks : List String} {d : FunctionDef} (h : DefinedIn chunks d)
    (source : String) : DefinedIn (source :: chunks) d := by
  obtain ⟨earlier, hearlier, hd⟩ := h
  exact ⟨earlier, List.mem_cons_of_mem _ hearlier, hd⟩

/-- More functions are known. -/
theorem knowing_mono {K K' : FunctionDef → Prop} {hK : DefinitionsClosed K} {hK' : DefinitionsClosed K'}
    (h : ∀ d, K d → K' d) {m : Machine} (hm : (knowing K hK).Keeps m) : (knowing K' hK').Keeps m := by
  have hvalue : ∀ v : Value, v.MadeFrom K → v.MadeFrom K' :=
    fun v hv => hv.mono fun w hw f hf => h _ (hw f hf)
  exact ⟨hm.1.mono hvalue, hm.2.mono hvalue⟩

namespace Repl

/-- The states of a session, and the chunks that were run in it, the latest first. A chunk that never
comes to an end is the last one, and after it there is no state. -/
inductive After (limit : Nat) : List String → Repl → Prop where
  | start : After limit [] ⟨.ofLimit limit, ""⟩
  | quiet {chunks : List String} {r r' : Repl} {line : String} {step : Step} (h : After limit chunks r)
      (hstep : r.feedLine line = (step, r')) (hquiet : ∀ report, step ≠ .ran report) : After limit chunks r'
  | ran {chunks : List String} {r r' : Repl} {line : String} {report : Report} (h : After limit chunks r)
      (hstep : r.feedLine line = (.ran report, r')) (hends : report.result ≠ .error .endless) :
      After limit (report.source :: chunks) r'
  | discarded {chunks : List String} {r : Repl} (h : After limit chunks r) : After limit chunks r.discard

section Lines

variable {r r' : Repl} {line : String} {report : Report} {step : Step}

/-- A line runs a chunk, or leaves the machine as it was. -/
theorem feedLine_cases (h : r.feedLine line = (step, r')) :
    (∃ source, (step, r') = r.runChunk source) ∨ (∀ report, step ≠ .ran report) ∧ r'.machine = r.machine := by
  unfold feedLine at h
  dsimp only at h
  split at h
  · split at h
    · obtain ⟨rfl, rfl⟩ := Prod.mk.inj h
      exact .inr ⟨by rintro _ ⟨⟩, rfl⟩
    · exact .inl ⟨_, h.symm⟩
  split at h
  · obtain ⟨rfl, rfl⟩ := Prod.mk.inj h
    exact .inr ⟨by rintro _ ⟨⟩, rfl⟩
  split at h
  · obtain ⟨rfl, rfl⟩ := Prod.mk.inj h
    exact .inr ⟨by rintro _ ⟨⟩, rfl⟩
  · exact .inl ⟨_, h.symm⟩

theorem feedLine_ran (h : r.feedLine line = (.ran report, r')) :
    r.machine.runChunk report.source = (report, r'.machine) := by
  rcases feedLine_cases h with ⟨source, hran⟩ | ⟨hquiet, -⟩
  · cases hran
    rfl
  · exact absurd rfl (hquiet report)

end Lines

end Repl

/-- How a chunk ends that can be read: as its program does, on the state without what was printed. -/
theorem Machine.runChunk_of_program {m n : Machine} {source : String} {program : Block} {report : Report}
    (hprogram : programOf source = .ok program) (h : m.runChunk source = (report, n)) :
    (report.result = .ok () ∧ { m with output := "" }.run program = .ok () n) ∨
      report.result = .error .endless ∨
      ∃ e, report.result = .error (.eval e) ∧
        { m with output := "" }.run program = .error (.error e) n := by
  unfold runChunk runSource at h
  rw [hprogram] at h
  dsimp only at h
  cases hrun : ({ m with output := "" } : Machine).run program with
  | ok u k =>
    rw [hrun] at h
    cases h
    exact .inl ⟨rfl, rfl⟩
  | error stop k =>
    rw [hrun] at h
    cases h
    cases stop with
    | error e => exact .inr (.inr ⟨e, rfl, rfl⟩)
    | endless => exact .inr (.inl rfl)

/-- A chunk that cannot be read does nothing. -/
theorem Machine.runChunk_of_failure {m n : Machine} {source : String} {f : Failure} {report : Report}
    (hf : programOf source = .error f) (h : m.runChunk source = (report, n)) :
    report.result = .error f ∧ n = { m with output := "" } := by
  unfold runChunk runSource at h
  rw [hf] at h
  cases h
  exact ⟨rfl, rfl⟩

/-- What a session knows of its functions between lines, and that no call is under way. -/
structure Repl.Known (limit : Nat) (chunks : List String) (m : Machine) : Prop where
  keeps : (knowing (DefinedIn chunks) (definedIn_closed chunks)).Keeps m
  calls : m.calls = .ofLimit limit

namespace Repl

variable {limit : Nat} {chunks : List String} {r r' : Repl} {line source : String} {program : Block}
  {report : Report} {m n : Machine}

theorem Known.cons (h : Known limit chunks m) (source : String) : Known limit (source :: chunks) m :=
  ⟨knowing_mono (fun _ hd => hd.cons source) h.keeps, h.calls⟩

theorem Known.cleared (h : Known limit chunks m) : Known limit chunks { m with output := "" } :=
  ⟨h.keeps, h.calls⟩

theorem definedIn_head (hprogram : programOf source = .ok program) {d : FunctionDef}
    (hd : program.Defines d) : DefinedIn (source :: chunks) d :=
  ⟨source, List.mem_cons_self, program, hprogram, hd⟩

/-- A program of the latest chunk leaves what is known as it was. -/
theorem Known.run (h : Known limit (source :: chunks) m) (hprogram : programOf source = .ok program)
    (hends : m.Ends program n) : Known limit (source :: chunks) n := by
  have hdefines : ∀ s ∈ program.stmts, s.DefinesOnly (DefinedIn (source :: chunks)) := fun s hs =>
    (Block.hasOwnNode_of_mem hs).definesOnly fun _ hd => definedIn_head hprogram hd
  have hafter : m.afterRun program = n := by
    unfold Machine.afterRun
    rcases hends with hrun | ⟨e, hrun⟩ <;> rw [hrun]
  refine ⟨(Regime.during h.keeps hdefines (.inr hends)).1, ?_⟩
  rw [← hafter, (m.sameStacks_afterRun program).calls, h.calls]

theorem After.known (h : After limit chunks r) : Known limit chunks r.machine := by
  induction h with
  | start => exact ⟨Machine.knowing_ofLimit limit, rfl⟩
  | discarded _ ih => exact ih
  | quiet _ hstep hquiet ih =>
    rcases feedLine_cases hstep with ⟨source, hran⟩ | ⟨-, hsame⟩
    · exact absurd (Prod.mk.inj hran).1 (hquiet _)
    · rwa [hsame]
  | @ran _ _ _ _ report _ hstep hends ih =>
    have hchunk := feedLine_ran hstep
    -- from here on the definitions of the chunk count among those that are known
    replace ih := (ih.cons report.source).cleared
    cases hprogram : programOf report.source with
    | error f =>
      rw [(Machine.runChunk_of_failure hprogram hchunk).2]
      exact ih
    | ok program =>
      rcases Machine.runChunk_of_program hprogram hchunk with ⟨-, hrun⟩ | hresult | ⟨e, -, hrun⟩
      · exact ih.run hprogram (.inl hrun)
      · exact absurd hresult hends
      · exact ih.run hprogram (.inr ⟨e, hrun⟩)

end Repl

/-! ## The main statement -/

/-- An error has the place of a node of some code, and the place lies in the source of the code. -/
theorem EvalError.LiesIn.within {e : EvalError} {code program : Block} {source : String}
    (h : e.LiesIn code) (hcode : ∀ n, code.HasNode n → program.HasNode n)
    (hprogram : programOf source = .ok program) : ∃ span, e.span = some span ∧ span.LiesIn source := by
  obtain ⟨n, hn, -, hspan⟩ := h
  exact ⟨n.span, hspan, (hcode n hn.hasNode).liesIn hprogram⟩

/-- So does the place of a call. -/
theorem Block.HasCall.liesIn {program : Block} {place : Option Span} {source : String}
    (h : program.HasCall place) (hprogram : programOf source = .ok program) :
    ∃ span, place = some span ∧ span.LiesIn source := by
  obtain ⟨callee, args, span, hn, hplace⟩ := h
  exact ⟨span, hplace, hn.hasNode.liesIn hprogram⟩

/-- **Errors lie in chunks that were run, and in the latest one unless a function was called.** Lines are
fed to a session in any state that it can come to, and one of them runs a chunk. If the chunk cannot be
read, the error lies in it. If its program fails without a backtrace, the error has the place of a node of
the program, outside of all functions, and lies in the chunk. If there is a backtrace, the first of its
calls stands in the program, outside of all functions, and lies in the chunk; and the error has the place
of a node in the body of a function with the name of the latest call, and lies in the chunk where that
function was defined, which is the chunk that was run or one before it. -/
theorem errors_lie_in_chunks {limit : Nat} {chunks : List String} {r r' : Repl} {line : String}
    {report : Report} (hr : Repl.After limit chunks r) (hstep : r.feedLine line = (.ran report, r')) :
    (∀ e, report.result = .error (.lex e) → e.span.LiesIn report.source) ∧
    (∀ e, report.result = .error (.parse e) → e.span.LiesIn report.source) ∧
    ∀ e, report.result = .error (.eval e) → ∃ program, programOf report.source = .ok program ∧
      (e.backtrace = none →
        e.LiesIn program ∧ ∃ span, e.span = some span ∧ span.LiesIn report.source) ∧
      ∀ frames, e.backtrace = some frames → ∃ hne : frames ≠ [],
        (program.HasCall (frames.getLast hne).span ∧
          ∃ span, (frames.getLast hne).span = some span ∧ span.LiesIn report.source) ∧
        ∃ source ∈ report.source :: chunks, ∃ written, programOf source = .ok written ∧
          (∃ d, written.Defines d ∧ d.name = (frames.head hne).name ∧ e.LiesIn d.body) ∧
          ∃ span, e.span = some span ∧ span.LiesIn source := by
  have hchunk := Repl.feedLine_ran hstep
  cases hprogram : programOf report.source with
  | error f =>
    have hresult := (Machine.runChunk_of_failure hprogram hchunk).1
    rw [hresult]
    rcases liesIn_of_unreadable hprogram with ⟨found, rfl, hplace⟩ | ⟨found, rfl, hplace⟩
    · refine ⟨?_, ?_, ?_⟩ <;> rintro _ ⟨⟩
      exact hplace
    · refine ⟨?_, ?_, ?_⟩ <;> rintro _ ⟨⟩
      exact hplace
  | ok program =>
    rcases Machine.runChunk_of_program hprogram hchunk with ⟨hresult, -⟩ | hresult | ⟨e, hresult, hrun⟩
    · rw [hresult]
      refine ⟨?_, ?_, ?_⟩ <;> rintro _ ⟨⟩
    · rw [hresult]
      refine ⟨?_, ?_, ?_⟩ <;> rintro _ ⟨⟩
    rw [hresult]
    refine ⟨?_, ?_, ?_⟩ <;> rintro _ ⟨⟩
    refine ⟨program, rfl, ?_⟩
    -- functions of the chunk itself may have been called, besides those that there were before it
    have hknown := (hr.known.cons report.source).cleared
    have hplaced := Machine.placed_of_run hknown.keeps (by rw [hknown.calls]; rfl)
      (fun _ hd => Repl.definedIn_head hprogram hd) hrun
    rcases hplaced with ⟨hbare, hplace⟩ | ⟨frames, code, hthrough⟩
    · refine ⟨fun _ => ⟨hplace, hplace.within (fun _ hn => hn) hprogram⟩, fun frames hframes => ?_⟩
      rw [hbare.backtrace] at hframes
      cases hframes
    refine ⟨fun hnone => ?_, fun frames' hframes => ?_⟩
    · rw [hthrough.backtrace] at hnone
      cases hnone
    · rw [hthrough.backtrace] at hframes
      cases hframes
      have hfirst := hthrough.leads.outermost hthrough.nonempty
      obtain ⟨frame, rest, rfl⟩ := List.exists_cons_of_ne_nil hthrough.nonempty
      obtain ⟨⟨d, ⟨source, hsource, written, hwritten, hd⟩, hname, rfl⟩, -⟩ := hthrough.leads.split
      exact ⟨hthrough.nonempty, ⟨hfirst, hfirst.liesIn hprogram⟩, source, hsource, written, hwritten,
        ⟨d, hd, hname, hthrough.liesIn⟩, hthrough.liesIn.within (fun _ hn => hd.hasNode hn) hwritten⟩

/-- A line that defines a function, whose body fails. -/
def failingFunction : String := "fn f() \x7b return 1 / 0 \x7d"

/-- The place is that of the division, in the first line; the call is the whole of the second one. -/
def failingFunctionError : EvalError where
  fault := .divisionByZero
  span := some ⟨16, 21⟩
  backtrace := some [⟨"f", some ⟨0, 3⟩⟩]

/-- The function is defined in one chunk and called in the next. -/
theorem failingFunction_ran :
    ∃ r r' report, Repl.After 10 ["fn f() \x7b return 1 / 0 \x7d\n"] r ∧
      r.feedLine "f()" = (.ran report, r') ∧ report.source = "f()\n" ∧
      report.result = .error (.eval failingFunctionError) := by
  have hlines : ∃ defined r, (Repl.mk (.ofLimit 10) "").feedLine failingFunction = (.ran defined, r) ∧
      defined.source = "fn f() \x7b return 1 / 0 \x7d\n" ∧ defined.result = .ok () ∧
      ∃ report r', r.feedLine "f()" = (.ran report, r') ∧ report.source = "f()\n" ∧
        report.result = .error (.eval failingFunctionError) :=
    ⟨_, _, rfl, by decide +kernel, by decide +kernel, _, _, rfl, by decide +kernel, by decide +kernel⟩
  obtain ⟨defined, r, hdefined, hsource, hok, report, r', hstep, hsource', hfails⟩ := hlines
  have hr : Repl.After 10 [defined.source] r := .ran .start hdefined (by rw [hok]; nofun)
  exact ⟨r, r', report, hsource ▸ hr, hstep, hsource', hfails⟩

/-- The call is in the chunk that was run, the division in the one before it. -/
theorem errors_lie_in_chunks_failingFunction :
    ∃ r r' report, Repl.After 10 ["fn f() \x7b return 1 / 0 \x7d\n"] r ∧
      r.feedLine "f()" = (.ran report, r') ∧
      (∃ program, programOf report.source = .ok program ∧ program.HasCall (some ⟨0, 3⟩)) ∧
      ∃ source ∈ ["f()\n", "fn f() \x7b return 1 / 0 \x7d\n"], ∃ written, programOf source = .ok written ∧
        (∃ d, written.Defines d ∧ d.name = "f" ∧ failingFunctionError.LiesIn d.body) ∧
        ∃ span, failingFunctionError.span = some span ∧ span.LiesIn source := by
  obtain ⟨r, r', report, hr, hstep, hsource, hfails⟩ := failingFunction_ran
  obtain ⟨-, -, herror⟩ := errors_lie_in_chunks hr hstep
  obtain ⟨program, hprogram, -, hcalls⟩ := herror failingFunctionError hfails
  obtain ⟨_, ⟨hcall, -⟩, hplace⟩ := hcalls _ rfl
  exact ⟨r, r', report, hr, hstep, ⟨program, hprogram, hcall⟩, hsource ▸ hplace⟩

/-- So an error need not lie in the chunk that it is reported with. -/
theorem errors_lie_elsewhere_failingFunction :
    ∃ r r' report e, Repl.After 10 ["fn f() \x7b return 1 / 0 \x7d\n"] r ∧
      r.feedLine "f()" = (.ran report, r') ∧ report.source = "f()\n" ∧
      report.result = .error (.eval e) ∧
      ∃ span, e.span = some span ∧ ¬ span.LiesIn report.source := by
  obtain ⟨r, r', report, hr, hstep, hsource, hfails⟩ := failingFunction_ran
  refine ⟨r, r', report, failingFunctionError, hr, hstep, hsource, hfails, ⟨16, 21⟩, rfl, ?_⟩
  rw [hsource]
  exact fun h => absurd h.stop_le (by decide)

end Nikl
