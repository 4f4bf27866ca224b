import Nikl.Proofs.Evaluation.Balance

/-
The limit on nested calls only cuts runs off. Two runs of one program, of which the second has room
for more calls, do the same step by step: their states differ in the room alone, and nothing but the
beginning of a call looks at the room. So they end alike, unless the first one wants a call that it has
no room for; what it printed until then the second one prints as well, and perhaps more.

The two runs are related by `CutOff`. For two pieces of work in turn it is not enough that they agree:
the first must give back the room that it took (it is balanced), and the second run must never take
back what it printed.
-/

set_option autoImplicit false

namespace Nikl

/-! ## Output only grows -/

/-- All that was printed before is still there, perhaps with more behind it. -/
def PrintsOn (m n : Machine) : Prop := ∃ more, n.output = m.output ++ more

theorem PrintsOn.refl (m : Machine) : PrintsOn m m := ⟨"", by rw [String.append_empty]⟩

theorem PrintsOn.trans {l m n : Machine} : PrintsOn l m → PrintsOn m n → PrintsOn l n := by
  rintro ⟨s, hs⟩ ⟨t, ht⟩
  exact ⟨s ++ t, by rw [ht, hs, String.append_assoc]⟩

namespace Eval

theorem steady_printsOn : Steady PrintsOn where
  refl := PrintsOn.refl
  trans := PrintsOn.trans
  inBlock w hw m := by
    obtain ⟨more, hmore⟩ := hw { m with env := m.env.openBlock }
    rw [after_inBlock]
    exact ⟨more, hmore⟩
  define m x v := PrintsOn.refl m
  assign m x v := PrintsOn.refl m
  delete m x := PrintsOn.refl m
  defineFunction m d := PrintsOn.refl m
  write m text := ⟨text, rfl⟩
  push m c := PrintsOn.refl m
  assignIndex m t i v := PrintsOn.refl m

theorem printsOn_duringCall (f : Closure) (args : List Value) (span : Span) {body : Eval Completion}
    (hbody : Keeps PrintsOn body) : Keeps PrintsOn (duringCall f args span body) := by
  intro m
  rcases after_duringCall f args span body m with hsame | ⟨calls, -, hleave⟩
  · rw [hsame]
    exact PrintsOn.refl m
  · obtain ⟨more, hmore⟩ := hbody (entered f args calls m)
    rw [hleave]
    exact ⟨more, hmore⟩

theorem printsOn_callWithin (room : Nat) (f : Closure) (args : List Value) (span : Span) :
    Keeps PrintsOn (callWithin room f args span) := by
  induction room generalizing f args span with
  | zero =>
    rw [callWithin_eq]
    exact printsOn_duringCall f args span fun m => PrintsOn.refl m
  | succ room ih =>
    rw [callWithin_eq, bodyWithin_succ]
    exact printsOn_duringCall f args span (steady_printsOn.stmts ih f.definition.body.stmts)

end Eval

/-! ## States that differ in their room -/

/-- The same state with room for so many more calls. -/
def Machine.deepened (k : Nat) (m : Machine) : Machine :=
  { m with calls := { m.calls with room := m.calls.room + k } }

/-- The stop of a run that wanted a call too many. -/
def Stop.IsOverflow (stop : Stop) : Prop :=
  ∃ e, stop = .error e ∧ e.fault.faultClass = .stackOverflow

theorem Stop.IsOverflow.mapError {stop : Stop} {f : EvalError → EvalError}
    (hf : ∀ e, (f e).fault = e.fault) : stop.IsOverflow → (stop.mapError f).IsOverflow := by
  rintro ⟨e, rfl, hclass⟩
  exact ⟨f e, rfl, by rw [hf, hclass]⟩

theorem CallStack.attach_fault (c : CallStack) (e : EvalError) : (c.attach e).fault = e.fault := by
  unfold CallStack.attach
  split <;> rfl

namespace Eval

section Agree

variable {α β : Type} {room k : Nat}

/-- How an end with more room compares to an end with less: it is the same, in a state that differs in
the room alone, or else the end with less room is one for want of room, and at least as much was printed
with more. -/
def Agree (k : Nat) (r r' : EStateM.Result Stop Machine α) : Prop :=
  match r with
  | .ok a n => r' = .ok a (n.deepened k)
  | .error stop n =>
    r' = .error stop (n.deepened k) ∨ stop.IsOverflow ∧ PrintsOn n (ending r')

/-- Work in states with room for `room` calls, and what it becomes with room for `k` more. -/
structure CutOff (room k : Nat) (α : Type) (w w' : Eval α) : Prop where
  balanced : Balanced w
  printsOn : Keeps PrintsOn w'
  agree (m : Machine) : m.calls.room = room → Agree k (w m) (w' (m.deepened k))

/-- A state differs from another in the room alone, wherever only the room was changed. -/
theorem room_of_balanced {w : Eval α} {m n : Machine} (hw : Balanced w) (hn : w.after m = n)
    (hroom : m.calls.room = room) : n.calls.room = room := by
  have same := (hw m).calls
  rw [hn] at same
  rw [same, hroom]

theorem CutOff.bind {w w' : Eval α} {f f' : α → Eval β} (hw : CutOff room k α w w')
    (hf : ∀ a, CutOff room k β (f a) (f' a)) : CutOff room k β (w >>= f) (w' >>= f') := by
  refine ⟨steady_sameStacks.bind hw.balanced fun a => (hf a).balanced,
    steady_printsOn.bind hw.printsOn fun a => (hf a).printsOn, fun m hroom => ?_⟩
  have first := hw.agree m hroom
  cases hr : w m with
  | ok a n =>
    rw [hr] at first
    rw [bind_of_ok hr, bind_of_ok first]
    exact (hf a).agree n (room_of_balanced hw.balanced (after_of_ok hr) hroom)
  | error stop n =>
    rw [hr] at first
    rw [bind_of_error hr]
    rcases first with same | ⟨hover, hprints⟩
    · exact .inl (bind_of_error same)
    refine .inr ⟨hover, ?_⟩
    -- the run with more room may go on, and prints behind what it has printed
    cases hr' : w' (m.deepened k) with
    | ok a n' =>
      rw [hr'] at hprints
      rw [bind_of_ok hr']
      exact hprints.trans ((hf a).printsOn n')
    | error stop' n' =>
      rw [hr'] at hprints
      rw [bind_of_error hr']
      exact hprints

theorem CutOff.located {w w' : Eval α} (span : Span) (hw : CutOff room k α w w') :
    CutOff room k α (located span w) (located span w') := by
  refine ⟨Steady.located span hw.balanced, Steady.located span hw.printsOn, fun m hroom => ?_⟩
  have inside := hw.agree m hroom
  cases hr : w m with
  | ok a n =>
    rw [hr] at inside
    rw [located_of_ok hr]
    exact located_of_ok inside
  | error stop n =>
    rw [hr] at inside
    rw [located_of_error hr]
    rcases inside with same | ⟨hover, hprints⟩
    · exact .inl (located_of_error same)
    refine .inr ⟨hover.mapError fun e => rfl, ?_⟩
    have hsame := after_located span w' (m.deepened k)
    rw [EvalOf.after, EvalOf.after] at hsame
    rw [hsame]
    exact hprints

theorem CutOff.inBlock {w w' : Eval α} (hw : CutOff room k α w w') :
    CutOff room k α (inBlock w) (inBlock w') := by
  refine ⟨steady_sameStacks.inBlock w hw.balanced, steady_printsOn.inBlock w' hw.printsOn,
    fun m hroom => ?_⟩
  -- the block opens in states that differ in the room alone, as the states before it do
  have inside : Agree k (w { m with env := m.env.openBlock })
      (w' { m.deepened k with env := (m.deepened k).env.openBlock }) :=
    hw.agree { m with env := m.env.openBlock } hroom
  cases hr : w { m with env := m.env.openBlock } with
  | ok a n =>
    rw [hr] at inside
    have hclosed := inBlock_of_ok (w := w') (m := m.deepened k) inside
    rw [inBlock_of_ok hr]
    exact hclosed
  | error stop n =>
    rw [hr] at inside
    rw [inBlock_of_error hr]
    rcases inside with same | ⟨hover, hprints⟩
    · have hclosed := inBlock_of_error (w := w') (m := m.deepened k) same
      exact .inl hclosed
    refine .inr ⟨hover, ?_⟩
    have hsame := after_inBlock w' (m.deepened k)
    rw [EvalOf.after] at hsame
    rw [hsame]
    exact hprints

/-! ## Work that does not look at the room -/

/-- Work that does the same whatever the room. -/
def Roomless (w : Eval α) : Prop := ∀ m k, w (m.deepened k) =
  match w m with
  | .ok a n => .ok a (n.deepened k)
  | .error stop n => .error stop (n.deepened k)

theorem Roomless.cutOff {w : Eval α} (hw : Roomless w) (balanced : Balanced w)
    (printsOn : Keeps PrintsOn w) : CutOff room k α w w := by
  refine ⟨balanced, printsOn, fun m _ => ?_⟩
  have hm := hw m k
  cases hr : w m with
  | ok a n =>
    rw [hr] at hm
    exact hm
  | error stop n =>
    rw [hr] at hm
    exact .inl hm

theorem roomless_onStore (w : StoreM α) : Roomless (onStore w) := by
  rintro ⟨env, s, calls, output, closures⟩ k
  simp only [onStore, Machine.deepened]
  cases w s <;> rfl

theorem roomless_nameValue (x : String) : Roomless (nameValue x) := by
  intro m k
  have hget : ∀ n, (get : Eval Machine) n = .ok n n := fun _ => rfl
  simp only [nameValue, bind, EStateM.bind, hget, Machine.deepened]
  rcases m.env.lookup x with (_ | _) | v <;> rfl

theorem roomless_deleteName (x : String) : Roomless (deleteName x) := by
  intro m k
  have hdel : ∀ n : Machine,
      (modifyGet fun m => ((m.env.delete x).1, { m with env := (m.env.delete x).2 }) : Eval Bool) n =
        .ok (n.env.delete x).1 { n with env := (n.env.delete x).2 } := fun _ => rfl
  simp only [deleteName, bind, EStateM.bind, hdel, Machine.deepened]
  cases (m.env.delete x).1 <;> rfl

end Agree

/-! ## The evaluator respects a cut-off -/

theorem congruent_cutOff (room k : Nat) : Congruent (CutOff room k) := by
  have same := steady_sameStacks.congruent
  have prints := steady_printsOn.congruent
  exact {
    pure := fun a => Roomless.cutOff (fun _ _ => rfl) (same.pure a) (prints.pure a)
    fail := fun fault => Roomless.cutOff (fun _ _ => rfl) (same.fail fault) (prints.fail fault)
    bind := CutOff.bind
    located := CutOff.located
    inBlock := CutOff.inBlock
    reading := fun look f g hf => ⟨fun m => (hf (look m.store)).balanced m,
      fun m => (hf (look m.store)).printsOn m, fun m hroom => (hf (look m.store)).agree m hroom⟩
    nameValue := fun x => (roomless_nameValue x).cutOff (same.nameValue x) (prints.nameValue x)
    deleteName := fun x => (roomless_deleteName x).cutOff (same.deleteName x) (prints.deleteName x)
    define := fun x v => Roomless.cutOff (fun _ _ => rfl) (same.define x v) (prints.define x v)
    assign := fun x v => Roomless.cutOff (fun _ _ => rfl) (same.assign x v) (prints.assign x v)
    defineFunction := fun d =>
      Roomless.cutOff (fun _ _ => rfl) (same.defineFunction d) (prints.defineFunction d)
    write := fun text => Roomless.cutOff (fun _ _ => rfl) (same.write text) (prints.write text)
    settled := fun a => (roomless_onStore _).cutOff (same.settled a) (prints.settled a)
    newArray := fun items => (roomless_onStore _).cutOff (same.newArray items) (prints.newArray items)
    newMap := fun es => (roomless_onStore _).cutOff (same.newMap es) (prints.newMap es)
    binary := fun op l r => (roomless_onStore _).cutOff (same.binary op l r) (prints.binary op l r)
    unary := fun op v => (roomless_onStore _).cutOff (same.unary op v) (prints.unary op v)
    index := fun t i => (roomless_onStore _).cutOff (same.index t i) (prints.index t i)
    assignIndex := fun t i v =>
      (roomless_onStore _).cutOff (same.assignIndex t i v) (prints.assignIndex t i v) }

/-! ## Calls -/

/-- A call that finds no room stops at once; what the other run does from there on only prints. -/
theorem cutOff_duringCall_zero (k : Nat) (f : Closure) (args : List Value) (span : Span)
    {body body' : Eval Completion} (balanced : Balanced body) (printsOn : Keeps PrintsOn body') :
    CutOff 0 k Value (duringCall f args span body) (duringCall f args span body') := by
  have hprints := printsOn_duringCall f args span printsOn
  refine ⟨balanced_duringCall f args span balanced, hprints, fun m hroom => ?_⟩
  -- the number of arguments is checked first, in both runs alike
  by_cases harity : args.length = f.arity
  · have hpush : m.calls.push ⟨f.name, some span⟩ = .error (.tooDeep m.calls.limit) := by
      simp only [CallStack.push, hroom]
    rw [duringCall_of_full harity hpush]
    exact .inr ⟨⟨_, rfl, rfl⟩, hprints (m.deepened k)⟩
  · rw [duringCall_of_arity harity, duringCall_of_arity harity]
    exact .inl rfl

/-- A call that finds room begins its body with one level less of it, in both runs. -/
theorem cutOff_duringCall_succ {room k : Nat} (f : Closure) (args : List Value) (span : Span)
    {body body' : Eval Completion} (hbody : CutOff room k Completion body body') :
    CutOff (room + 1) k Value (duringCall f args span body) (duringCall f args span body') := by
  refine ⟨balanced_duringCall f args span hbody.balanced,
    printsOn_duringCall f args span hbody.printsOn, fun m hroom => ?_⟩
  by_cases harity : args.length ≠ f.arity
  · rw [duringCall_of_arity harity, duringCall_of_arity harity]
    exact .inl rfl
  rw [Decidable.not_not] at harity
  let frames := (⟨f.name, some span⟩ : Frame) :: m.calls.frames
  have hpush : m.calls.push ⟨f.name, some span⟩ = .ok ⟨frames, room⟩ := by
    simp only [CallStack.push, hroom, frames]
  have hpush' : (m.deepened k).calls.push ⟨f.name, some span⟩ = .ok ⟨frames, room + k⟩ := by
    have : (m.deepened k).calls.room = room + k + 1 := by
      simp only [Machine.deepened, hroom]
      omega
    simp only [CallStack.push, this]
    rfl
  have hentered : entered f args ⟨frames, room + k⟩ (m.deepened k) =
      (entered f args ⟨frames, room⟩ m).deepened k := rfl
  have inside := hbody.agree (entered f args ⟨frames, room⟩ m) rfl
  -- behind the body the frame goes, and the room that it took is there again
  have hleave : ∀ n, body.after (entered f args ⟨frames, room⟩ m) = n →
      (n.deepened k).leaveCall = n.leaveCall.deepened k := by
    intro n hn
    have hcalls : n.calls = ⟨frames, room⟩ := by
      have same := (hbody.balanced (entered f args ⟨frames, room⟩ m)).calls
      rw [hn] at same
      exact same
    simp only [Machine.leaveCall, Machine.deepened, hcalls, CallStack.pop, frames]
    congr 2
    omega
  rw [duringCall_of_push harity hpush, duringCall_of_push harity hpush', hentered]
  cases hr : body (entered f args ⟨frames, room⟩ m) with
  | ok completion n =>
    rw [hr] at inside
    simp only [Agree] at inside ⊢
    rw [inside, ← hleave n (after_of_ok hr)]
  | error stop n =>
    rw [hr] at inside
    rcases inside with same | ⟨hover, hprints⟩
    · rw [same]
      simp only [Agree, ← hleave n (after_of_error hr)]
      exact .inl rfl
    · refine .inr ⟨hover.mapError (CallStack.attach_fault _), ?_⟩
      cases hr' : body' ((entered f args ⟨frames, room⟩ m).deepened k) <;>
        (rw [hr'] at hprints; exact hprints)

theorem cutOff_callWithin (room k : Nat) (f : Closure) (args : List Value) (span : Span) :
    CutOff room k Value (callWithin room f args span) (callWithin (room + k) f args span) := by
  induction room generalizing f args span with
  | zero =>
    rw [callWithin_eq, callWithin_eq]
    refine cutOff_duringCall_zero k f args span (fun m => ⟨rfl, rfl⟩) ?_
    -- with more room the body may run, and all that is asked of it is that it only prints
    cases k with
    | zero => exact fun m => PrintsOn.refl m
    | succ k =>
      rw [Nat.zero_add, bodyWithin_succ]
      exact steady_printsOn.stmts (printsOn_callWithin k) f.definition.body.stmts
  | succ room ih =>
    rw [Nat.add_right_comm, callWithin_eq, callWithin_eq, bodyWithin_succ, bodyWithin_succ]
    exact cutOff_duringCall_succ f args span
      ((congruent_cutOff room k).stmts ih f.definition.body.stmts)

/-! ## How many calls are under way

Frames are only added where a body begins. So a run never has more calls under way than its limit
allows if nothing changes when every body is watched: when something else happens instead of a body that
begins inside more calls than the limit. -/

/-- Work in place of which `alarm` is carried out where more than `most` calls are under way. -/
def watched (most : Nat) (alarm w : Eval Completion) : Eval Completion := fun m =>
  if most < m.calls.depth then alarm m else w m

/-- `bodyWithin` with every body watched. -/
def bodyWatched (most : Nat) (alarm : Eval Completion) : (room : Nat) → FunctionDef → Eval Completion
  | 0, d => watched most alarm (bodyWithin 0 d)
  | room + 1, d =>
    watched most alarm (stmts (callWith (bodyWatched most alarm room)) d.body.stmts)

section Watched

variable {α β : Type} {most : Nat}

/-- Work that does the same as other work in all states with a given limit on calls. -/
structure SameUnder (most : Nat) (α : Type) (w w' : Eval α) : Prop where
  balanced : Balanced w
  same (m : Machine) : m.calls.limit = most → w m = w' m

theorem SameUnder.bind {w w' : Eval α} {f f' : α → Eval β} (hw : SameUnder most α w w')
    (hf : ∀ a, SameUnder most β (f a) (f' a)) : SameUnder most β (w >>= f) (w' >>= f') := by
  refine ⟨steady_sameStacks.bind hw.balanced fun a => (hf a).balanced, fun m hlimit => ?_⟩
  have first := hw.same m hlimit
  cases hr : w m with
  | ok a n =>
    have hcalls : n.calls = m.calls := by
      have same := (hw.balanced m).calls
      rwa [after_of_ok hr] at same
    rw [bind_of_ok hr, bind_of_ok (first ▸ hr)]
    exact (hf a).same n (by rw [hcalls, hlimit])
  | error stop n => rw [bind_of_error hr, bind_of_error (first ▸ hr)]

theorem congruent_sameUnder (most : Nat) : Congruent (SameUnder most) := by
  have same := steady_sameStacks.congruent
  exact {
    pure := fun a => ⟨same.pure a, fun _ _ => rfl⟩
    fail := fun fault => ⟨same.fail fault, fun _ _ => rfl⟩
    bind := SameUnder.bind
    located := fun span hw => ⟨Steady.located span hw.balanced, fun m hlimit => by
      simp only [Eval.located, hw.same m hlimit]⟩
    inBlock := fun hw => ⟨steady_sameStacks.inBlock _ hw.balanced, fun m hlimit => by
      simp only [Eval.inBlock, hw.same { m with env := m.env.openBlock } hlimit]⟩
    reading := fun look f g hf => ⟨fun m => (hf (look m.store)).balanced m,
      fun m hlimit => (hf (look m.store)).same m hlimit⟩
    nameValue := fun x => ⟨same.nameValue x, fun _ _ => rfl⟩
    deleteName := fun x => ⟨same.deleteName x, fun _ _ => rfl⟩
    define := fun x v => ⟨same.define x v, fun _ _ => rfl⟩
    assign := fun x v => ⟨same.assign x v, fun _ _ => rfl⟩
    defineFunction := fun d => ⟨same.defineFunction d, fun _ _ => rfl⟩
    write := fun text => ⟨same.write text, fun _ _ => rfl⟩
    settled := fun a => ⟨same.settled a, fun _ _ => rfl⟩
    newArray := fun items => ⟨same.newArray items, fun _ _ => rfl⟩
    newMap := fun es => ⟨same.newMap es, fun _ _ => rfl⟩
    binary := fun op l r => ⟨same.binary op l r, fun _ _ => rfl⟩
    unary := fun op v => ⟨same.unary op v, fun _ _ => rfl⟩
    index := fun t i => ⟨same.index t i, fun _ _ => rfl⟩
    assignIndex := fun t i v => ⟨same.assignIndex t i v, fun _ _ => rfl⟩ }

theorem sameUnder_duringCall {alarm body body' : Eval Completion} (f : Closure) (args : List Value)
    (span : Span) (hbody : SameUnder most Completion body body') :
    SameUnder most Value (duringCall f args span body)
      (duringCall f args span (watched most alarm body')) := by
  refine ⟨balanced_duringCall f args span hbody.balanced, fun m hlimit => ?_⟩
  by_cases harity : args.length ≠ f.arity
  · rw [duringCall_of_arity harity, duringCall_of_arity harity]
  rw [Decidable.not_not] at harity
  cases hpush : m.calls.push ⟨f.name, some span⟩ with
  | error fault => rw [duringCall_of_full harity hpush, duringCall_of_full harity hpush]
  | ok calls =>
    have hcalls : calls.limit = most := (CallStack.limit_of_push hpush).trans hlimit
    -- the calls under way and the room left are the limit together, so no alarm is raised
    have hdepth : ¬ most < calls.depth := by
      rw [← hcalls, CallStack.limit]
      omega
    have hwatched : watched most alarm body' (entered f args calls m) =
        body' (entered f args calls m) := if_neg hdepth
    rw [duringCall_of_push harity hpush, duringCall_of_push harity hpush, hwatched,
      hbody.same (entered f args calls m) hcalls]

theorem sameUnder_callWithin (alarm : Eval Completion) (room : Nat) (f : Closure) (args : List Value)
    (span : Span) :
    SameUnder most Value (callWithin room f args span)
      (callWith (bodyWatched most alarm room) f args span) := by
  induction room generalizing f args span with
  | zero =>
    rw [callWithin_eq]
    refine sameUnder_duringCall f args span ⟨fun m => ⟨rfl, rfl⟩, fun m _ => rfl⟩
  | succ room ih =>
    rw [callWithin_eq, bodyWithin_succ]
    exact sameUnder_duringCall f args span
      ((congruent_sameUnder most).stmts ih f.definition.body.stmts)

end Watched
end Eval

/-! ## The main statement -/

namespace Machine

/-- The state with a limit on nested calls, none of which is under way. -/
def limitedTo (limit : Nat) (m : Machine) : Machine := { m with calls := .ofLimit limit }

/-- `run` with `alarm` in place of every body that begins inside more than `most` calls. -/
def runWatched (most : Nat) (alarm : Eval Completion) (m : Machine) (program : Block) :
    EStateM.Result Stop Machine Unit :=
  match Eval.stmts (Eval.callWith (Eval.bodyWatched most alarm m.calls.room)) program.stmts m with
  | .ok _ m => .ok () m
  | .error stop m => .error stop m

end Machine

/-- **The limit on nested calls only cuts off.** A program run from a state between runs with a limit
`d` does one of two things. It ends without an overflow of calls; then with any greater limit it ends
with the same result or error, and in the same state up to the limit. Or it ends with an overflow; then
what it printed before is a beginning of what it prints with a greater limit. And no body ever begins
inside more than `d` calls: whatever would be done there instead, the run is the same. -/
theorem depth_limit_only_cuts_off (m : Machine) (program : Block) (d d' : Nat) (h : d ≤ d') :
    (∀ n, (m.limitedTo d).run program = .ok () n →
      (m.limitedTo d').run program = .ok () (n.limitedTo d')) ∧
    (∀ stop n, (m.limitedTo d).run program = .error stop n → ¬ stop.IsOverflow →
      (m.limitedTo d').run program = .error stop (n.limitedTo d')) ∧
    (∀ stop n, (m.limitedTo d).run program = .error stop n → stop.IsOverflow →
      PrintsOn n ((m.limitedTo d').afterRun program)) ∧
    ∀ alarm, (m.limitedTo d).runWatched d alarm program = (m.limitedTo d).run program := by
  obtain ⟨k, rfl⟩ := Nat.exists_eq_add_of_le h
  have hroom : ∀ limit, (m.limitedTo limit).calls.room = limit := fun _ => rfl
  have hdeeper : (m.limitedTo d).deepened k = m.limitedTo (d + k) := rfl
  have cut := (Eval.congruent_cutOff d k).stmts (Eval.cutOff_callWithin d k) program.stmts
  have agree := cut.agree (m.limitedTo d) rfl
  rw [hdeeper] at agree
  -- behind the program no call is under way, so the room left is the limit again
  have hends : ∀ n, (m.limitedTo d).afterRun program = n → n.deepened k = n.limitedTo (d + k) := by
    rintro n rfl
    have hcalls := (Machine.sameStacks_afterRun (m.limitedTo d) program).calls
    rw [Machine.deepened, hcalls]
    rfl
  refine ⟨fun n hrun => ?_, fun stop n hrun hover => ?_, fun stop n hrun hover => ?_, fun alarm => ?_⟩
  · have hn := hends n (by rw [Machine.afterRun, hrun])
    obtain ⟨c, hr⟩ := Machine.run_eq_ok hrun
    rw [hroom] at hr
    rw [hr] at agree
    exact Machine.run_of_ok (agree.trans (by rw [hn]))
  · have hn := hends n (by rw [Machine.afterRun, hrun])
    have hr := Machine.run_eq_error hrun
    rw [hroom] at hr
    rw [hr] at agree
    rcases agree with same | ⟨hover', -⟩
    · exact Machine.run_of_error (same.trans (by rw [hn]))
    · exact absurd hover' hover
  · have hr := Machine.run_eq_error hrun
    rw [hroom] at hr
    rw [hr] at agree
    rw [Machine.afterRun_eq]
    rcases agree with same | ⟨-, hprints⟩
    · rw [hroom, EvalOf.after, same]
      exact PrintsOn.refl n
    · exact hprints
  · have same := (Eval.congruent_sameUnder d).stmts (Eval.sameUnder_callWithin alarm d) program.stmts
    have hlimit : (m.limitedTo d).calls.limit = d := Nat.zero_add d
    have hstmts := same.same (m.limitedTo d) hlimit
    unfold Machine.runWatched Machine.run
    rw [hroom]
    rcases hrun : Eval.stmts (Eval.callWithin d) program.stmts (m.limitedTo d) with ⟨c, n⟩ | ⟨stop, n⟩
    all_goals
      rw [hstmts] at hrun
      simp only [hrun]

/-- A program that prints, and then calls a function that prints. -/
def printsTwice : Block :=
  let print (text : String) : Stmt :=
    .expr (.call (.ident "print" Span.nowhere) [.literal (.string text) Span.nowhere] Span.nowhere)
      Span.nowhere
  .mk [
    .function (.mk "f" [] none (.mk [print "inside"] Span.nowhere) Span.nowhere) Span.nowhere,
    print "outside",
    .expr (.call (.ident "f" Span.nowhere) [] Span.nowhere) Span.nowhere] Span.nowhere

/-- Without room for its one call the program is cut off behind its first line; with room for one call
it prints both, and more room changes nothing. -/
theorem depth_limit_only_cuts_off_printsTwice :
    let start := Machine.ofLimit 7
    (∃ e n, (start.limitedTo 0).run printsTwice = .error (.error e) n ∧ e.fault = .tooDeep 0 ∧
      n.output = "outside\n" ∧ PrintsOn n ((start.limitedTo 2).afterRun printsTwice)) ∧
    ∃ n, (start.limitedTo 1).run printsTwice = .ok () n ∧ n.output = "outside\ninside\n" ∧
      (start.limitedTo 2).run printsTwice = .ok () (n.limitedTo 2) := by
  have overflows := depth_limit_only_cuts_off (Machine.ofLimit 7) printsTwice 0 2 (by decide)
  have ends := depth_limit_only_cuts_off (Machine.ofLimit 7) printsTwice 1 2 (by decide)
  refine ⟨⟨_, _, rfl, rfl, by decide +kernel, overflows.2.2.1 _ _ rfl ⟨_, rfl, rfl⟩⟩, ?_⟩
  exact ⟨_, rfl, by decide +kernel, ends.1 _ rfl⟩

end Nikl
