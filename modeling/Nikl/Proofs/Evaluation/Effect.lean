import Nikl.Proofs.Evaluation.Congruence

/-
What work does to the state, whether it gives a result or stops. A relation from the state before to
the state after that holds when nothing happens, and that holds of two changes in turn when it holds of
each, is kept by whole programs as soon as every single change keeps it. So a frame condition of the
evaluator comes down to one line for each operation: `Steady` lists them.
-/

set_option autoImplicit false

namespace Nikl

/-- The state in which a piece of work ended, with a result or without one. -/
def Eval.ending {ν α : Type} : EStateM.Result Stop (Machine ν) α → Machine ν
  | .ok _ n => n
  | .error _ n => n

/-- The state in which work ends that begins in a given one. -/
def EvalOf.after {ν α : Type} (w : EvalOf ν α) (m : Machine ν) : Machine ν := Eval.ending (w m)

namespace Eval

open EvalOf (after)

section Ends

variable {ν α β : Type} {w : EvalOf ν α} {m n : Machine ν}

theorem bind_of_ok {f : α → EvalOf ν β} {a : α} (h : w m = .ok a n) : (w >>= f) m = f a n := by
  simp only [bind, EStateM.bind, h]

theorem bind_of_error {f : α → EvalOf ν β} {stop : Stop} (h : w m = .error stop n) :
    (w >>= f) m = .error stop n := by
  simp only [bind, EStateM.bind, h]

theorem located_of_ok {a : α} {span : Span} (h : w m = .ok a n) : located span w m = .ok a n := by
  rw [located, h]

theorem located_of_error {stop : Stop} {span : Span} (h : w m = .error stop n) :
    located span w m = .error (stop.mapError (·.orSpan span)) n := by
  rw [located, h]

theorem inBlock_of_ok {a : α} (h : w { m with env := m.env.openBlock } = .ok a n) :
    inBlock w m = .ok a { n with env := n.env.close } := by
  rw [inBlock, h]

theorem inBlock_of_error {stop : Stop} (h : w { m with env := m.env.openBlock } = .error stop n) :
    inBlock w m = .error stop { n with env := n.env.close } := by
  rw [inBlock, h]

theorem after_of_ok {a : α} (h : w m = .ok a n) : w.after m = n := by
  rw [after, h, ending]

theorem after_of_error {stop : Stop} (h : w m = .error stop n) : w.after m = n := by
  rw [after, h, ending]

theorem after_bind_of_ok {f : α → EvalOf ν β} {a : α} (h : w m = .ok a n) :
    (w >>= f).after m = (f a).after n := by
  rw [after, bind_of_ok h, after]

theorem after_bind_of_error {f : α → EvalOf ν β} {stop : Stop} (h : w m = .error stop n) :
    (w >>= f).after m = n := by
  rw [after, bind_of_error h, ending]

@[simp] theorem after_pure (a : α) (m : Machine ν) : (pure a : EvalOf ν α).after m = m := rfl

@[simp] theorem after_fail (fault : EvalFault) (m : Machine ν) : (fail fault : EvalOf ν α).after m = m := rfl

@[simp] theorem after_modify (f : Machine ν → Machine ν) (m : Machine ν) :
    (modify f : EvalOf ν Unit).after m = f m := rfl

theorem after_located (span : Span) (w : EvalOf ν α) (m : Machine ν) :
    (located span w).after m = w.after m := by
  unfold after located
  rcases w m with ⟨a, n⟩ | ⟨stop, n⟩ <;> rfl

/-- A block is closed in whatever state its work ends. -/
theorem after_inBlock (w : EvalOf ν α) (m : Machine ν) :
    (inBlock w).after m =
      { w.after { m with env := m.env.openBlock } with
        env := (w.after { m with env := m.env.openBlock }).env.close } := by
  unfold after inBlock
  rcases w { m with env := m.env.openBlock } with ⟨a, n⟩ | ⟨stop, n⟩ <;> rfl

variable [DecidableEq ν] [Naming ν]

theorem after_nameValue (x : ν) (m : Machine ν) : (nameValue x).after m = m := by
  have hget : (get : EvalOf ν (Machine ν)) m = .ok m m := rfl
  rw [nameValue, after_bind_of_ok hget]
  split <;> rfl

theorem after_deleteName (x : ν) (m : Machine ν) :
    (deleteName x).after m = { m with env := (m.env.delete x).2 } := by
  have hdel : (modifyGet fun m => ((m.env.delete x).1, { m with env := (m.env.delete x).2 }) :
      EvalOf ν Bool) m = .ok (m.env.delete x).1 { m with env := (m.env.delete x).2 } := rfl
  rw [deleteName, after_bind_of_ok hdel]
  split <;> rfl

/-- What a name does, by what it means where it stands. -/
theorem nameValue_eq (x : ν) (m : Machine ν) : nameValue x m =
    match m.env.lookup x with
    | .ok v => .ok v m
    | .error .undefined => .error (.ofFault (.undefined (Naming.text x))) m
    | .error .deleted => .error (.ofFault (.deleted (Naming.text x))) m := by
  have hget : (get : EvalOf ν (Machine ν)) m = .ok m m := rfl
  rw [nameValue, bind_of_ok hget]
  rcases m.env.lookup x with (_ | _) | v <;> rfl

theorem deleteName_eq (x : ν) (m : Machine ν) : deleteName x m =
    if (m.env.delete x).1 then .ok () { m with env := (m.env.delete x).2 }
    else .error (.ofFault (.cannotDelete (Naming.text x))) { m with env := (m.env.delete x).2 } := by
  have hdel : (modifyGet fun m => ((m.env.delete x).1, { m with env := (m.env.delete x).2 }) :
      EvalOf ν Bool) m = .ok (m.env.delete x).1 { m with env := (m.env.delete x).2 } := rfl
  rw [deleteName, bind_of_ok hdel]
  split <;> rfl

omit [DecidableEq ν] in
theorem callBuiltin_eq (b : Builtin) (args : List (Value ν)) (m : Machine ν) : callBuiltin b args m =
    match b.apply m.store args with
    | .ok (printed, v) => .ok v { m with output := m.output ++ printed }
    | .error fault => .error (.ofFault fault) m := by
  have hget : (get : EvalOf ν (Machine ν)) m = .ok m m := rfl
  rw [callBuiltin, bind_of_ok hget]
  rcases b.apply m.store args with fault | ⟨printed, v⟩ <;> rfl

/-- The state in which the body of a function begins. -/
def entered (f : Closure ν) (args : List (Value ν)) (calls : CallStack ν) (m : Machine ν) : Machine ν :=
  { m with
    env := Machine.bindAll f.definition.params args (m.env.openInside f.scope)
    calls := calls }

section Calls

variable {f : Closure ν} {args : List (Value ν)} {span : Span} {body : EvalOf ν (Completion ν)}
  {calls : CallStack ν} {fault : EvalFault}

theorem duringCall_of_arity (h : args.length ≠ f.arity) :
    duringCall f args span body m = .error (.ofFault (.wrongArity f.name f.arity args.length)) m := by
  simp only [duringCall, if_pos h]
  rfl

theorem duringCall_of_full (h : args.length = f.arity)
    (hpush : m.calls.push ⟨f.definition.name, some span⟩ = .error fault) :
    duringCall f args span body m = .error (.ofFault fault) m := by
  simp only [duringCall, if_neg (Decidable.not_not.2 h), hpush]
  rfl

/-- A call that begins ends as its body does. -/
theorem duringCall_of_push (h : args.length = f.arity)
    (hpush : m.calls.push ⟨f.definition.name, some span⟩ = .ok calls) :
    duringCall f args span body m =
      match body (entered f args calls m) with
      | .ok completion n => .ok completion.value n.leaveCall
      | .error stop n => .error (stop.mapError n.calls.attach) n.leaveCall := by
  simp only [duringCall, if_neg (Decidable.not_not.2 h), hpush]
  rfl

/-- A call that does not begin changes nothing, and one that begins is left from the state in which its
body ends. -/
theorem after_duringCall (f : Closure) (args : List Value) (span : Span) (body : Eval Completion)
    (m : Machine) :
    (duringCall f args span body).after m = m ∨
      ∃ calls, m.calls.push ⟨f.name, some span⟩ = .ok calls ∧
        (duringCall f args span body).after m = (body.after (entered f args calls m)).leaveCall := by
  -- it does not begin for a wrong number of arguments, or for want of room
  by_cases harity : args.length = f.arity
  · cases hpush : m.calls.push ⟨f.name, some span⟩ with
    | error fault => exact .inl (after_of_error (duringCall_of_full harity hpush))
    | ok calls =>
      refine .inr ⟨calls, rfl, ?_⟩
      rw [after, after, duringCall_of_push harity hpush]
      cases body (entered f args calls m) <;> rfl
  · exact .inl (after_of_error (duringCall_of_arity harity))

end Calls

end Ends

/-! ## Work on collections -/

/-- The collections when work on them ends. -/
def storeAfter {α : Type} (w : StoreM α) (s : Store) : Store :=
  match w s with
  | .ok _ t => t
  | .error _ t => t

theorem onStore_of_ok {α : Type} {w : StoreM α} {a : α} {s : Store} {m : Machine}
    (h : w m.store = .ok a s) : onStore w m = .ok a { m with store := s } := by
  simp only [onStore, h]

theorem after_onStore {α : Type} (w : StoreM α) (m : Machine) :
    (onStore w).after m = { m with store := storeAfter w m.store } := by
  rcases m with ⟨env, s, calls, output, closures⟩
  simp only [after, ending, onStore, storeAfter]
  rcases w s with ⟨a, t⟩ | ⟨stop, t⟩ <;> rfl

theorem storeAfter_get {α : Type} (f : Store → StoreM α) (s : Store) :
    storeAfter (get >>= f) s = storeAfter (f s) s := rfl

theorem storeAfter_settled {α : Type} (a : Settled α) (s : Store) :
    storeAfter (StoreM.ofSettled a) s = s := by
  cases a <;> rfl

/-- An operator makes a new array or leaves the collections alone. -/
theorem storeAfter_binary (op : BinaryOp) (l r : Value) (s : Store) :
    storeAfter (op.apply l r) s = s ∨ ∃ c, storeAfter (op.apply l r) s = s.push c := by
  unfold BinaryOp.apply
  rw [storeAfter_get]
  by_cases heq : op = .equal
  · left
    rw [if_pos heq]
    cases l.equal? s r <;> rfl
  by_cases hne : op = .notEqual
  · left
    rw [if_neg heq, if_pos hne]
    cases l.equal? s r <;> rfl
  rw [if_neg heq, if_neg hne]
  -- of the other operators only the joining of two arrays makes a collection
  rcases op.joined? l r with _ | ⟨left, right⟩
  · left
    rcases op.onScalars l r with fault | v <;> rfl
  · right
    exact ⟨_, rfl⟩

theorem storeAfter_unary (op : UnaryOp) (v : Value) (s : Store) : storeAfter (op.apply v) s = s := by
  cases op with
  | not => rfl
  | neg =>
    cases v with
    | int n =>
      simp only [storeAfter, UnaryOp.apply]
      cases Arithmetic.fit? (-n.toInt) <;> rfl
    | _ => rfl

theorem storeAfter_itemAt (items : List Value) (i : Int64) (s : Store) :
    storeAfter (itemAt items i) s = s := by
  unfold storeAfter itemAt
  rcases (placeOf? i items.length).bind (items[·]?) with _ | v <;> rfl

theorem storeAfter_index (t i : Value) (s : Store) : storeAfter (t.index i) s = s := by
  unfold Value.index
  rw [storeAfter_get]
  split
  · exact storeAfter_itemAt ..
  · exact storeAfter_itemAt ..
  · exact storeAfter_itemAt ..
  -- a map is searched, which may come to no end but changes nothing
  · next r =>
    unfold storeAfter
    simp only [bind, EStateM.bind]
    rcases (s.entries r).get? (Value.sameIn s) i with _ | _ | v <;> rfl
  · rfl

/-! ## Changes of the state that are kept -/

/-- A relation from the state before to the state after that every single change keeps. -/
structure Steady (S : Machine → Machine → Prop) : Prop where
  refl (m : Machine) : S m m
  trans {l m n : Machine} : S l m → S m n → S l n
  inBlock {α : Type} (w : Eval α) : (∀ m, S m (w.after m)) → ∀ m, S m ((inBlock w).after m)
  define (m : Machine) (x : String) (v : Value) : S m { m with env := m.env.define x v }
  assign (m : Machine) (x : String) (v : Value) : S m { m with env := m.env.assign x v }
  delete (m : Machine) (x : String) : S m { m with env := (m.env.delete x).2 }
  defineFunction (m : Machine) (d : FunctionDef) : S m (m.defineFunction d)
  write (m : Machine) (text : String) : S m { m with output := m.output ++ text }
  push (m : Machine) (c : Cell) : S m { m with store := m.store.push c }
  assignIndex (m : Machine) (t i v : Value) :
    S m { m with store := storeAfter (t.assignIndex i v) m.store }

/-- Work whose end is related to its beginning, whatever state it begins in. -/
def Keeps {α : Type} (S : Machine → Machine → Prop) (w : Eval α) : Prop := ∀ m, S m (w.after m)

/-- Two pieces of work in turn, of which the second may not begin. -/
theorem Steady.bind {S : Machine → Machine → Prop} (h : Steady S) {α β : Type} {w : Eval α}
    {f : α → Eval β} (hw : Keeps S w) (hf : ∀ a, Keeps S (f a)) : Keeps S (w >>= f) := by
  intro m
  have first := hw m
  cases hr : w m with
  | error stop n =>
    rw [after_of_error hr] at first
    rwa [after_bind_of_error hr]
  | ok a n =>
    rw [after_of_ok hr] at first
    rw [after_bind_of_ok hr]
    exact h.trans first (hf a n)

theorem Steady.located {S : Machine → Machine → Prop} {α : Type} {w : Eval α} (span : Span)
    (hw : Keeps S w) : Keeps S (located span w) := by
  intro m
  rw [after_located]
  exact hw m

/-- **What every single change keeps, the evaluator respects.** -/
theorem Steady.congruent {S : Machine → Machine → Prop} (h : Steady S) :
    Congruent fun _ w _ => Keeps S w where
  pure _ := h.refl
  fail _ := h.refl
  bind hw hf := h.bind hw hf
  located span hw := Steady.located span hw
  inBlock hw := h.inBlock _ hw
  reading look f _ hf m := hf (look m.store) m
  nameValue x m := by
    rw [after_nameValue]
    exact h.refl m
  deleteName x m := by
    rw [after_deleteName]
    exact h.delete m x
  define x v m := h.define m x v
  assign x v m := h.assign m x v
  defineFunction d m := h.defineFunction m d
  write text m := h.write m text
  settled a m := by
    rw [after_onStore, storeAfter_settled]
    exact h.refl m
  newArray items m := h.push m (.array items)
  newMap entries m := h.push m (.map entries)
  binary op l r m := by
    rw [after_onStore]
    rcases storeAfter_binary op l r m.store with hs | ⟨c, hs⟩
    · rw [hs]
      exact h.refl m
    · rw [hs]
      exact h.push m c
  unary op v m := by
    rw [after_onStore, storeAfter_unary]
    exact h.refl m
  index t i m := by
    rw [after_onStore, storeAfter_index]
    exact h.refl m
  assignIndex t i v m := by
    rw [after_onStore]
    exact h.assignIndex m t i v

namespace Steady

variable {S : Machine → Machine → Prop} (h : Steady S) {call : Call}
  (hc : ∀ f args span, Keeps S (call f args span))

include h hc

theorem expr (e : Expr) : Keeps S (expr call e) := @Congruent.expr _ h.congruent call call hc e

theorem callValue (callee : Value) (args : List Value) (span : Span) :
    Keeps S (callValue call callee args span) :=
  @Congruent.callValue _ h.congruent call call hc callee args span

theorem stmts (ss : List Stmt) : Keeps S (stmts call ss) :=
  @Congruent.stmts _ h.congruent call call hc ss

theorem block (b : Block) : Keeps S (block call b) := @Congruent.block _ h.congruent call call hc b

/-- The rounds of a loop over some items. -/
theorem loop (first : String) (second : Option String) (body : List Stmt) (items : List LoopItem) :
    Keeps S (forEach (fun item => Eval.inBlock do
      bindItem first second item
      Eval.stmts call body) items) :=
  @Congruent.loop _ h.congruent (Eval.stmts call body) (Eval.stmts call body) (h.stmts hc body)
    first second items

end Steady

end Eval
end Nikl
