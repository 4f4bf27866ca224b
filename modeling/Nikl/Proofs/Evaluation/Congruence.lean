import Nikl.Evaluation

/-
Relations that the evaluator respects. Everything the evaluator does is put together from a few
operations on the state: names are read and bound, collections are made and changed, blocks open and
close, errors take a place. A relation between pieces of work that holds of each of these operations
and passes through the ways in which they are combined holds of whole programs, as soon as it holds of
calls: that is `Congruent.stmts`, and the induction over the tree behind it is done here once.

A property of one piece of work is the case of a relation that looks at its first side only.
-/

set_option autoImplicit false
set_option linter.unusedSectionVars false

namespace Nikl.Eval

/-- A relation between pieces of work with results of one type. -/
abbrev WorkRel := (α : Type) → Eval α → Eval α → Prop

/-- **Relations that the evaluator respects**: one clause for each operation on the state, and one for
each way of putting work together. What a function does when it is called is left out. -/
structure Congruent (R : WorkRel) : Prop where
  pure {α : Type} (a : α) : R α (pure a) (pure a)
  fail {α : Type} (fault : EvalFault) : R α (fail fault) (fail fault)
  bind {α β : Type} {w w' : Eval α} {f f' : α → Eval β} :
    R α w w' → (∀ a, R β (f a) (f' a)) → R β (w >>= f) (w' >>= f')
  located {α : Type} {w w' : Eval α} (span : Span) : R α w w' → R α (located span w) (located span w')
  inBlock {α : Type} {w w' : Eval α} : R α w w' → R α (inBlock w) (inBlock w')
  /-- Work that depends on the collections as they are now, and on nothing else of the state. -/
  reading {α β : Type} (look : Store → β) (f g : β → Eval α) : (∀ b, R α (f b) (g b)) →
    R α (do let m ← get; f (look m.store)) (do let m ← get; g (look m.store))
  nameValue (x : String) : R Value (nameValue x) (nameValue x)
  deleteName (x : String) : R Unit (deleteName x) (deleteName x)
  define (x : String) (v : Value) :
    R Unit (modify fun m => { m with env := m.env.define x v })
      (modify fun m => { m with env := m.env.define x v })
  assign (x : String) (v : Value) :
    R Unit (modify fun m => { m with env := m.env.assign x v })
      (modify fun m => { m with env := m.env.assign x v })
  defineFunction (d : FunctionDef) :
    R Unit (modify (Machine.defineFunction d)) (modify (Machine.defineFunction d))
  write (text : String) :
    R Unit (modify fun m => { m with output := m.output ++ text })
      (modify fun m => { m with output := m.output ++ text })
  settled {α : Type} (a : Settled α) :
    R α (onStore (StoreM.ofSettled a)) (onStore (StoreM.ofSettled a))
  newArray (items : List Value) :
    R Value (onStore (StoreM.newArray items)) (onStore (StoreM.newArray items))
  newMap (entries : Entries) :
    R Value (onStore (StoreM.newMap entries)) (onStore (StoreM.newMap entries))
  binary (op : BinaryOp) (l r : Value) : R Value (onStore (op.apply l r)) (onStore (op.apply l r))
  unary (op : UnaryOp) (v : Value) : R Value (onStore (op.apply v)) (onStore (op.apply v))
  index (t i : Value) : R Value (onStore (t.index i)) (onStore (t.index i))
  assignIndex (t i v : Value) :
    R Unit (onStore (t.assignIndex i v)) (onStore (t.assignIndex i v))

namespace Congruent

variable {R : WorkRel} (h : Congruent R)

include h

/-! ## Parts of expressions and statements -/

theorem ofExcept {α : Type} (x : Except EvalFault α) : R α (ofExcept x) (ofExcept x) := by
  cases x with
  | error fault => exact h.fail fault
  | ok a => exact h.pure a

theorem callBuiltin (b : Builtin) (args : List Value) :
    R Value (callBuiltin b args) (callBuiltin b args) := by
  -- a builtin looks at the collections first, and all else follows from what it found there
  let answer (result : Except EvalFault (String × Value)) : Eval Value := do
    let answered ← Eval.ofExcept result
    modify fun m => { m with output := m.output ++ answered.1 }
    return answered.2
  refine h.reading (fun s => b.apply s args) answer answer fun result => ?_
  refine h.bind (h.ofExcept result) fun answered => ?_
  exact h.bind (h.write answered.1) fun _ => h.pure answered.2

theorem addEntry (entries : Entries) (key value : Value) :
    R Entries (addEntry entries key value) (addEntry entries key value) := by
  let answer (result : Settled Entries) : Eval Entries := onStore (StoreM.ofSettled result)
  refine h.reading (fun s => (entries.insert (Value.sameIn s) key value).map (·.2)) answer answer ?_
  exact fun result => h.settled result

theorem bindItem (first : String) (second : Option String) (item : LoopItem) :
    R Unit (bindItem first second item) (bindItem first second item) := by
  have one := h.define first item.first
  rcases second with _ | y
  · exact one
  rcases hi : item.second with _ | v
  · simpa only [Eval.bindItem, hi] using one
  · -- both names are bound in one step, which does what two steps do
    have both := h.bind one fun _ => h.define y v
    have joined : (Eval.bindItem first (some y) item : Eval Unit) =
        (modify fun m => { m with env := m.env.define first item.first }) >>= fun _ =>
          modify fun m => { m with env := m.env.define y v } := by
      simp only [Eval.bindItem, hi]
      rfl
    rw [joined]
    exact both

theorem forEach {round round' : LoopItem → Eval Completion}
    (hr : ∀ item, R Completion (round item) (round' item)) (items : List LoopItem) :
    R Completion (forEach round items) (forEach round' items) := by
  -- a round that returns ends the loop, so what comes behind depends on how it completes
  induction items with
  | nil => exact h.pure Completion.fellThrough
  | cons item rest ih =>
    refine h.bind (hr item) fun c => ?_
    cases c with
    | fellThrough => exact ih
    | returned v => exact h.pure (Completion.returned v)

/-- A loop whose rounds carry out related bodies. -/
theorem loop {w w' : Eval Completion} (hw : R Completion w w') (first : String)
    (second : Option String) (items : List LoopItem) :
    R Completion
      (Eval.forEach (fun item => Eval.inBlock do
        Eval.bindItem first second item
        w) items)
      (Eval.forEach (fun item => Eval.inBlock do
        Eval.bindItem first second item
        w') items) :=
  h.forEach (fun item => h.inBlock (h.bind (h.bindItem first second item) fun _ => hw)) items

/-! ## Expressions and statements -/

variable {call call' : Call} (hc : ∀ f args span, R Value (call f args span) (call' f args span))

include hc

theorem callValue (callee : Value) (args : List Value) (span : Span) :
    R Value (callValue call callee args span) (callValue call' callee args span) := by
  cases callee with
  | function f => exact hc f args span
  | builtin b => exact h.callBuiltin b args
  | _ => exact h.fail _

mutual

theorem expr : (e : Expr) → R Value (expr call e) (expr call' e)
  | .literal v span => h.located span (h.pure (Value.ofLiteral v))
  | .ident x span => h.located span (h.nameValue x)
  | .array items span => h.located span (h.bind (exprs items) fun vs => h.newArray vs)
  | .tuple items span => h.located span (h.bind (exprs items) fun vs => h.pure (Value.tuple vs))
  | .map entries span => h.located span (h.bind (mapEntries [] entries) fun es => h.newMap es)
  | .binary op left right span =>
    h.located span (h.bind (expr left) fun l => h.bind (expr right) fun r => h.binary op l r)
  | .unary op operand span => h.located span (h.bind (expr operand) fun v => h.unary op v)
  | .call callee args span =>
    h.located span (h.bind (expr callee) fun f => h.bind (exprs args) fun vs => h.callValue hc f vs span)
  | .index target index span =>
    h.located span (h.bind (expr target) fun t => h.bind (expr index) fun i => h.index t i)

theorem exprs : (es : List Expr) → R (List Value) (exprs call es) (exprs call' es)
  | [] => h.pure []
  | e :: rest => h.bind (expr e) fun v => h.bind (exprs rest) fun vs => h.pure (v :: vs)

theorem mapEntries (entries : Entries) : (es : List (Expr × Expr)) →
    R Entries (mapEntries call entries es) (mapEntries call' entries es)
  | [] => h.pure entries
  | (key, value) :: rest =>
    h.bind (expr key) fun k => h.bind (expr value) fun v =>
      h.bind (h.addEntry entries k v) fun es => mapEntries es rest

end

mutual

theorem stmt : (s : Stmt) → R Completion (stmt call s) (stmt call' s)
  | .expr e span => h.located span (h.bind (h.expr hc e) fun _ => h.pure _)
  | .define x _ value span =>
    h.located span (h.bind (h.expr hc value) fun v => h.bind (h.define x v) fun _ => h.pure _)
  | .assign x value span =>
    h.located span (h.bind (h.expr hc value) fun v => h.bind (h.assign x v) fun _ => h.pure _)
  | .assignIndex target index value span =>
    h.located span (h.bind (h.expr hc target) fun t => h.bind (h.expr hc index) fun i =>
      h.bind (h.expr hc value) fun v => h.bind (h.assignIndex t i v) fun _ => h.pure _)
  | .delete x span => h.located span (h.bind (h.deleteName x) fun _ => h.pure _)
  | .function d span => h.located span (h.bind (h.defineFunction d) fun _ => h.pure _)
  | .ifThen condition thenBranch span =>
    h.located span (h.bind (h.expr hc condition) fun c =>
      h.reading (fun s => c.isTruthy s) (fun b => if b then _ else _) (fun b => if b then _ else _)
        fun b => match b with
          | true => block thenBranch
          | false => h.pure _)
  | .ifElse condition thenBranch elseBranch span =>
    h.located span (h.bind (h.expr hc condition) fun c =>
      h.reading (fun s => c.isTruthy s) (fun b => if b then _ else _) (fun b => if b then _ else _)
        fun b => match b with
          | true => block thenBranch
          | false => block elseBranch)
  | .forEach first second iterable (.mk body _) span =>
    h.located span (h.bind (h.expr hc iterable) fun v =>
      h.reading (fun s => v.loopItems s second.isSome) (fun r => Eval.ofExcept r >>= _)
        (fun r => Eval.ofExcept r >>= _) fun result => h.bind (h.ofExcept result) fun items =>
          h.loop (stmts body) first second items)
  | .giveBack none span => h.located span (h.pure _)
  | .giveBack (some e) span => h.located span (h.bind (h.expr hc e) fun v => h.pure (Completion.returned v))

/-- **A relation that the evaluator respects and that holds of calls holds of whole programs.** -/
theorem stmts : (ss : List Stmt) → R Completion (stmts call ss) (stmts call' ss)
  | [] => h.pure Completion.fellThrough
  | s :: rest => h.bind (stmt s) fun c =>
    match c with
    | .fellThrough => stmts rest
    | .returned v => h.pure (Completion.returned v)

theorem block : (b : Block) → R Completion (block call b) (block call' b)
  | .mk body _ => h.inBlock (stmts body)

end

end Congruent

end Nikl.Eval
