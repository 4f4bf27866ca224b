import Nikl.Evaluation

/-
The rules of the language, one step of recursion at a time. The evaluator is total because calls are
carried out by an evaluator with less room; nothing of that is said here. A construct is a job, and what
a job takes is a script: single actions on the state, comparisons of two values, and further jobs. So
every way in which carrying out a program goes round is a job that a script asks for: a part of an
expression, the rest of a list, the next round of a loop, the rest of a search, the body of a function.

A job is carried out with fuel, of which each job inside it has one unit less. Whether there is enough of
it, for which programs, is not built in.
-/

set_option autoImplicit false

namespace Nikl

/-! ## Actions, jobs and scripts -/

/-- Single actions on the state of a program, by what they answer. -/
inductive Action : Type → Type where
  /-- The collections as they are. -/
  | look : Action Store
  | put (s : Store) : Action Unit
  | write (text : String) : Action Unit
  | lookup (x : String) : Action (Except LookupFault Value)
  | define (x : String) (v : Value) : Action Unit
  | assign (x : String) (v : Value) : Action Unit
  /-- Removes a binding, and tells whether there was one. -/
  | delete (x : String) : Action Bool
  | defineFunction (d : FunctionDef) : Action Unit
  | openBlock : Action Unit
  | openInside (r : ScopeRef) : Action Unit
  /-- Closes the scope of a block. -/
  | close : Action Unit
  /-- Adds a call to those under way, if there may be one more. -/
  | enter (frame : Frame) : Action (Except EvalFault Unit)
  /-- Closes the scope of a call, and ends the call. -/
  | leave : Action Unit

/-- What is carried out by going through something: a part of a program, or a list of values. -/
inductive Job : Type → Type where
  | expr (e : Expr) : Job Value
  | exprs (es : List Expr) : Job (List Value)
  | mapEntries (written : Entries) (es : List (Expr × Expr)) : Job Entries
  /-- The search for the place of a key. -/
  | find (key : Value) (entries : Entries) : Job (Option Nat)
  | stmt (s : Stmt) : Job Completion
  | stmts (ss : List Stmt) : Job Completion
  | block (ss : List Stmt) : Job Completion
  | round (first : String) (second : Option String) (body : List Stmt) (item : LoopItem) : Job Completion
  | rounds (first : String) (second : Option String) (body : List Stmt) (items : List LoopItem) :
      Job Completion
  | call (f : Closure) (args : List Value) (span : Span) : Job Value
  | bindAll (arguments : List (Param × Value)) : Job Unit
  /-- The body of a function that has been entered. -/
  | body (d : FunctionDef) : Job Completion

/-- What is to be done for a result: one thing after another, each known when those before are done. -/
inductive Script (α : Type) : Type 1 where
  | give (a : α) : Script α
  | fault (f : EvalFault) : Script α
  | act {β : Type} (action : Action β) (next : β → Script α) : Script α
  | compare (v w : Value) (next : Bool → Script α) : Script α
  | perform {β : Type} (job : Job β) (next : β → Script α) : Script α

namespace Script

variable {α β : Type}

/-- Two scripts in turn. -/
def bind (first : Script α) (then' : α → Script β) : Script β :=
  match first with
  | give a => then' a
  | fault f => fault f
  | act action next => act action fun b => (next b).bind then'
  | compare v w next => compare v w fun same => (next same).bind then'
  | perform job next => perform job fun b => (next b).bind then'

instance : Monad Script where
  pure := give
  bind := bind

/-- A single action. -/
def action (a : Action α) : Script α := act a give

/-- A single job. -/
def job (j : Job α) : Script α := perform j give

/-- A single comparison. -/
def same (v w : Value) : Script Bool := compare v w give

/-! ## The rules -/

/-- Makes a new array. -/
def newArray (items : List Value) : Script Value := do
  let s ← action .look
  action (.put (s.push (.array items)))
  return .array s.next

/-- Makes a new map. -/
def newMap (entries : Entries) : Script Value := do
  let s ← action .look
  action (.put (s.push (.map entries)))
  return .map s.next

/-- A result that does not depend on anything but values, or a fault. -/
def ofExcept : Except EvalFault α → Script α
  | .ok a => give a
  | .error f => fault f

/-- What an operator makes of two values. -/
def binary (op : BinaryOp) (l r : Value) : Script Value := do
  if op = .equal then return .bool (← same l r)
  else if op = .notEqual then return .bool (!(← same l r))
  else
    match op.joined? l r with
    | some (left, right) =>
      let s ← action .look
      newArray (s.items left ++ s.items right)
    | none => ofExcept (op.onScalars l r)

/-- What an operator makes of a value. -/
def unary : UnaryOp → Value → Script Value
  | .not, v => do return .bool (!v.isTruthy (← action .look))
  | .neg, .int n => ofExcept (BinaryOp.checked .negation (Arithmetic.fit? (-n.toInt)))
  | .neg, .float x => return .float (-x)
  | .neg, v => fault (.unaryOperand v.kind .neg)

/-- The item of a list at an integer place. -/
def itemAt (items : List Value) (i : Int64) : Script Value :=
  match (placeOf? i items.length).bind (items[·]?) with
  | some v => return v
  | none => fault (.outOfBounds i items.length)

/-- The item of a value at an index. -/
def index : Value → Value → Script Value
  | .array r, .int i => do itemAt ((← action .look).items r) i
  | .tuple items, .int i => itemAt items i
  | .string content, .int i => itemAt (Value.letters content) i
  | .map r, key => do
    let s ← action .look
    match (← job (.find key (s.entries r))).bind ((s.entries r)[·]?) with
    | some (_, v) => return v
    | none => fault (.keyNotFound (key.text s))
  | target, index => fault (.cannotIndex target.kind index.kind)

/-- Gives the item of a collection at an index another value. -/
def assignIndex : Value → Value → Value → Script Unit
  | .array r, .int i, value => do
    let s ← action .look
    match placeOf? i (s.items r).length with
    | some place => action (.put (s.put r (.array ((s.items r).set place value))))
    | none => fault (.outOfBounds i (s.items r).length)
  | .array _, index, _ => fault (.cannotIndex .array index.kind)
  | .map r, key, value => do
    let s ← action .look
    match ← job (.find key (s.entries r)) with
    | some place => action (.put (s.put r (.map ((s.entries r).replaceAt place value).2)))
    | none => action (.put (s.put r (.map ((s.entries r).append key value))))
  | .tuple _, _, _ => fault .immutableTuple
  | target, _, _ => fault (.noItemAssignment target.kind)

/-- Writes an entry of a map that is being made. -/
def addEntry (entries : Entries) (key value : Value) : Script Entries := do
  match ← job (.find key entries) with
  | some place => return (entries.replaceAt place value).2
  | none => return entries.append key value

/-- Calls a value. -/
def callValue (callee : Value) (args : List Value) (span : Span) : Script Value :=
  match callee with
  | .function f => job (.call f args span)
  | .builtin b => do
    let (printed, v) ← ofExcept (b.apply (← action .look) args)
    action (.write printed)
    return v
  | v => fault (.notCallable v.kind)

/-- Evaluates an expression. -/
def expr : Expr → Script Value
  | .literal v _ => return .ofLiteral v
  | .ident x _ => do
    match ← action (.lookup x) with
    | .ok v => return v
    | .error .undefined => fault (.undefined x)
    | .error .deleted => fault (.deleted x)
  | .array items _ => do newArray (← job (.exprs items))
  | .tuple items _ => do return .tuple (← job (.exprs items))
  | .map entries _ => do newMap (← job (.mapEntries [] entries))
  | .binary op left right _ => do
    let l ← job (.expr left)
    let r ← job (.expr right)
    binary op l r
  | .unary op operand _ => do unary op (← job (.expr operand))
  | .call callee args span => do
    let f ← job (.expr callee)
    let vs ← job (.exprs args)
    callValue f vs span
  | .index target index _ => do
    let t ← job (.expr target)
    let i ← job (.expr index)
    Script.index t i

/-- Binds the names of a loop for one round. -/
def bindItem (first : String) (second : Option String) (item : LoopItem) : Script Unit := do
  action (.define first item.first)
  match second, item.second with
  | some x, some v => action (.define x v)
  | _, _ => return ()

/-- Carries out a statement. -/
def stmt : Stmt → Script Completion
  | .expr e _ => do
    let _ ← job (.expr e)
    return .fellThrough
  | .define x _ value _ => do
    action (.define x (← job (.expr value)))
    return .fellThrough
  | .assign x value _ => do
    action (.assign x (← job (.expr value)))
    return .fellThrough
  | .assignIndex target index value _ => do
    let t ← job (.expr target)
    let i ← job (.expr index)
    let v ← job (.expr value)
    assignIndex t i v
    return .fellThrough
  | .delete x _ => do
    if ← action (.delete x) then return .fellThrough else fault (.cannotDelete x)
  | .function d _ => do
    action (.defineFunction d)
    return .fellThrough
  | .ifThen condition thenBranch _ => do
    let c ← job (.expr condition)
    if c.isTruthy (← action .look) then job (.block thenBranch.stmts) else return .fellThrough
  | .ifElse condition thenBranch elseBranch _ => do
    let c ← job (.expr condition)
    if c.isTruthy (← action .look) then job (.block thenBranch.stmts) else job (.block elseBranch.stmts)
  | .forEach first second iterable body _ => do
    let v ← job (.expr iterable)
    let items ← ofExcept (v.loopItems (← action .look) second.isSome)
    job (.rounds first second body.stmts items)
  | .giveBack none _ => return .returned .none
  | .giveBack (some e) _ => do return .returned (← job (.expr e))

/-- Begins a call of a function, carries out its body, and takes what the body returns. -/
def call (f : Closure) (args : List Value) (span : Span) : Script Value := do
  if args.length ≠ f.arity then fault (.wrongArity f.name f.arity args.length)
  else
    ofExcept (← action (.enter ⟨f.name, some span⟩))
    action (.openInside f.scope)
    job (.bindAll (f.definition.params.zip args))
    return (← job (.body f.definition)).value

end Script

/-- What a job takes, down to the jobs that it takes. -/
def Job.script {α : Type} : Job α → Script α
  | expr e => Script.expr e
  | exprs [] => return []
  | exprs (e :: rest) => do
    let v ← Script.job (expr e)
    return v :: (← Script.job (exprs rest))
  | mapEntries written [] => return written
  | mapEntries written ((key, value) :: rest) => do
    let k ← Script.job (expr key)
    let v ← Script.job (expr value)
    Script.job (mapEntries (← Script.addEntry written k v) rest)
  | find _ [] => return none
  | find key ((k, _) :: rest) => do
    if ← Script.same k key then return some 0
    return (← Script.job (find key rest)).map (· + 1)
  | stmt s => Script.stmt s
  | stmts [] => return .fellThrough
  | stmts (s :: rest) => do
    match ← Script.job (stmt s) with
    | .fellThrough => Script.job (stmts rest)
    | .returned v => return .returned v
  | block ss => do
    Script.action .openBlock
    Script.job (stmts ss)
  | round first second ss item => do
    Script.action .openBlock
    Script.bindItem first second item
    Script.job (stmts ss)
  | rounds _ _ _ [] => return .fellThrough
  | rounds first second ss (item :: rest) => do
    match ← Script.job (round first second ss item) with
    | .fellThrough => Script.job (rounds first second ss rest)
    | .returned v => return .returned v
  | call f args span => Script.call f args span
  | bindAll [] => return ()
  | bindAll ((p, v) :: rest) => do
    Script.action (.define p.name v)
    Script.job (bindAll rest)
  | body d => Script.job (stmts d.body.stmts)

/-- What happens at the end of a job, on every way out. -/
inductive Closing where
  | nothing
  /-- An error takes a place, unless it has one. -/
  | place (span : Span)
  /-- The scope of a block closes. -/
  | block
  /-- An error takes the calls under way with it, the scope of the call closes and its frame goes. -/
  | call

def Job.closing {α : Type} : Job α → Closing
  | expr e => .place e.span
  | stmt s => .place s.span
  | block _ | round .. => .block
  | body _ => .call
  | _ => .nothing

/-! ## Carrying out -/

/-- What carries out actions, on states of some kind. -/
structure Host (σ : Type) where
  act {α : Type} : Action α → σ → α × σ
  /-- An error with the calls under way. -/
  attach : σ → EvalError → EvalError

/-- How far carrying out comes with some fuel. -/
inductive Progress (σ α : Type) where
  | ended (result : Except EvalError α) (state : σ)
  /-- There was not enough fuel. -/
  | unfinished
  /-- Two values, in these collections, were compared without an answer, and the state stayed. -/
  | comparing (s : Store) (v w : Value) (state : σ)

/-- Goes on from a result. -/
def Progress.andThen {σ α β : Type} (next : α → σ → Progress σ β) : Progress σ α → Progress σ β
  | ended (.ok a) m => next a m
  | ended (.error e) m => ended (.error e) m
  | unfinished => unfinished
  | comparing s v w m => comparing s v w m

section Running

variable {σ : Type} (host : Host σ)

/-- Carries out a script, whose jobs are carried out by `perform`, and in which comparisons look so many
collections deep. -/
def Script.run (perform : {β : Type} → Job β → σ → Progress σ β) (depth : Nat) {α : Type} :
    Script α → σ → Progress σ α
  | give a, m => .ended (.ok a) m
  | fault f, m => .ended (.error ⟨f, none, none⟩) m
  | act action next, m =>
    let (answer, m) := host.act action m
    (next answer).run perform depth m
  | compare v w next, m =>
    let (s, m) := host.act .look m
    match v.equalWithin s depth w with
    | some same => (next same).run perform depth m
    | none => .comparing s v w m
  | .perform job next, m => (perform job m).andThen fun b m => (next b).run perform depth m

/-- The end of a job, by the end of its script. -/
def Closing.apply {α : Type} : Closing → Progress σ α → Progress σ α
  | nothing, p => p
  | place span, .ended r m => .ended (r.mapError (·.orSpan span)) m
  | block, .ended r m => .ended r (host.act .close m).2
  | call, .ended r m => .ended (r.mapError (host.attach m)) (host.act .leave m).2
  | _, p => p

/-- Carries out a job with some fuel. -/
def Job.run : (fuel : Nat) → {α : Type} → Job α → σ → Progress σ α
  | 0, _, _, _ => .unfinished
  | fuel + 1, _, job, m => job.closing.apply host (job.script.run host (run fuel) fuel m)

end Running

/-- The state of a running program takes actions. -/
def Machine.host : Host Machine where
  act
    | .look, m => (m.store, m)
    | .put s, m => ((), { m with store := s })
    | .write text, m => ((), { m with output := m.output ++ text })
    | .lookup x, m => (m.env.lookup x, m)
    | .define x v, m => ((), { m with env := m.env.define x v })
    | .assign x v, m => ((), { m with env := m.env.assign x v })
    | .delete x, m => ((m.env.delete x).1, { m with env := (m.env.delete x).2 })
    | .defineFunction d, m => ((), m.defineFunction d)
    | .openBlock, m => ((), { m with env := m.env.openBlock })
    | .openInside r, m => ((), { m with env := m.env.openInside r })
    | .close, m => ((), { m with env := m.env.close })
    | .enter frame, m =>
      match m.calls.push frame with
      | .ok calls => (.ok (), { m with calls := calls })
      | .error fault => (.error fault, m)
    | .leave, m => ((), m.leaveCall)
  attach m e := m.calls.attach e

end Nikl
