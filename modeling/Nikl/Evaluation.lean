import Nikl.Evaluation.Machine

/-
Running a program. Expressions and statements are carried out by going down the tree; what a function
does when it is called is a parameter of that, `call`. So the only way from one body into another is a
call, and as many levels of bodies as calls may nest make the whole evaluator.

Every expression and every statement gives its place to the errors that come out of it without one.
-/

set_option autoImplicit false

namespace Nikl

/-- What calling a function with some arguments does; the span is that of the call. -/
abbrev CallOf (ν : Type) := Closure ν → List (Value ν) → Span → EvalOf ν (Value ν)

/-- Such calls where names are texts. -/
abbrev Call := CallOf String

namespace Eval

variable {ν : Type} [DecidableEq ν] [Naming ν]

/-! ## Names, built-in functions and calls -/

/-- The value of a name (`ExprKind::Ident` in `Interpreter::eval_expr_inner`). -/
def nameValue (x : ν) : EvalOf ν (Value ν) := do
  match (← get).env.lookup x with
  | .ok v => return v
  | .error .undefined => fail (.undefined (Naming.text x))
  | .error .deleted => fail (.deleted (Naming.text x))

/-- Removes the binding of a name in the current scope (`StmtKind::Del` in
`Interpreter::exec_stmt_inner`). -/
def deleteName (x : ν) : EvalOf ν Unit := do
  let removed ← modifyGet fun m =>
    let (removed, env) := m.env.delete x
    (removed, { m with env := env })
  if removed then return () else fail (.cannotDelete (Naming.text x))

/-- Calls a built-in function. -/
def callBuiltin (b : Builtin) (args : List (Value ν)) : EvalOf ν (Value ν) := do
  let (printed, v) ← ofExcept (b.apply (← get).store args)
  modify fun m => { m with output := m.output ++ printed }
  return v

/-- Calls a value (`Interpreter::call_value`). -/
def callValue (call : CallOf ν) (callee : Value ν) (args : List (Value ν)) (span : Span) : EvalOf ν (Value ν) :=
  match callee with
  | .function f => call f args span
  | .builtin b => callBuiltin b args
  | v => fail (.notCallable v.kind)

/-- Writes an entry of a map that is being made. -/
def addEntry (entries : Entries ν) (key value : Value ν) : EvalOf ν (Entries ν) := do
  let s := (← get).store
  onStore (StoreM.ofSettled ((entries.insert (Value.sameIn s) key value).map (·.2)))

/-! ## Expressions -/

mutual

/-- Evaluates an expression (`Interpreter::eval_expr`). -/
def expr (call : CallOf ν) : Expr ν → EvalOf ν (Value ν)
  | .literal v span => located span (pure (.ofLiteral v))
  | .ident x span => located span (nameValue x)
  | .array items span => located span do
    onStore (StoreM.newArray (← exprs call items))
  | .tuple items span => located span do
    return .tuple (← exprs call items)
  | .map entries span => located span do
    onStore (StoreM.newMap (← mapEntries call [] entries))
  | .binary op left right span => located span do
    let l ← expr call left
    let r ← expr call right
    onStore (op.apply l r)
  | .unary op operand span => located span do
    onStore (op.apply (← expr call operand))
  | .call callee args span => located span do
    let f ← expr call callee
    let vs ← exprs call args
    callValue call f vs span
  | .index target index span => located span do
    let t ← expr call target
    let i ← expr call index
    onStore (t.index i)
termination_by structural e => e

/-- Evaluates expressions in order (`Interpreter::eval_exprs`). -/
def exprs (call : CallOf ν) : List (Expr ν) → EvalOf ν (List (Value ν))
  | [] => return []
  | e :: rest => do
    let v ← expr call e
    return v :: (← exprs call rest)
termination_by structural es => es

/-- Evaluates keys and values in order, and writes each entry to a map before the next is evaluated. -/
def mapEntries (call : CallOf ν) (entries : Entries ν) : List (Expr ν × Expr ν) → EvalOf ν (Entries ν)
  | [] => return entries
  | (key, value) :: rest => do
    let k ← expr call key
    let v ← expr call value
    -- keys are compared as they are now; a later key or value may change them
    mapEntries call (← addEntry entries k v) rest
termination_by structural es => es

end

/-! ## Statements -/

/-- Binds the names of a loop for one round (the bindings of `Interpreter::exec_for`). -/
def bindItem (first : ν) (second : Option ν) (item : LoopItem ν) : EvalOf ν Unit :=
  modify fun m =>
    let env := m.env.define first item.first
    { m with
      env := match second, item.second with
        | some x, some v => env.define x v
        | _, _ => env }

mutual

/-- Carries out a statement (`Interpreter::exec_stmt`). -/
def stmt (call : CallOf ν) : Stmt ν → EvalOf ν (Completion ν)
  | .expr e span => located span do
    let _ ← expr call e
    return .fellThrough
  | .define x _ value span => located span do
    let v ← expr call value
    modify fun m => { m with env := m.env.define x v }
    return .fellThrough
  | .assign x value span => located span do
    let v ← expr call value
    modify fun m => { m with env := m.env.assign x v }
    return .fellThrough
  | .assignIndex target index value span => located span do
    let t ← expr call target
    let i ← expr call index
    let v ← expr call value
    onStore (t.assignIndex i v)
    return .fellThrough
  | .delete x span => located span do
    deleteName x
    return .fellThrough
  | .function d span => located span do
    modify (Machine.defineFunction d)
    return .fellThrough
  | .ifThen condition thenBranch span => located span do
    let c ← expr call condition
    if c.isTruthy (← get).store then block call thenBranch else return .fellThrough
  | .ifElse condition thenBranch elseBranch span => located span do
    let c ← expr call condition
    if c.isTruthy (← get).store then block call thenBranch else block call elseBranch
  | .forEach first second iterable (.mk body _) span => located span do
    let v ← expr call iterable
    -- the items are listed once: what a round does to the collection adds no rounds
    let items ← ofExcept (v.loopItems (← get).store second.isSome)
    forEach (fun item => inBlock do
      bindItem first second item
      stmts call body) items
  | .giveBack none span => located span (return .returned .none)
  | .giveBack (some e) span => located span do
    return .returned (← expr call e)
termination_by structural s => s

/-- Carries out statements in the current scope, until there are no more or one returns
(`Interpreter::exec_stmts`). -/
def stmts (call : CallOf ν) : List (Stmt ν) → EvalOf ν (Completion ν)
  | [] => return .fellThrough
  | s :: rest => do
    match ← stmt call s with
    | .fellThrough => stmts call rest
    | .returned v => return .returned v
termination_by structural ss => ss

/-- Carries out a block in a scope of its own (`Interpreter::exec_block`). -/
def block (call : CallOf ν) : Block ν → EvalOf ν (Completion ν)
  | .mk body _ => inBlock (stmts call body)
termination_by structural b => b

end

/-! ## Bodies of functions -/

/-- Calls a function whose body is carried out by `body` (`Interpreter::call_function`). -/
def callWith (body : FunctionDef ν → EvalOf ν (Completion ν)) : CallOf ν := fun f args span =>
  duringCall f args span (body f.definition)

/-- How many levels of calls share one stack of the machine that runs the evaluator. -/
def levelsPerStack : Nat := 250

/-- A result computed on a stack of its own, so that deep levels do not exhaust one stack
(`ensure_sufficient_stack`). -/
def onFreshStack {α : Type} (compute : Unit → α) : α := (Task.spawn compute .dedicated).get

/-- Carries out the body of a function in which calls nest less than `room` deep. There is no body to
carry out where there is no room, since the call has failed before. -/
def bodyWithin : (room : Nat) → FunctionDef ν → EvalOf ν (Completion ν)
  | 0, _ => fun m => fail (.tooDeep m.calls.limit) m
  | room + 1, d => fun m =>
    -- a body may call with one level less of room, so the levels run out with the calls
    let run (_ : Unit) := stmts (callWith (bodyWithin room)) d.body.stmts m
    if room % levelsPerStack = 1 then onFreshStack run else run ()

/-- Calls a function in a state where so many calls may still begin. -/
def callWithin (room : Nat) : CallOf ν := callWith (bodyWithin room)

end Eval

namespace Machine

/-- Runs a program in the current scope (`Interpreter::run`). A `return` outside of all functions ends
it. -/
def run {ν : Type} [DecidableEq ν] [Naming ν] (m : Machine ν) (program : Block ν) :
    EStateM.Result Stop (Machine ν) Unit :=
  match Eval.stmts (Eval.callWithin m.calls.room) program.stmts m with
  | .ok _ m => .ok () m
  | .error stop m => .error stop m

end Machine
end Nikl
