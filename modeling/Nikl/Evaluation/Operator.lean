import Nikl.Decimal.Double
import Nikl.Evaluation.Error
import Nikl.Value.Equality

/-
What operators do. Equality takes any two values. Everything else is for numbers, where an integer
beside a floating-point number is turned into one, for two texts, and for two arrays, which `+` joins
into a new one.
-/

set_option autoImplicit false

namespace Nikl

/-- Work on the collections of a program, which may stop. -/
abbrev StoreMOf (ν : Type) := EStateM Stop (Store ν)

/-- Such work where names are texts. -/
abbrev StoreM := StoreMOf String

namespace StoreM

variable {ν : Type}

/-- Stops with a fault. -/
def fail {α : Type} (fault : EvalFault) : StoreMOf ν α := throw (.ofFault fault)

/-- A result, or a stop where it was never settled. -/
def ofSettled {α : Type} : Settled α → StoreMOf ν α
  | some a => pure a
  | none => throw .endless

/-- Makes a new array. -/
def newArray (items : List (Value ν)) : StoreMOf ν (Value ν) :=
  modifyGet fun s => (.array s.next, s.push (.array items))

/-- Makes a new map. -/
def newMap (entries : Entries ν) : StoreMOf ν (Value ν) :=
  modifyGet fun s => (.map s.next, s.push (.map entries))

end StoreM

namespace BinaryOp

variable {ν : Type}

/-- What an ordering says of two operands that compare in a given way (`compare`). -/
def holds (op : BinaryOp) (o : Ordering) : Bool :=
  match op with
  | less => o.isLT
  | lessEqual => o.isLE
  | greater => o.isGT
  | greaterEqual => o.isGE
  | _ => false

/-- A result of integer arithmetic, or the fault that there is none (`checked_arith`). -/
def checked (operation : Arithmetic) : Option Int64 → Except EvalFault (Value ν)
  | some n => .ok (.int n)
  | none => .error (.overflow operation)

/-- An operator on two integers (`eval_int_binary`). -/
def onInts (op : BinaryOp) (a b : Int64) : Except EvalFault (Value ν) :=
  match op with
  | add => checked .addition (Arithmetic.fit? (a.toInt + b.toInt))
  | sub => checked .subtraction (Arithmetic.fit? (a.toInt - b.toInt))
  | mul => checked .multiplication (Arithmetic.fit? (a.toInt * b.toInt))
  | div => if b = 0 then .error .divisionByZero else checked .division (Arithmetic.quotient? a b)
  | mod => if b = 0 then .error .moduloByZero else checked .remainder (Arithmetic.remainder? a b)
  | _ => .ok (.bool (op.holds (compare a.toInt b.toInt)))

/-- What an ordering says of two floating-point numbers: nothing holds of one that is not a number (the
comparisons of `eval_float_binary`). -/
def holdsOfFloats (op : BinaryOp) (a b : Float) : Bool :=
  match op with
  | less => a < b
  | lessEqual => a ≤ b
  | greater => b < a
  | greaterEqual => b ≤ a
  | _ => false

/-- An operator on two floating-point numbers (`eval_float_binary`). -/
def onFloats (op : BinaryOp) (a b : Float) : Except EvalFault (Value ν) :=
  match op with
  | add => .ok (.float (a + b))
  | sub => .ok (.float (a - b))
  | mul => .ok (.float (a * b))
  | div => if b == 0 then .error .divisionByZero else .ok (.float (a / b))
  | mod => if b == 0 then .error .moduloByZero else .ok (.float (Decimal.remainder a b))
  | _ => .ok (.bool (op.holdsOfFloats a b))

/-- An operator on two texts, which are ordered by their characters (`eval_string_binary`). -/
def onStrings (op : BinaryOp) (a b : String) : Except EvalFault (Value ν) :=
  if op = add then .ok (.string (a ++ b))
  else if op.isOrdering then .ok (.bool (op.holds (compareOfLessAndEq a b)))
  else .error (.operand .string op)

/-- The fault of an operator that is not for two values (`mismatch`). -/
def mismatch (op : BinaryOp) (l r : Kind) : EvalFault :=
  if l = r then .operand l op else .operands l r op

/-- An operator other than equality and the joining of arrays (the cases of `evaluate_binary`, with
`promote`). -/
def onScalars (op : BinaryOp) : Value ν → Value ν → Except EvalFault (Value ν)
  | .int a, .int b => op.onInts a b
  | .float a, .float b => op.onFloats a b
  | .int a, .float b => op.onFloats a.toFloat b
  | .float a, .int b => op.onFloats a b.toFloat
  | .string a, .string b => op.onStrings a b
  | l, r => .error (op.mismatch l.kind r.kind)

/-- The two arrays that an operator joins. -/
def joined? (op : BinaryOp) : Value ν → Value ν → Option (Ref × Ref)
  | .array r, .array q => if op = add then some (r, q) else none
  | _, _ => none

/-- What an operator makes of two values (`evaluate_binary`). -/
def apply (op : BinaryOp) (l r : Value ν) : StoreMOf ν (Value ν) := do
  let s ← get
  -- equality comes first, since it is for operands of any two kinds
  if op = equal then return .bool (← StoreM.ofSettled (l.equal? s r))
  else if op = notEqual then return .bool (!(← StoreM.ofSettled (l.equal? s r)))
  else
    match op.joined? l r with
    | some (left, right) => StoreM.newArray (s.items left ++ s.items right)
    | none =>
      match op.onScalars l r with
      | .ok v => return v
      | .error fault => StoreM.fail fault

end BinaryOp

namespace UnaryOp

variable {ν : Type}

/-- What an operator makes of a value (`evaluate_unary`). -/
def apply (op : UnaryOp) (v : Value ν) : StoreMOf ν (Value ν) :=
  match op, v with
  | .not, v => return .bool (!v.isTruthy (← get))
  | .neg, .int n =>
    match Arithmetic.fit? (-n.toInt) with
    | some m => return .int m
    | none => StoreM.fail (.overflow .negation)
  | .neg, .float x => return .float (-x)
  | .neg, v => StoreM.fail (.unaryOperand v.kind .neg)

end UnaryOp
end Nikl
