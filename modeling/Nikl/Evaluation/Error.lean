import Nikl.Diagnostic
import Nikl.Evaluation.Arithmetic
import Nikl.Value

/-
Faults found while a program runs. A fault becomes an error when it is thrown; on its way outward the
error takes the place of the innermost expression or statement around the fault, and the calls that
were under way.
-/

set_option autoImplicit false

namespace Nikl

/-! ## Faults -/

/-- What a program did wrong (`EvalErrorKind`). -/
inductive EvalFault where
  | undefined (name : String)
  /-- The name was bound, then deleted, and no scope further out binds it. -/
  | deleted (name : String)
  /-- The name is not bound in the innermost scope. -/
  | cannotDelete (name : String)
  | notCallable (kind : Kind)
  | wrongArity (function : String) (expected got : Nat)
  | tooDeep (limit : Nat)
  /-- Both operands are of the kind. -/
  | operand (kind : Kind) (op : BinaryOp)
  | operands (left right : Kind) (op : BinaryOp)
  | unaryOperand (kind : Kind) (op : UnaryOp)
  | divisionByZero
  | moduloByZero
  | overflow (operation : Arithmetic)
  | noLength (kind : Kind)
  | notIterable (kind : Kind)
  /-- The item of a loop with two names is no pair; its length is told if it has one. -/
  | cannotUnpack (kind : Kind) (length : Option Nat)
  | cannotIndex (target index : Kind)
  | outOfBounds (index : Int64) (length : Nat)
  | keyNotFound (key : String)
  | immutableTuple
  | noItemAssignment (kind : Kind)
  deriving DecidableEq, Repr

/-- The word that stands before a message (`ErrorClass`). -/
inductive FaultClass where
  | nameError | typeError | valueError | stackOverflow
  deriving DecidableEq, Repr

/-- The word for a class (`ErrorClass::as_str`). -/
def FaultClass.text : FaultClass → String
  | nameError => "NameError"
  | typeError => "TypeError"
  | valueError => "ValueError"
  | stackOverflow => "StackOverflow"

namespace EvalFault

/-- The class of a fault (`EvalErrorKind::class`). -/
def faultClass : EvalFault → FaultClass
  | undefined _ | deleted _ | cannotDelete _ => .nameError
  | divisionByZero | moduloByZero | overflow _ | outOfBounds .. | keyNotFound _ => .valueError
  | tooDeep _ => .stackOverflow
  | _ => .typeError

/-- The code that a fault is reported under (`EvalErrorKind::error_code`). -/
def code : EvalFault → Code
  | undefined _ | cannotDelete _ => .undefinedVariable
  | deleted _ => .deletedVariable
  | operand .. | operands .. | unaryOperand .. => .operandMismatch
  | notCallable _ => .notCallable
  | wrongArity .. => .wrongArity
  | noLength _ => .noLength
  | notIterable _ => .notIterable
  | outOfBounds .. => .indexOutOfBounds
  | keyNotFound _ => .keyNotFound
  | divisionByZero | moduloByZero => .zeroDivisor
  | overflow _ => .integerOverflow
  | tooDeep _ => .callDepthExceeded
  | cannotUnpack .. => .cannotUnpack
  | immutableTuple | noItemAssignment _ => .cannotModify
  | cannotIndex .. => .cannotIndex

/-- A number of arguments in words. -/
def argumentCount (n : Nat) : String := if n = 1 then "1 argument" else s!"{n} arguments"

/-- What is said of a fault (`EvalErrorKind::fmt`). -/
def message : EvalFault → String
  | undefined name => s!"undefined variable: {name}"
  | deleted name => s!"name '{name}' was deleted"
  | cannotDelete name => s!"cannot delete '{name}': not bound in the current scope"
  | notCallable kind => s!"{kind.text} is not callable"
  | wrongArity function expected got => s!"{function} expects {argumentCount expected}, got {got}"
  | tooDeep limit => s!"maximum call depth exceeded (limit: {limit})"
  | operand kind op => s!"operator `{op.symbol}` cannot be applied to {kind.text}"
  | operands left right op => s!"operator `{op.symbol}` cannot be applied to {left.text} and {right.text}"
  | unaryOperand kind op => s!"operator `{op.symbol}` cannot be applied to {kind.text}"
  | divisionByZero => "division by zero"
  | moduloByZero => "modulo by zero"
  | overflow operation => s!"integer overflow in {operation.text}"
  | noLength kind => s!"{kind.text} has no length"
  | notIterable kind => s!"{kind.text} is not iterable"
  | cannotUnpack kind none => s!"cannot unpack {kind.text} into two loop variables"
  | cannotUnpack kind (some length) =>
    s!"cannot unpack {kind.text} of length {length} into two loop variables"
  | cannotIndex target index => s!"cannot index {target.text} with {index.text}"
  | outOfBounds index length => s!"index {index.toInt} out of bounds for length {length}"
  | keyNotFound key => s!"key not found: {key}"
  | immutableTuple => "tuples cannot be modified"
  | noItemAssignment kind => s!"{kind.text} does not support item assignment"

/-- The remark on the place of a fault (`EvalErrorKind::label`). -/
def label : EvalFault → String
  | undefined _ => "not found in this scope"
  | deleted _ => "deleted earlier in this scope"
  | cannotDelete _ => "not a local binding"
  | notCallable _ => "called here"
  | wrongArity .. => "in this call"
  | tooDeep _ => "call exceeds the depth limit"
  | divisionByZero | moduloByZero => "divisor is zero"
  | outOfBounds .. | keyNotFound _ => "lookup fails here"
  | _ => "here"

end EvalFault

/-! ## Errors -/

/-- A call that is under way: the function's name, and the call expression if there is one
(`CallFrame`). -/
structure Frame (ν : Type := String) where
  name : ν
  span : Option Span
  deriving DecidableEq, Repr

/-- The call with the text of its function's name, as errors tell it (`BacktraceFrame`). -/
def Frame.told {ν : Type} [Naming ν] (f : Frame ν) : Frame := ⟨Naming.text f.name, f.span⟩

/-- A call whose function's name is a text is told as it is. -/
theorem Frame.map_told (frames : List Frame) : frames.map Frame.told = frames := List.map_id frames

/-- A fault on its way outward (`EvalError`). -/
structure EvalError where
  fault : EvalFault
  span : Option Span := none
  /-- The calls under way where the fault was found, the latest first; none outside of calls. -/
  backtrace : Option (List Frame) := none
  deriving DecidableEq, Repr

namespace EvalError

/-- The error as seen from a construct around it, whose place counts only if no inner one did
(`EvalError::or_span`). -/
def orSpan (span : Span) (e : EvalError) : EvalError := { e with span := some (e.span.getD span) }

def code (e : EvalError) : Code := e.fault.code

def message (e : EvalError) : String := e.fault.message

/-- The message behind the word for its class (`EvalError::fmt`). -/
def text (e : EvalError) : String := s!"{e.fault.faultClass.text}: {e.message}"

/-- How many calls a diagnostic tells one by one (`MAX_BACKTRACE_NOTES`). -/
def shownCalls : Nat := 8

/-- The notes on the calls of a backtrace. -/
def callNotes (frames : List Frame) : List String :=
  (frames.take shownCalls).map (fun f => s!"in call to `{f.name}`") ++
    if shownCalls < frames.length then [s!"... and {frames.length - shownCalls} more calls"] else []

/-- The diagnostic of an error (`EvalError::to_diagnostic`). -/
def diagnostic (e : EvalError) : Diagnostic where
  code := e.code
  message := e.text
  labels := (e.span.map fun span => Label.mk span e.fault.label true).toList
  notes := (e.backtrace.map callNotes).getD []

end EvalError

/-! ## Ways to stop -/

/-- Why a run does not come to its regular end. -/
inductive Stop where
  | error (e : EvalError)
  /-- Two collections that contain themselves are compared without end. -/
  | endless
  deriving DecidableEq, Repr

namespace Stop

/-- A fault that has just been found. -/
def ofFault (fault : EvalFault) : Stop := .error ⟨fault, none, none⟩

/-- The same stop with something done to its error. -/
def mapError (f : EvalError → EvalError) : Stop → Stop
  | error e => error (f e)
  | endless => endless

end Stop
end Nikl
