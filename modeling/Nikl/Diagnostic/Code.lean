/-
The numbered causes of a diagnostic. The first digit of a code tells the stage that found the fault:
0 for reading lexemes, 1 for reading the tree, 6 for running it.
-/

set_option autoImplicit false

namespace Nikl

/-- What a diagnostic is about (`ErrorCode`). -/
inductive Code where
  | unterminatedString | invalidCharacter | invalidNumber | invalidEscape
  | unexpectedToken | expectedExpression | unclosedDelimiter | expectedIdentifier | expectedType
  | invalidAssignmentTarget
  | undefinedVariable | deletedVariable | operandMismatch | notCallable | wrongArity | noLength
  | notIterable | indexOutOfBounds | keyNotFound | zeroDivisor | integerOverflow | callDepthExceeded
  | cannotUnpack | cannotModify | cannotIndex
  deriving DecidableEq, Repr

/-- The stage whose fault a code reports. -/
inductive Stage where
  | lexing | parsing | running
  deriving DecidableEq, Repr

namespace Code

/-- Every code, in the order of their numbers. -/
def all : List Code :=
  [unterminatedString, invalidCharacter, invalidNumber, invalidEscape,
   unexpectedToken, expectedExpression, unclosedDelimiter, expectedIdentifier, expectedType,
   invalidAssignmentTarget,
   undefinedVariable, deletedVariable, operandMismatch, notCallable, wrongArity, noLength,
   notIterable, indexOutOfBounds, keyNotFound, zeroDivisor, integerOverflow, callDepthExceeded,
   cannotUnpack, cannotModify, cannotIndex]

/-- The number of a code as it is shown (`ErrorCode::as_str`). -/
def text : Code → String
  | unterminatedString => "E0001"
  | invalidCharacter => "E0002"
  | invalidNumber => "E0003"
  | invalidEscape => "E0004"
  | unexpectedToken => "E1001"
  | expectedExpression => "E1002"
  | unclosedDelimiter => "E1003"
  | expectedIdentifier => "E1004"
  | expectedType => "E1005"
  | invalidAssignmentTarget => "E1006"
  | undefinedVariable => "E6001"
  | deletedVariable => "E6002"
  | operandMismatch => "E6003"
  | notCallable => "E6004"
  | wrongArity => "E6005"
  | noLength => "E6006"
  | notIterable => "E6007"
  | indexOutOfBounds => "E6008"
  | keyNotFound => "E6009"
  | zeroDivisor => "E6010"
  | integerOverflow => "E6011"
  | callDepthExceeded => "E6012"
  | cannotUnpack => "E6013"
  | cannotModify => "E6014"
  | cannotIndex => "E6015"

/-- The code with a given number. -/
def ofText? (s : String) : Option Code := all.find? (fun c => c.text == s)

/-- A few words on the faults that share a code (`ErrorCode::description`). -/
def description : Code → String
  | unterminatedString => "unterminated string literal"
  | invalidCharacter => "invalid character in source"
  | invalidNumber => "invalid number literal"
  | invalidEscape => "invalid escape sequence"
  | unexpectedToken => "unexpected token"
  | expectedExpression => "expected expression"
  | unclosedDelimiter => "unclosed delimiter"
  | expectedIdentifier => "expected identifier"
  | expectedType => "expected type name"
  | invalidAssignmentTarget => "invalid assignment target"
  | undefinedVariable => "undefined variable"
  | deletedVariable => "variable was deleted"
  | operandMismatch => "operator applied to incompatible values"
  | notCallable => "value is not callable"
  | wrongArity => "wrong number of arguments"
  | noLength => "value has no length"
  | notIterable => "value is not iterable"
  | indexOutOfBounds => "index out of bounds"
  | keyNotFound => "key not found"
  | zeroDivisor => "division by zero"
  | integerOverflow => "integer overflow"
  | callDepthExceeded => "maximum call depth exceeded"
  | cannotUnpack => "loop destructuring mismatch"
  | cannotModify => "tuples cannot be modified"
  | cannotIndex => "value cannot be indexed"

/-- The stage that reports a code (`ErrorCode::is_lexer_error`, `is_parser_error`,
`is_runtime_error`). -/
def stage : Code → Stage
  | unterminatedString | invalidCharacter | invalidNumber | invalidEscape => .lexing
  | unexpectedToken | expectedExpression | unclosedDelimiter | expectedIdentifier | expectedType
  | invalidAssignmentTarget => .parsing
  | _ => .running

/-- The list of codes leaves none out. -/
theorem mem_all (c : Code) : c ∈ all := by cases c <;> decide

end Code
end Nikl
