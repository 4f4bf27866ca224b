import Nikl.Diagnostic
import Nikl.Naming
import Nikl.Token

/-
Faults found while tokens are read into a tree. A fault lies at the token that could not be accepted,
and tells what was being read at that moment: the innermost construct that keeps account of it.
-/

set_option autoImplicit false

namespace Nikl

/-- What was being read (`ErrorContext`). -/
inductive Context where
  | functionDefinition | functionParameters | letBinding | assignment | ifStatement | forLoop
  | returnStatement | delStatement | block | functionCall | indexExpression | arrayLiteral
  | mapLiteral | tupleLiteral | declaredType
  deriving DecidableEq, Repr

/-- The phrase that follows "while parsing" (`ErrorContext::description`). -/
def Context.phrase : Context → String
  | functionDefinition => "a function definition"
  | functionParameters => "function parameters"
  | letBinding => "a let binding"
  | assignment => "an assignment"
  | ifStatement => "an if statement"
  | forLoop => "a for loop"
  | returnStatement => "a return statement"
  | delStatement => "a del statement"
  | block => "a block"
  | functionCall => "a function call"
  | indexExpression => "an index expression"
  | arrayLiteral => "an array literal"
  | mapLiteral => "a map literal"
  | tupleLiteral => "a tuple literal"
  | declaredType => "a type annotation"

/-- Why a token could not be accepted (`ParseError::expected_token` and the others that make one). -/
inductive ParseFault (ν : Type := String) where
  | expectedToken (expected found : TokenKind ν)
  | expectedExpression (found : TokenKind ν)
  | expectedIdentifier (found : TokenKind ν)
  | expectedType (found : TokenKind ν)
  /-- Between the items of a list that `terminator` closes. -/
  | expectedSeparator (terminator found : TokenKind ν)
  /-- The text ended before `close`, which the delimiter at `opener` asks for. -/
  | unclosed (close : TokenKind ν) (opener : Span)
  | invalidAssignmentTarget
  | duplicateParameter (name : ν)
  deriving DecidableEq

namespace ParseFault

variable {ν : Type}

/-- The code that a fault is reported under (`ParseError::code`). -/
def code : ParseFault ν → Code
  | expectedToken .. | expectedSeparator .. | duplicateParameter .. => .unexpectedToken
  | expectedExpression .. => .expectedExpression
  | expectedIdentifier .. => .expectedIdentifier
  | expectedType .. => .expectedType
  | unclosed .. => .unclosedDelimiter
  | invalidAssignmentTarget => .invalidAssignmentTarget

/-- What is said of a fault (`ParseError::message`). -/
def message [Naming ν] : ParseFault ν → String
  | expectedToken expected found => s!"expected {expected.displayName}, found {found.displayName}"
  | expectedExpression found => s!"expected expression, found {found.displayName}"
  | expectedIdentifier found => s!"expected identifier, found {found.displayName}"
  | expectedType found => s!"expected type name, found {found.displayName}"
  | expectedSeparator terminator found =>
    s!"expected `,` or {terminator.displayName}, found {found.displayName}"
  | unclosed close _ => s!"unclosed delimiter: expected {close.displayName}"
  | invalidAssignmentTarget => "invalid assignment target"
  | duplicateParameter name => s!"duplicate parameter `{Naming.text name}`"

/-- The delimiter that was left open (`ParseError::opener`). -/
def opener? : ParseFault ν → Option Span
  | unclosed _ opener => some opener
  | _ => none

/-- Further help (`ParseError::help`). -/
def help : ParseFault ν → List String
  | expectedType _ => ["type names are Int, Float, String, Bool, Array, HashMap, Tuple and None"]
  | invalidAssignmentTarget => ["only names and index expressions like `a[i]` can be assigned to"]
  | _ => []

/-- The same fault with other names in it. -/
def rename {μ : Type} (g : ν → μ) : ParseFault ν → ParseFault μ
  | expectedToken expected found => expectedToken (expected.rename g) (found.rename g)
  | expectedExpression found => expectedExpression (found.rename g)
  | expectedIdentifier found => expectedIdentifier (found.rename g)
  | expectedType found => expectedType (found.rename g)
  | expectedSeparator terminator found => expectedSeparator (terminator.rename g) (found.rename g)
  | unclosed close opener => unclosed (close.rename g) opener
  | invalidAssignmentTarget => invalidAssignmentTarget
  | duplicateParameter name => duplicateParameter (g name)

end ParseFault

/-- A fault, where it lies, and what was being read (`ParseError`). -/
structure ParseError (ν : Type := String) where
  fault : ParseFault ν
  span : Span
  context : Option Context := none
  deriving DecidableEq

namespace ParseError

variable {ν : Type}

/-- The error as seen from a construct around it, which counts only if no inner one did
(`ParseError::or_context`). -/
def orContext (context : Context) (e : ParseError ν) : ParseError ν :=
  { e with context := some (e.context.getD context) }

/-- The same error with other names in it. -/
def rename {μ : Type} (g : ν → μ) (e : ParseError ν) : ParseError μ :=
  ⟨e.fault.rename g, e.span, e.context⟩

def code (e : ParseError ν) : Code := e.fault.code

def message [Naming ν] (e : ParseError ν) : String := e.fault.message

/-- The message and what was being read (`ParseError::fmt`). -/
def text [Naming ν] (e : ParseError ν) : String :=
  match e.context with
  | some context => s!"{e.message} (while parsing {context.phrase})"
  | none => e.message

/-- The diagnostic of an error (`ParseError::to_diagnostic`). -/
def diagnostic [Naming ν] (e : ParseError ν) : Diagnostic where
  code := e.code
  message := s!"ParseError: {e.message}"
  labels :=
    ⟨e.span, (e.context.map fun c => s!"while parsing {c.phrase}").getD "here", true⟩ ::
      (e.fault.opener?.map fun opener => Label.mk opener "unclosed delimiter opened here" false).toList
  notes := e.fault.help

end ParseError
end Nikl
