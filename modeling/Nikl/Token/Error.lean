import Nikl.Diagnostic

/-
Faults found while a source text is read into tokens.
-/

set_option autoImplicit false

namespace Nikl

/-- What is wrong with a lexeme (the cases of `LexError`). -/
inductive LexFault where
  /-- A string without a closing quote on its line. -/
  | unterminatedString
  /-- A character that begins no lexeme. -/
  | unexpectedChar (char : Char)
  /-- An integer too large for its type. -/
  | invalidNumber (text : String)
  /-- A backslash in a string before a character that makes no escape. -/
  | invalidEscape (char : Char)
  deriving DecidableEq, Repr

/-- A fault and where it lies (`LexError`). -/
structure LexError where
  fault : LexFault
  span : Span
  deriving DecidableEq, Repr

namespace LexFault

/-- What is said of a fault (`LexError::fmt`). -/
def message : LexFault → String
  | unterminatedString => "unterminated string literal"
  | unexpectedChar c => s!"unexpected character `{c}`"
  | invalidNumber text => s!"invalid number literal `{text}`"
  | invalidEscape c => s!"invalid escape sequence `\\{c}`"

/-- The code that a fault is reported under (`LexError::code`). -/
def code : LexFault → Code
  | unterminatedString => .unterminatedString
  | unexpectedChar _ => .invalidCharacter
  | invalidNumber _ => .invalidNumber
  | invalidEscape _ => .invalidEscape

/-- The remark on the place of a fault. -/
def label : LexFault → String
  | unterminatedString => "string starts here"
  | unexpectedChar _ => "not valid here"
  | invalidNumber _ => "does not fit in a 64-bit integer"
  | invalidEscape _ => "unknown escape"

/-- Further help. -/
def notes : LexFault → List String
  | invalidEscape _ => ["valid escapes are \\n \\t \\r \\\\ \\\" and \\0"]
  | _ => []

end LexFault

namespace LexError

def message (e : LexError) : String := e.fault.message

def code (e : LexError) : Code := e.fault.code

/-- The message behind the name of its class. -/
def text (e : LexError) : String := s!"LexError: {e.message}"

/-- The diagnostic of an error (`LexError::to_diagnostic`). -/
def diagnostic (e : LexError) : Diagnostic where
  code := e.code
  message := e.text
  labels := [⟨e.span, e.fault.label, true⟩]
  notes := e.fault.notes

end LexError
end Nikl
