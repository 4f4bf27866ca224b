import Nikl.Diagnostic.Code
import Nikl.Source.Span

/-
Diagnostics: what went wrong, where, and what else there is to say. Every stage turns its own kind of
fault into one of these, so that faults of all stages are shown alike.
-/

set_option autoImplicit false

namespace Nikl

/-- How grave a diagnostic is (`Severity`). -/
inductive Severity where
  | error | warning | note
  deriving DecidableEq, Repr

/-- The word for a severity (`Severity::fmt`). -/
def Severity.text : Severity → String
  | error => "error"
  | warning => "warning"
  | note => "note"

/-- A place in the source with a remark (`Label`). The primary labels are where the fault lies; the
others give context. -/
structure Label where
  span : Span
  message : String
  primary : Bool := true
  deriving DecidableEq, Repr

/-- A fault as it is reported (`Diagnostic`). -/
structure Diagnostic where
  code : Code
  severity : Severity := .error
  message : String
  labels : List Label := []
  notes : List String := []
  deriving DecidableEq, Repr

namespace Diagnostic

/-- The place of the first primary label (`Diagnostic::primary_span`). -/
def primarySpan? (d : Diagnostic) : Option Span :=
  (d.labels.find? (·.primary)).map (·.span)

/-- Whether it reports an error (`Diagnostic::is_error`). -/
def isError (d : Diagnostic) : Bool := d.severity = .error

/-- A label in the plain form. -/
def labelText (l : Label) : String :=
  let marker := if l.primary then "-->" else "   "
  s!"\n  {marker} {l.span.text}: {l.message}"

/-- The plain form: a headline, then a line for each label and each note, without the source
(`Diagnostic::fmt`). -/
def text (d : Diagnostic) : String :=
  s!"{d.severity.text}[{d.code.text}]: {d.message}" ++
    String.join (d.labels.map labelText) ++
    String.join (d.notes.map (fun n => s!"\n  = note: {n}"))

end Diagnostic
end Nikl
