/-
When diagnostics are coloured.
-/

set_option autoImplicit false

namespace Nikl

/-- The choice between coloured and plain diagnostics (`ColorMode`). -/
inductive ColorMode where
  | auto | always | never
  deriving DecidableEq, Repr

namespace ColorMode

/-- Whether to colour, given whether the output is a terminal (`ColorMode::should_use_colors`). -/
def usesColors (mode : ColorMode) (terminal : Bool) : Bool :=
  match mode with
  | auto => terminal
  | always => true
  | never => false

/-- The mode a word asks for (`ColorMode::parse`). -/
def ofText? (s : String) : Option ColorMode :=
  if s = "auto" then some auto
  else if s = "always" then some always
  else if s = "never" then some never
  else none

/-- The name of a mode. -/
def label : ColorMode → String
  | auto => "Auto"
  | always => "Always"
  | never => "Never"

end ColorMode
end Nikl
