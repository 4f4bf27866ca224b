import Nikl.Diagnostic.Terminal
import Nikl.Evaluation
import Nikl.Syntax.Statement
import Nikl.Token.Lexer

/-
From source text to what it does. A chunk of source is read as a whole before any of it runs, so a
chunk that cannot be read does nothing. Chunks that run in turn on one machine share its global scope
and its collections, and a chunk that fails leaves behind what it did before.
-/

set_option autoImplicit false

namespace Nikl

/-- Why a chunk of source was not run to its end (`NiklError`). -/
inductive Failure where
  | lex (e : LexError)
  | parse (e : ParseError)
  | eval (e : EvalError)
  /-- Two collections that contain themselves are compared without end. -/
  | endless
  deriving DecidableEq

namespace Failure

/-- What stopped a run. -/
def ofStop : Stop → Failure
  | .error e => eval e
  | .endless => endless

/-- The message behind the word for its class (`NiklError::fmt`). -/
def text : Failure → String
  | lex e => e.text
  | parse e => s!"ParseError: {e.text}"
  | eval e => e.text
  | endless => "a comparison of collections that contain themselves has no end"

/-- The diagnostic of a failure, if it has one (`NiklError::to_diagnostic`). -/
def diagnostic? : Failure → Option Diagnostic
  | lex e => some e.diagnostic
  | parse e => some e.diagnostic
  | eval e => some e.diagnostic
  | endless => none

/-- A failure as it is shown for a source at a path (`report`). -/
def rendered (colors : Bool) (path source : String) (f : Failure) : String :=
  match f.diagnostic? with
  | some d => Terminal.render colors ⟨some path, some (Terminal.Listing.ofString source)⟩ d
  | none => s!"error: {f.text}\n"

end Failure

/-! ## Reading -/

/-- The tokens of a source. -/
def tokensOf (source : String) : Except Failure (List Token) := (lex source).mapError .lex

/-- The tree of a source (`parse_source`). -/
def programOf (source : String) : Except Failure Block := do
  (parse (← tokensOf source)).mapError .parse

/-! ## Running -/

/-- What a chunk of source did. -/
structure Report where
  source : String
  /-- What it printed. -/
  output : String
  result : Except Failure Unit

namespace Machine

/-- Reads a source and runs it (`run_source`). -/
def runSource (source : String) (m : Machine) : Except Failure Unit × Machine :=
  match programOf source with
  | .error f => (.error f, m)
  | .ok program =>
    match m.run program with
    | .ok _ m => (.ok (), m)
    | .error stop m => (.error (.ofStop stop), m)

/-- Runs a chunk of source, and reports what it did. The output begins anew with it. -/
def runChunk (source : String) (m : Machine) : Report × Machine :=
  let (result, m) := { m with output := "" }.runSource source
  (⟨source, m.output, result⟩, m)

/-- Runs chunks in turn, going on after a failure. -/
def runChunks : List String → Machine → List Report × Machine
  | [], m => ([], m)
  | source :: rest, m =>
    let (report, m) := m.runChunk source
    let (reports, m) := m.runChunks rest
    (report :: reports, m)

end Machine
end Nikl
