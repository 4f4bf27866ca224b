import Nikl.Diagnostic
import Nikl.Source.Lines

/-
Diagnostics for a terminal. A diagnostic becomes a row of pieces of text, each in a style; the row is
the same whether or not colours are shown, so colours are nothing but decoration around the pieces.

A label whose source is known is shown under its line: a gutter with the line number, the line, and
a run of marks under the labelled characters. Spans count bytes and lines count characters, so the
run starts at the label's column and is cut at the end of the line; it has at least one mark.
-/

set_option autoImplicit false

namespace Nikl.Terminal

open Nikl.Source

/-- How a piece of text looks (the constants of `colors`). -/
inductive Style where
  | plain | error | warning | note | bold | secondary
  deriving DecidableEq, Repr

/-- The numbers that switch a style on. -/
def Style.parameters : Style → String
  | plain => "0"
  | error => "1;31"
  | warning => "1;33"
  | note => "1;36"
  | bold => "1"
  | secondary => "1;34"

/-- A text in one style. -/
structure Piece where
  style : Style
  text : String
  deriving DecidableEq, Repr

/-- The terminal's instruction that changes the style of what follows. -/
def switch (parameters : String) : String := "\x1b[" ++ parameters ++ "m"

/-- A piece as it is written: a styled one between two instructions if colours are shown
(`TerminalEmitter::write_colored`). -/
def Piece.write (colors : Bool) (p : Piece) : String :=
  if colors ∧ p.style ≠ .plain then switch p.style.parameters ++ p.text ++ switch "0" else p.text

/-- A text in no particular style. -/
def plain (text : String) : Piece := ⟨.plain, text⟩

/-- A source with its lines found (`SourceContext`). -/
structure Listing where
  text : List Char
  table : LineTable

/-- A source with its lines (`TerminalEmitter::with_source`). -/
def Listing.ofString (source : String) : Listing :=
  ⟨source.toList, LineTable.ofText source.toList⟩

/-- What a diagnostic is shown against: the path and the source, where they are known (the fields of
`TerminalEmitter`). -/
structure View where
  path : Option String := none
  listing : Option Listing := none

def View.pathText (view : View) : String := view.path.getD "<input>"

/-- Where a label points: line and column if the source is known, else the span
(`TerminalEmitter::location`). -/
def View.location (view : View) (l : Label) : String :=
  match view.listing with
  | some listing =>
    let (line, column) := listing.table.position listing.text l.span.start
    s!"{view.pathText}:{line}:{column}"
  | none => s!"{view.pathText}:{l.span.text}"

/-- A line of the source with the label that is shown under it. -/
structure Snippet where
  line : Nat
  column : Nat
  content : List Char

/-- The line a label starts in (`TerminalEmitter::snippet`). A label that starts past the end of the
source has none. -/
def View.snippet? (view : View) (l : Label) : Option Snippet :=
  view.listing.bind fun listing =>
    if byteLength listing.text < l.span.start then none
    else
      let (line, column) := listing.table.position listing.text l.span.start
      some ⟨line, column, listing.table.lineText listing.text line⟩

/-- How many marks stand under a label (`label_width`). -/
def underlineWidth (size : Nat) (content : List Char) (column : Nat) : Nat :=
  max (min size (content.length - (column - 1))) 1

/-- Copies of a character in a row. -/
def repeated (c : Char) (n : Nat) : String := String.ofList (List.replicate n c)

/-- The marks and the remark under the line of a label. -/
def underline (l : Label) (snippet : Snippet) : Piece :=
  let marks :=
    repeated (if l.primary then '^' else '-') (underlineWidth l.span.size snippet.content snippet.column)
  ⟨if l.primary then .error else .secondary, if l.message.isEmpty then marks else s!"{marks} {l.message}"⟩

/-- The pieces of a label (`TerminalEmitter::write_label`). -/
def labelPieces (view : View) (l : Label) : List Piece :=
  [plain (if l.primary then "  --> " else "  ::: "), ⟨.bold, view.location l⟩, plain "\n"] ++
    match view.snippet? l with
    | none => if l.message.isEmpty then [] else [plain s!"      {l.message}\n"]
    | some snippet =>
      -- the lines around the source line are as wide as its number
      let gutter := toString snippet.line
      let pad := repeated ' ' gutter.length
      [plain s!" {pad} |\n {gutter} | {String.ofList snippet.content}\n",
       plain (s!" {pad} | " ++ repeated ' ' (snippet.column - 1)), underline l snippet, plain "\n"]

/-- The style of a severity (`TerminalEmitter::write_severity`). -/
def severityStyle : Severity → Style
  | .error => .error
  | .warning => .warning
  | .note => .note

/-- The pieces of a diagnostic: the headline, the labels, the notes (`TerminalEmitter::emit`). -/
def pieces (view : View) (d : Diagnostic) : List Piece :=
  [⟨severityStyle d.severity, d.severity.text⟩, ⟨.bold, s!"[{d.code.text}]"⟩, plain s!": {d.message}\n"] ++
    d.labels.flatMap (labelPieces view) ++
    d.notes.flatMap (fun n => [plain "  = ", ⟨.note, "note"⟩, plain s!": {n}\n"])

/-- What is written for a diagnostic. -/
def render (colors : Bool) (view : View) (d : Diagnostic) : String :=
  String.join ((pieces view d).map (Piece.write colors))

/-- What is written for several diagnostics in turn (`DiagnosticEmitter::emit_all`). -/
def renderAll (colors : Bool) (view : View) (ds : List Diagnostic) : String :=
  String.join (ds.map (render colors view))

end Nikl.Terminal
