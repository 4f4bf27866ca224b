import Nikl.Source.Bytes
import Nikl.Source.Span

/-
Lines and columns. A text is cut at its line feeds; lines and columns count from one, and a column
counts characters. The line of an offset is the last one that starts at or before it. Line starts, lines
and columns are held in 32 bits: what is larger than the largest such number is cut to it.

Offsets come from spans and need not fall between characters or inside the text. Such an offset
still has a line; its column is then the first of that line.
-/

set_option autoImplicit false

namespace Nikl.Source

/-- A number as it is held in 32 bits. -/
def saturated (n : Nat) : Nat := min n Span.maxOffset

theorem saturated_eq {n : Nat} (h : n ≤ Span.maxOffset) : saturated n = n := Nat.min_eq_left h

/-- The byte offset at which each line starts, given the offset of the text itself (the loop of
`LineOffsetTable::build`). -/
def lineStartsFrom (offset : Nat) : List Char → List Nat
  | [] => []
  | c :: rest =>
    let next := offset + c.utf8Size
    if c = '\n' then saturated next :: lineStartsFrom next rest else lineStartsFrom next rest

/-- Where the lines of a text start, in order (`LineOffsetTable`). There is always a first line. -/
structure LineTable where
  starts : List Nat
  deriving DecidableEq, Repr

namespace LineTable

/-- The table of a text (`LineOffsetTable::build`). -/
def ofText (text : List Char) : LineTable := ⟨0 :: lineStartsFrom 0 text⟩

/-- How many lines there are (`LineOffsetTable::line_count`). -/
def count (table : LineTable) : Nat := table.starts.length

/-- The line that holds an offset: how many lines start at or before it
(`LineOffsetTable::line_from_offset`). -/
def lineAt (table : LineTable) (offset : Nat) : Nat :=
  saturated (max 1 (table.starts.countP (· ≤ offset)))

/-- Where a line starts; a line the text does not have counts as starting where the text does
(`LineOffsetTable::line_start`). -/
def startOf (table : LineTable) (line : Nat) : Nat := table.starts.getD (line - 1) 0

/-- The line and column of an offset (`LineOffsetTable::offset_to_line_col`). -/
def position (table : LineTable) (text : List Char) (offset : Nat) : Nat × Nat :=
  let line := table.lineAt offset
  -- no cut where the offset falls inside a character: the column is then the first
  let before := slice? text (table.startOf line) (min offset (byteLength text))
  (line, saturated ((before.getD []).length + 1))

/-- The text of a line without its line feed, nor a carriage return before that
(`LineOffsetTable::line_text`). -/
def lineText (table : LineTable) (text : List Char) (line : Nat) : List Char :=
  let rest := (dropBytes? (min (table.startOf line) (byteLength text)) text).getD []
  let content := rest.takeWhile (· ≠ '\n')
  if content.getLast? = some '\r' then content.dropLast else content

end LineTable

/-- The line and column of an offset of a text that needs no other lookup (`span_to_line_col`). -/
def positionIn (text : List Char) (offset : Nat) : Nat × Nat :=
  (LineTable.ofText text).position text offset

end Nikl.Source
