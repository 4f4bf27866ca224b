/-
A table that numbers texts in the order of their first appearance. The empty text comes first, with
number zero. Asking twice for the number of a text gives the same number, and no number is given to
two texts.

The table is kept from both sides: the texts in the order of their numbers, and for every text its number.
-/

set_option autoImplicit false

namespace Nikl

/-- The number of a text (`Name`). -/
structure Name where
  index : Nat
  deriving DecidableEq, Repr

/-- The written form of a number (`Name::fmt`). -/
def Name.text (n : Name) : String := s!"Name({n.index})"

/-- The texts that have a number (`StringInterner`, with the two sides of its `InternTable`). -/
structure Interner where
  /-- Texts with their numbers, the latest first. -/
  numbers : List (String × Nat)
  /-- Texts in the order of their numbers. -/
  texts : Array String
  deriving DecidableEq, Repr

namespace Interner

/-- The table that knows only the empty text (`StringInterner::new`). -/
def empty : Interner := ⟨[("", 0)], #[""]⟩

/-- How many texts have a number (`StringInterner::len`). -/
def size (table : Interner) : Nat := table.texts.size

/-- Whether no text has a number (`StringInterner::is_empty`). -/
def isEmpty (table : Interner) : Bool := table.size = 0

/-- The number a text has, if it has one (the look at `InternTable::map`). -/
def find? (table : Interner) (s : String) : Option Name := (table.numbers.lookup s).map Name.mk

/-- The text of a number; a number that was not given out has the empty text
(`StringInterner::lookup`). -/
def lookup (table : Interner) (n : Name) : String := table.texts.getD n.index ""

/-- The next number, which is given to a text. -/
def add (table : Interner) (s : String) : Name × Interner :=
  (⟨table.size⟩, ⟨(s, table.size) :: table.numbers, table.texts.push s⟩)

/-- The number of a text that had none a moment ago (the second half of `StringInterner::intern`). It is
looked for again, for the table may have grown in the meantime. -/
def addMissing (table : Interner) (s : String) : Name × Interner :=
  match table.find? s with
  | some name => (name, table)
  | none => table.add s

/-- The number of a text, which is given the next one if it has none (`StringInterner::intern`). -/
def intern (table : Interner) (s : String) : Name × Interner :=
  match table.find? s with
  | some name => (name, table)
  | none => table.addMissing s

/-- The table after numbering some texts in turn. -/
def internAll (table : Interner) (texts : List String) : Interner :=
  texts.foldl (fun t s => (t.intern s).2) table

/-! ## Numbers of limited size -/

/-- How many numbers there are: a number has 32 bits. -/
def capacity : Nat := UInt32.size

/-- The number of a text, or nothing if it has none and no number is left, where
`StringInterner::intern` gives up. -/
def intern? (table : Interner) (s : String) : Option (Name × Interner) :=
  if (table.find? s).isSome || table.size < capacity then some (table.intern s) else none

/-- The numbers of some texts in turn, and the table behind them. -/
def internEach? (table : Interner) : List String → Option (List Name × Interner)
  | [] => some ([], table)
  | s :: rest => do
    let (name, next) ← table.intern? s
    let (names, last) ← next.internEach? rest
    return (name :: names, last)

end Interner
end Nikl
