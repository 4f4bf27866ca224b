import Nikl.Session

/-
Sessions whose names are numbers. The table of the numbers is part of the state: the names and strings of
a source are numbered while it is read into tokens, and from there on its tokens, its tree, the functions
it makes, the scopes and the calls under way hold numbers. Texts come back where something is shown: in
the strings that a program works with, in what functions are written as, and in errors.
-/

set_option autoImplicit false

namespace Nikl

/-- Numbers as names: each stands for its text in a table. -/
abbrev Interner.naming (table : Interner) : Naming Name := ⟨table.lookup⟩

/-- The table of the numbers, and the state of the program (`Interpreter` with its `StringInterner`). -/
structure Interpreter where
  table : Interner
  machine : Machine Name

namespace Interpreter

/-- Numbers the name of a built-in function and binds it in the global scope (`register`). -/
def register (b : Builtin) (i : Interpreter) : Interpreter :=
  let (n, table) := i.table.intern b.name
  ⟨table, { i.machine with env := i.machine.env.defineGlobal n (.builtin b) }⟩

/-- The state before a first program, with a limit on nested calls (`InterpreterBuilder::build`). -/
def ofLimit (limit : Nat) : Interpreter :=
  Builtin.all.foldl (fun i b => i.register b) ⟨.empty, { env := {}, calls := .ofLimit limit }⟩

/-- Reads a source into a tree (`parse_source`). Whatever of it is read is numbered, also where the
reading fails. -/
def read (source : String) (table : Interner) : Except Failure (Block Name) × Interner :=
  match lexInto table source with
  | (.error e, table) => (.error (.lex e), table)
  | (.ok tokens, table) => ((parse tokens).mapError fun e => .parse (e.rename table.lookup), table)

/-- Reads a source and runs it (`run_source`). -/
def runSource (source : String) (i : Interpreter) : Except Failure Unit × Interpreter :=
  match read source i.table with
  | (.error f, table) => (.error f, { i with table := table })
  | (.ok program, table) =>
    have : Naming Name := table.naming
    match i.machine.run program with
    | .ok _ m => (.ok (), ⟨table, m⟩)
    | .error stop m => (.error (.ofStop stop), ⟨table, m⟩)

/-- Runs a chunk of source, and reports what it did. The output begins anew with it. -/
def runChunk (source : String) (i : Interpreter) : Report × Interpreter :=
  let (result, i) := { i with machine := { i.machine with output := "" } }.runSource source
  (⟨source, i.machine.output, result⟩, i)

/-- Runs chunks in turn, going on after a failure. -/
def runChunks : List String → Interpreter → List Report × Interpreter
  | [], i => ([], i)
  | source :: rest, i =>
    let (report, i) := i.runChunk source
    let (reports, i) := i.runChunks rest
    (report :: reports, i)

end Interpreter
end Nikl
