import Nikl.Diagnostic.Color

/-
The arguments of the command line: options, which may stand anywhere, and the words that are left,
which name a command and a path.
-/

set_option autoImplicit false

namespace Nikl

/-- Why the arguments make no command (the errors of `parse_args`). -/
inductive UsageError where
  | invalidMaxDepth (value : String)
  | invalidColor (value : String)
  | unknownOption (arg : String)
  | unexpectedArgument (arg : String)
  deriving DecidableEq, Repr

def UsageError.message : UsageError → String
  | invalidMaxDepth value => s!"invalid --max-depth value '{value}'"
  | invalidColor value => s!"invalid --color value '{value}' (expected auto, always or never)"
  | unknownOption arg => s!"unknown option '{arg}'"
  | unexpectedArgument arg => s!"unexpected argument '{arg}'"

/-- Options, and the words that are left (`RunOptions`, `CliArgs`). -/
structure Options where
  maxDepth : Nat := 10000
  color : ColorMode := .auto
  words : List String := []
  deriving DecidableEq, Repr

namespace Options

/-- The largest number that an option can be given. -/
def largest : Nat := UInt64.size - 1

/-- A positive number in decimal digits, which may have a plus sign. -/
def positive? (text : List Char) : Option Nat :=
  let digits := if text.head? = some '+' then text.drop 1 else text
  if digits.isEmpty || !digits.all Char.isDigit then none
  else
    let n := digits.foldl (fun n c => 10 * n + (c.toNat - '0'.toNat)) 0
    if 0 < n ∧ n ≤ largest then some n else none

/-- What follows a beginning. -/
def after? (beginning : String) (arg : String) : Option String :=
  if beginning.toList.isPrefixOf arg.toList then
    some (String.ofList (arg.toList.drop beginning.length))
  else none

/-- Whether an argument is a word, and no option. Some commands look like options. -/
def isWord (arg : String) : Bool :=
  ["-h", "--help", "-V", "--version"].contains arg || arg.toList.head? != some '-'

/-- The options after one more argument. -/
def add (o : Options) (arg : String) : Except UsageError Options :=
  match after? "--max-depth=" arg, after? "--color=" arg with
  | some value, _ =>
    match positive? value.toList with
    | some n => .ok { o with maxDepth := n }
    | none => .error (.invalidMaxDepth value)
  | none, some value =>
    match ColorMode.ofText? value with
    | some mode => .ok { o with color := mode }
    | none => .error (.invalidColor value)
  | none, none => if isWord arg then .ok { o with words := o.words ++ [arg] } else .error (.unknownOption arg)

/-- How many words a command takes, itself included (`check_arity`). -/
def allowedWords : List String → Nat
  | command :: _ => if ["run", "lex", "parse"].contains command then 2 else 1
  | [] => 1

/-- The options of an argument list (`parse_args`). -/
def ofArgs (args : List String) : Except UsageError Options := do
  let o ← args.foldlM add {}
  -- words are counted only when all options have been read, so a bad option is told first
  match o.words[allowedWords o.words]? with
  | some extra => .error (.unexpectedArgument extra)
  | none => .ok o

end Options
end Nikl
