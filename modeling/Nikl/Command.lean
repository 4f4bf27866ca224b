import Nikl.Command.Folder
import Nikl.Command.Options
import Nikl.Interpreter
import Nikl.Repl
import Nikl.Syntax.Outline

/-
The commands: to run a script, to list the tokens or the tree of one, and to hold an interactive
session. A command asks for what lies at a path through a function that it is given, and gives back
all that is to be shown.
-/

set_option autoImplicit false

namespace Nikl

/-- What is to be done (the dispatch of `main`). -/
inductive Command where
  | run (path : String)
  | lex (path : String)
  | parse (path : String)
  | repl
  | help
  | version
  /-- A command was named that needs a path, and no path. -/
  | missingPath (command : String)
  deriving DecidableEq, Repr

/-- What a command shows, and whether it did what it was to do. -/
structure Outcome where
  success : Bool
  out : String := ""
  err : String := ""
  deriving DecidableEq, Repr

namespace Outcome

/-- Nothing but an error message. -/
def failed (message : String) : Outcome := { success := false, err := s!"error: {message}\n" }

def exitCode (o : Outcome) : Nat := if o.success then 0 else 1

end Outcome

namespace Command

/-- The command that some words name. A word that names none is the path of a script. -/
def ofWords : List String → Command
  | [] => repl
  | word :: rest =>
    let withPath (make : String → Command) : Command := (rest.head?.map make).getD (missingPath word)
    if word = "run" then withPath run
    else if word = "lex" then withPath lex
    else if word = "parse" then withPath parse
    else if word = "repl" then repl
    else if ["help", "--help", "-h"].contains word then help
    else if ["version", "--version", "-V"].contains word then version
    else run word

/-- What `help` shows, line by line. -/
def usageLines : List String :=
  ["Nikl interpreter",
   "",
   "Usage: nikl [options] [command] [file.nk]",
   "",
   "Commands:",
   "  <file.nk | dir>      Run a script (a directory runs its main.nk)",
   "  run <file.nk>        Same as above",
   "  repl                 Start an interactive session (default with no arguments)",
   "  lex <file.nk>        Tokenize and display tokens",
   "  parse <file.nk>      Parse and display the syntax tree",
   "  help                 Show this help message",
   "  version              Show version information",
   "",
   "Options:",
   "  --max-depth=<n>      Maximum call depth (default: 10000)",
   "  --color=<mode>       Diagnostic colors: auto, always, never",
   "",
   "Set RUST_LOG (e.g. RUST_LOG=nikl_eval=debug) for trace output on stderr."]

/-- What `help` shows (`print_usage`). -/
def usage : String := String.join (usageLines.map (· ++ "\n"))

def versionText : String := "nikl 0.1.0\n"

/-! ## Scripts -/

/-- The text of a file, or why there is none (`read_file`). -/
def textOf (path : String) : Found → Except String String
  | .file bytes =>
    match String.fromUTF8? bytes with
    | some source => .ok source
    | none => .error s!"'{path}' is not valid UTF-8"
  | .nothing => .error s!"cannot find file '{path}'"
  | .directory => .error s!"error reading '{path}': Is a directory (os error 21)"
  | .throughFile => .error s!"error reading '{path}': Not a directory (os error 20)"
  | .nameTooLong => .error s!"error reading '{path}': File name too long (os error 36)"

/-- The path of the script that a directory stands for, `ENTRY_FILE` in it. -/
def entryPath (directory : String) : String :=
  (if directory.toList.getLast? = some '/' then directory else directory ++ "/") ++ "main.nk"

section

variable {m : Type → Type} [Monad m] (look : String → m Found)

/-- The path and the text of the script that a path stands for (`resolve_script`). -/
def scriptAt (path : String) : m (Except String (String × String)) := do
  match ← look path with
  | .directory =>
    match ← look (entryPath path) with
    | .file bytes => return (textOf (entryPath path) (.file bytes)).map (entryPath path, ·)
    | _ => return .error s!"directory '{path}' has no main.nk"
  -- for a script there is nothing at a path that cannot be followed; a listing tells why
  | .throughFile | .nameTooLong => return .error s!"cannot find file '{path}'"
  | found => return (textOf path found).map (path, ·)

end

/-- Runs a script (`run_file`). -/
def runScript (maxDepth : Nat) (colors : Bool) (path source : String) : Outcome :=
  let (report, _) := (Machine.ofLimit maxDepth).runChunk source
  match report.result with
  | .ok _ => { success := true, out := report.output }
  | .error f => { success := false, out := report.output, err := f.rendered colors path source }

/-- A kind of token with what the token carries (`describe`). -/
def kindText (kind : TokenKind) : String :=
  match kind with
  | .int n => s!"Int({n.toInt})"
  | .float x => s!"Float({Decimal.floatText x})"
  | .string content => s!"String({Text.Quoted.ofString content})"
  | .ident name => s!"Ident({Text.Quoted.ofString name})"
  | kind => kind.label

/-- A token on a line of a listing. -/
def tokenLine (t : Token) : String := s!"  {kindText t.kind} @ {t.span.text}\n"

/-- Lists the tokens of a source (`lex_file`). -/
def listTokens (colors : Bool) (path source : String) : Outcome :=
  match tokensOf source with
  | .ok tokens =>
    { success := true
      out := s!"Tokens for '{path}' ({tokens.length} tokens):\n" ++ String.join (tokens.map tokenLine) }
  | .error f => { success := false, err := f.rendered colors path source }

/-- Lists the tree of a source (`parse_file`). -/
def listTree (colors : Bool) (path source : String) : Outcome :=
  match (Interpreter.read source .empty).1 with
  | .ok program => { success := true, out := (Outline.block program).text 0 ++ "\n" }
  | .error f => { success := false, err := f.rendered colors path source }

/-! ## Interactive sessions -/

/-- The session that a command holds (`Repl::new`). -/
def newRepl (o : Options) : Repl := { machine := .ofLimit o.maxDepth }

/-- The lines of a text, each with its line feed. What follows the last line feed is a line unless it
is empty. -/
def linesOf (text : List Char) : List (List Char) :=
  let pieces := text.splitOn '\n'
  pieces.dropLast.map (· ++ ['\n']) ++ pieces.getLast?.toList.filter (· ≠ [])

/-- The lines of a text that was typed ahead. -/
def typedLines (typed : String) : List Repl.Input :=
  (linesOf typed.toList).map fun line => .ofTyped (String.ofList line)

/-- A session with lines that were typed ahead (`run_repl`). -/
def holdSession (o : Options) (colors : Bool) (typed : String) : Outcome :=
  let t := (newRepl o).session (typedLines typed)
  let diagnostics := t.diagnostics colors
  match t.result with
  | .ok _ => { success := true, out := t.output, err := diagnostics }
  | .error message => { success := false, out := t.output, err := s!"{diagnostics}error: {message}\n" }

/-! ## All commands -/

section

variable {m : Type → Type} [Monad m] (look : String → m Found)

/-- Lists something of a file, in the colours that suit its terminal. -/
def listFile (listing : Bool → String → String → Outcome) (terminal : Bool) (path : String) : m Outcome := do
  match textOf path (← look path) with
  | .ok source => return listing (ColorMode.auto.usesColors terminal) path source
  | .error message => return .failed message

/-- Carries out a command. `terminal` tells whether errors go to a terminal. -/
def perform (o : Options) (terminal : Bool) (typed : String) : Command → m Outcome
  | run path => do
    match ← scriptAt look path with
    | .ok (path, source) => return runScript o.maxDepth (o.color.usesColors terminal) path source
    | .error message => return .failed message
  | lex path => listFile look listTokens terminal path
  | parse path => listFile look listTree terminal path
  | repl => return holdSession o (o.color.usesColors terminal) typed
  | help => return { success := true, out := usage }
  | version => return { success := true, out := versionText }
  | missingPath command =>
    return { success := false
             err := s!"error: missing file path\nUsage: nikl {command} <file.nk>\n" }

/-- Carries out the command that an argument list names (`main`). -/
def performArgs (terminal : Bool) (typed : String) (args : List String) : m Outcome := do
  match Options.ofArgs args with
  | .ok o => perform look o terminal typed (ofWords o.words)
  | .error e =>
    return { success := false
             err := s!"error: {e.message}\nRun 'nikl help' for usage.\n" }

end

end Command
end Nikl
