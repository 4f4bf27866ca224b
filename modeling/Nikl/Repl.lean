import Nikl.Session
import Nikl.Text.Backspace
import Nikl.Text.Blank

/-
Typing programs line by line. Lines are gathered until they make a chunk with no delimiter left open,
which is then run; a blank line runs an unfinished chunk as it is. A delimiter counts as open by a
quick look at the characters, strings and comments left out, since an unfinished chunk cannot be read
as a program yet.
-/

set_option autoImplicit false

namespace Nikl

/-! ## Open delimiters -/

/-- Where in a line the next character stands. -/
inductive LinePart where
  | code | string | comment
  deriving DecidableEq, Repr

/-- What a character adds to the number of open delimiters. -/
def delimiterWeight (c : Char) : Int :=
  if c = '(' || c = '[' || c = '\x7b' then 1
  else if c = ')' || c = ']' || c = '\x7d' then -1
  else 0

/-- The number of open delimiters after a text, given the number before it. Strings and comments end
at the end of their line. -/
def openDelimitersFrom (count : Int) : LinePart → List Char → Int
  | _, [] => count
  | .code, '"' :: rest => openDelimitersFrom count .string rest
  | .code, '/' :: '/' :: rest => openDelimitersFrom count .comment rest
  | .code, c :: rest => openDelimitersFrom (count + delimiterWeight c) .code rest
  | .string, '"' :: rest => openDelimitersFrom count .code rest
  | .string, '\n' :: rest => openDelimitersFrom count .code rest
  | .string, '\\' :: '\n' :: rest => openDelimitersFrom count .code rest
  | .string, '\\' :: _ :: rest => openDelimitersFrom count .string rest
  | .string, _ :: rest => openDelimitersFrom count .string rest
  | .comment, '\n' :: rest => openDelimitersFrom count .code rest
  | .comment, _ :: rest => openDelimitersFrom count .comment rest

/-- How many more delimiters a source opens than it closes (`open_delimiters`). -/
def openDelimiters (source : String) : Int := openDelimitersFrom 0 .code source.toList

/-! ## Lines -/

/-- An interactive session (`Repl`). -/
structure Repl where
  machine : Machine
  /-- The lines of an unfinished chunk, each with its line break. -/
  pending : String := ""

namespace Repl

/-- What became of a line (`ReplStep`). -/
inductive Step where
  | exit
  | empty
  | incomplete
  | ran (report : Report)

/-- The prompt for the next line (`Repl::prompt`, `PROMPT`, `CONTINUATION_PROMPT`). -/
def prompt (r : Repl) : String := if r.pending.isEmpty then ">>> " else "... "

/-- Forgets an unfinished chunk (`Repl::discard_pending`). -/
def discard (r : Repl) : Repl := { r with pending := "" }

/-- Runs a chunk. -/
def runChunk (source : String) (r : Repl) : Step × Repl :=
  let (report, m) := r.machine.runChunk source
  (.ran report, ⟨m, ""⟩)

/-- A line without the line breaks at its end. -/
def withoutBreak (line : String) : List Char :=
  Text.dropRight (fun c => c = '\n' || c = '\r') line.toList

/-- Takes one line, with or without its line break (`Repl::feed_line`). -/
def feedLine (line : String) (r : Repl) : Step × Repl :=
  let text := withoutBreak line
  if Text.allBlank text then
    if r.pending.isEmpty then (.empty, r) else r.runChunk r.pending
  else if r.pending.isEmpty ∧ String.ofList (Text.trim text) = "exit" then (.exit, r)
  else
    -- a delimiter too many is not waited for: the chunk runs, and its reading fails
    let chunk := r.pending ++ String.ofList text ++ "\n"
    if 0 < openDelimiters chunk then (.incomplete, { r with pending := chunk })
    else r.runChunk chunk

/-! ## Conversations -/

/-- What comes from whoever types (`Input`). -/
inductive Input where
  | line (text : String)
  /-- The line was broken off. -/
  | interrupted
  /-- The line could not be read. -/
  | failed (message : String)

/-- A line without the line break that ends it. Only a line feed ends a line; a carriage return before
it belongs to the line break. -/
def beforeBreak (line : List Char) : List Char :=
  if line.getLast? = some '\n' then
    let text := line.dropLast
    if text.getLast? = some '\r' then text.dropLast else text
  else line

/-- The input that a line from a keyboard or a file stands for, its backspaces carried out. -/
def Input.ofTyped (line : String) : Input :=
  .line (String.ofList (Text.typed (beforeBreak line.toList)))

/-- What is to be seen of a session, in order. -/
inductive Event where
  | prompted (prompt : String)
  /-- A text of the session itself. -/
  | wrote (text : String)
  /-- A line is kept for calling back. -/
  | remembered (line : String)
  /-- A text that a chunk printed. -/
  | printed (text : String)
  | failed (failure : Failure) (source : String)

/-- How a session goes on. -/
inductive Next where
  | goOn (r : Repl)
  | done (result : Except String Unit)

/-- The text a session begins with. -/
def banner : String := "Welcome to Nikl REPL!\nTo exit, type 'exit' or press Ctrl+D\n"

/-- What is to be seen of a chunk that was run. -/
def reportEvents (report : Report) : List Event :=
  .printed report.output ::
    match report.result with
    | .ok _ => []
    | .error f => [.failed f report.source]

/-- The line to keep of a typed one: none if it is blank. -/
def remembered (line : String) : List Event :=
  if Text.allBlank line.toList then []
  else [.remembered (String.ofList (Text.trimRight line.toList))]

/-- Answers one input, or the end of all input (one round of `repl_loop`). -/
def react (input : Option Input) (r : Repl) : List Event × Next :=
  match input with
  | none => ([.wrote "Exiting REPL.\n"], .done (.ok ()))
  | some (.failed message) => ([], .done (.error message))
  | some .interrupted => ([.wrote "Keyboard Interrupt\n"], .goOn r.discard)
  | some (.line text) =>
    match r.feedLine text with
    | (.exit, _) => (remembered text, .done (.ok ()))
    | (.ran report, r) => (remembered text ++ reportEvents report, .goOn r)
    | (_, r) => (remembered text, .goOn r)

/-- A whole session. -/
structure Transcript where
  events : List Event
  /-- How many inputs were left when it ended. -/
  unread : Nat
  result : Except String Unit

namespace Transcript

/-- The transcript with something before it. -/
def after (earlier : List Event) (t : Transcript) : Transcript := { t with events := earlier ++ t.events }

/-- The texts of the session itself. -/
def wrote (t : Transcript) : String :=
  String.join (t.events.filterMap fun | .wrote s => some s | _ => none)

/-- The texts that chunks printed. -/
def printed (t : Transcript) : String :=
  String.join (t.events.filterMap fun | .printed s => some s | _ => none)

def prompts (t : Transcript) : List String := t.events.filterMap fun | .prompted s => some s | _ => none

def history (t : Transcript) : List String := t.events.filterMap fun | .remembered s => some s | _ => none

/-- Everything that goes to the regular output where prompts are not shown. -/
def output (t : Transcript) : String :=
  String.join (t.events.filterMap fun | .wrote s => some s | .printed s => some s | _ => none)

/-- The diagnostics of the chunks that failed. -/
def diagnostics (colors : Bool) (t : Transcript) : String :=
  String.join (t.events.filterMap fun
    | .failed f source => some (f.rendered colors "<repl>" source)
    | _ => none)

end Transcript

/-- The rest of a session, given the inputs to come. -/
def converse : List Input → Repl → Transcript
  | [], r =>
    let (events, _) := r.react none
    ⟨.prompted r.prompt :: events, 0, .ok ()⟩
  | input :: rest, r =>
    match r.react (some input) with
    | (events, .goOn next) => (converse rest next).after (.prompted r.prompt :: events)
    | (events, .done result) => ⟨.prompted r.prompt :: events, rest.length, result⟩

/-- A session from its banner to its end (`repl_loop`). -/
def session (inputs : List Input) (r : Repl) : Transcript := (r.converse inputs).after [.wrote banner]

end Repl
end Nikl
