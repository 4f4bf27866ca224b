import Nikl.Command

/-
The program: it finds the files that commands ask for, shows what they give back, and holds the
interactive session with whoever types.
-/

set_option autoImplicit false

namespace Nikl

/-- The number of an error of the file system, which some calls give with a minus sign. -/
def errorNumber (code : UInt32) : UInt32 := if code < 2147483648 then code else 0 - code

/-- What lies at a path of the file system (for `resolve_script` and `read_file`). -/
def lookAt (path : String) : IO Found := do
  try
    return .file (← IO.FS.readBinFile path)
  catch
    | .inappropriateType _ code _ =>
      return if errorNumber code = 20 then .throughFile else .directory
    | .invalidArgument _ code _ =>
      return if errorNumber code = 36 then .nameTooLong else .nothing
    | _ => return .nothing

/-- Shows one thing that is to be seen of a session; prompts only where a person types. -/
def showEvent (colors prompting : Bool) (event : Repl.Event) : IO Unit := do
  let out ← IO.getStdout
  match event with
  | .prompted prompt => if prompting then out.putStr prompt
  | .wrote text | .printed text => out.putStr text
  | .remembered _ => return
  | .failed failure source => (← IO.getStderr).putStr (failure.rendered colors "<repl>" source)
  out.flush

/-- Goes on with a session until it ends (the loop of `repl_loop`). -/
partial def converse (colors prompting : Bool) (r : Repl) : IO UInt32 := do
  showEvent colors prompting (.prompted r.prompt)
  let typed ← (← IO.getStdin).getLine
  let (events, next) := r.react (if typed.isEmpty then none else some (.ofTyped typed))
  events.forM (showEvent colors prompting)
  match next with
  | .goOn r => converse colors prompting r
  | .done (.ok _) => return 0
  | .done (.error message) =>
    (← IO.getStderr).putStr s!"error: {message}\n"
    return 1

/-- Holds a session (`run_repl`). -/
def holdSession (o : Options) (colors : Bool) : IO UInt32 := do
  let prompting ← (← IO.getStdin).isTty
  showEvent colors prompting (.wrote Repl.banner)
  converse colors prompting (Command.newRepl o)

/-- Carries out any other command than a session, or tells why the arguments make none. -/
def performOnce (terminal : Bool) (args : List String) : IO UInt32 := do
  let o ← Command.performArgs lookAt terminal "" args
  (← IO.getStdout).putStr o.out
  (← IO.getStderr).putStr o.err
  return o.exitCode.toUInt32

end Nikl

def main (args : List String) : IO UInt32 := do
  let terminal ← (← IO.getStderr).isTty
  match Nikl.Options.ofArgs args with
  | .ok o =>
    if Nikl.Command.ofWords o.words = .repl then
      Nikl.holdSession o (o.color.usesColors terminal)
    else Nikl.performOnce terminal args
  | .error _ => Nikl.performOnce terminal args
