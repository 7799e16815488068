import Scriptlet.CommandLine.Perform
import Scriptlet.Session.Prompt

/-!
# The program

The outer layer: it looks at what the task needs of the surroundings, hands that to the library, and
writes what comes of it.
-/

namespace Scriptlet.CommandLine

/-- The environment variable that turns tracing on. -/
def tracingName : String := "SMALLJS_DEBUG_TRACE"

/-- The code of the error that the system reports for reading a directory. -/
def directoryCode : UInt32 := 21

/-- What is found at a path of the file system. -/
def findOnDisk (path : String) : IO Found := do
  if path.toList.contains '\x00' then return .nothing
  else
    try
      return .file (← IO.FS.readFile (Path.ofString path).text)
    catch
      | .noFileOrDirectory _ _ _ | .noSuchThing _ _ _ => return .nothing
      | .inappropriateType _ code _ =>
        return if code = directoryCode then .directory else .nothing
      | .invalidArgument _ _ _ => return .nameTooLong
      | e => throw e

/-- All of the standard input. -/
partial def readInput (stream : IO.FS.Stream) (text : String) : IO String := do
  let line ← stream.getLine
  if line.isEmpty then return text else readInput stream (text ++ line)

/-- Looks at what is needed of the surroundings, and at nothing else. -/
def look : Need → IO Surroundings
  | .nothing => return ⟨"", fun _ => .nothing⟩
  | .input => do return ⟨← readInput (← IO.getStdin) "", fun _ => .nothing⟩
  | .path name => do
    let found ← findOnDisk name
    return ⟨"", fun _ => found⟩

/-- Writes what a machine has written. -/
def flush (m : Machine) : IO Unit := do
  for (channel, text) in m.written do
    match channel with
    | .program | .console => IO.print text
    | .diagnostic => IO.eprint text
  (← IO.getStdout).flush

/-- A session whose keys come from the lines of the standard input. -/
partial def converseByLine (p : Session.Prompt) : IO Unit := do
  flush p.machine
  let p := { p with machine := p.machine.forgetOutput }
  if p.ended then return
  IO.print (if p.typed.isEmpty then ">>> " else "... ")
  (← IO.getStdout).flush
  let line ← (← IO.getStdin).getLine
  if line.isEmpty then converseByLine (p.type standardDepth [.interrupt, .leave])
  else
    let keys := (line.toList.takeWhile fun c => c ≠ '\n').map Session.Key.character
    converseByLine (p.type standardDepth (keys ++ [.enter]))

/-- Tells the user how the program ended, and the status for it. -/
def finish : Ending → IO UInt32
  | .status code => return code.toUInt32
  | .quit text => do IO.eprintln text; return 1
  | .isDirectory => do IO.eprintln "the source is a directory"; return 1
  | .nameTooLong => do IO.eprintln "the name of the source is too long"; return 1
  | .tooDeep => do IO.eprintln "the script is nested too deeply"; return 1

end Scriptlet.CommandLine

open Scriptlet Scriptlet.CommandLine in
/-- Runs a script, dumps it, or holds a session, as the arguments ask. -/
def main (arguments : List String) : IO UInt32 := do
  let machine := Machine.start (Session.tracingOf (← IO.getEnv tracingName))
  let request := readArguments machine.tracing arguments
  if request.task = .session then
    converseByLine (.start { machine with tracing := request.tracing })
    return 0
  else
    let around ← look request.task.need
    let (ending, m) := runProgram standardDepth around id arguments machine
    flush m
    finish ending
