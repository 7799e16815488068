import Scriptlet.CommandLine.Directory
import Scriptlet.CommandLine.Request
import Scriptlet.Evaluation.Run
import Scriptlet.Script.Dump
import Scriptlet.Text.Newline

/-!
# Carrying out a request

What a request other than a session does, given what is found at a path and what stands on the standard
input; and which of the two it needs.
-/

namespace Scriptlet.CommandLine

/-- What the program finds around it. -/
structure Surroundings where
  /-- The standard input. -/
  input : String
  /-- What is found at a path. -/
  find : String → Found

/-- What a task needs to know of the surroundings. -/
inductive Need where
  /-- Nothing. -/
  | nothing
  /-- The standard input. -/
  | input
  /-- What is found at a path. -/
  | path (name : String)
  deriving DecidableEq, Repr

/-- A script needs its source; the keys of a session come from the caller. -/
def Task.need : Task → Need
  | .help | .refuse _ | .session => .nothing
  | .script none _ => .input
  | .script (some name) _ => if name = "-" then .input else .path name

/-- How the program ends. -/
inductive Ending where
  /-- With a status. -/
  | status (code : Nat)
  /-- With a text for the user, having done nothing. -/
  | quit (text : String)
  /-- With the source being a directory. -/
  | isDirectory
  /-- With a path that is too long. -/
  | nameTooLong
  /-- With a script nested too deeply. -/
  | tooDeep
  deriving DecidableEq, Repr

/-- The source text asked for, or how the program ends without one. No source, or a single dash, means
the standard input. -/
def loadSource (around : Surroundings) (source : Option String) : Except Ending String :=
  match source with
  | none => fromInput
  | some name =>
    if name = "-" then fromInput
    else match around.find name with
      | .nothing => .ok name
      | .file contents => .ok (Text.ofFile contents)
      | .directory => .error .isDirectory
      | .nameTooLong => .error .nameTooLong
where
  /-- The standard input, which must not be empty. -/
  fromInput : Except Ending String :=
    let text := Text.ofFile around.input
    if text.isEmpty then .error (.quit "No input provided on stdin") else .ok text

/-- Dumps a source text. -/
def dumpSource (source : String) (m : Machine) : Ending × Machine :=
  match Parsing.parse source with
  | .ok script => (.status 0, m.write .console (script.dump Dump.standardIndent))
  | .error e => (.status 1, m.report (.malformed e))

/-- Runs a source text. -/
def runAndReport (depth : Nat) (source : String) (m : Machine) : Ending × Machine :=
  match runScript depth source m with
  | (.ok _, m) => (.status 0, m)
  | (.error .tooDeep, m) => (.tooDeep, m)
  | (.error f, m) => (.status 1, m.report f)

/-- Carries out a task; a session is left to the caller, who gives what it comes to. -/
def perform (depth : Nat) (around : Surroundings) (session : Machine → Machine) (task : Task)
    (m : Machine) : Ending × Machine :=
  match task with
  | .help => (.status 0, m.writeLine .console usage)
  | .refuse reason => (.quit reason, m)
  | .session => (.status 0, session m)
  | .script source dump =>
    match loadSource around source with
    | .error ending => (ending, m)
    | .ok text => if dump then dumpSource text m else runAndReport depth text m

/-- The whole program. -/
def runProgram (depth : Nat) (around : Surroundings) (session : Machine → Machine)
    (arguments : List String) (m : Machine) : Ending × Machine :=
  let request := readArguments m.tracing arguments
  perform depth around session request.task { m with tracing := request.tracing }

end Scriptlet.CommandLine
