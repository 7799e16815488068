/-!
# Command line arguments

The arguments ask for tracing, for a dump instead of a run, or for a session, and name at most one
source. They are read from left to right, and the first that asks for help, is not known, or is one
source too many decides alone; only tracing asked for before it stays on.
-/

namespace Scriptlet.CommandLine

/-- What the arguments ask for. -/
inductive Task where
  /-- Help. -/
  | help
  /-- Nothing: they are refused, for the reason given. -/
  | refuse (reason : String)
  /-- A session. -/
  | session
  /-- A script from the source named, if one is, to be dumped or to be run. -/
  | script (source : Option String) (dump : Bool)
  deriving DecidableEq, Repr

/-- A task, and whether tracing is on for it. -/
structure Request where
  /-- The task. -/
  task : Task
  /-- Tracing is on. -/
  tracing : Bool
  deriving DecidableEq, Repr

/-- How the program is used. -/
def usage : String := "usage: smalljs [--trace] [--ast] [--repl] [FILE | - | SOURCE]"

/-- What the arguments read so far ask for. -/
structure Options where
  /-- Tracing. -/
  tracing : Bool
  /-- A dump. -/
  dump : Bool
  /-- A session. -/
  session : Bool
  /-- The source. -/
  source : Option String
  deriving DecidableEq, Repr

/-- The request of arguments that have all been read. -/
def Options.request (o : Options) : Request :=
  ⟨if o.session then .session else .script o.source o.dump, o.tracing⟩

/-- The argument looks like an option. -/
def isOption (argument : String) : Bool := ['-', '-'].isPrefixOf argument.toList

/-- Reads arguments. -/
def Options.read (o : Options) : List String → Request
  | [] => o.request
  | argument :: others =>
    if argument = "--trace" then read { o with tracing := true } others
    else if argument = "--ast" then read { o with dump := true } others
    else if argument = "--repl" then read { o with session := true } others
    else if argument = "-h" || argument = "--help" then ⟨.help, o.tracing⟩
    else if isOption argument then
      ⟨.refuse ("Unknown flag: " ++ argument ++ "\n" ++ usage), o.tracing⟩
    else match o.source with
      | none => read { o with source := some argument } others
      | some _ => ⟨.refuse ("Unexpected argument: " ++ argument), o.tracing⟩

/-- What the arguments ask for, if tracing is on or off beforehand. -/
def readArguments (tracing : Bool) (arguments : List String) : Request :=
  Options.read ⟨tracing, false, false, none⟩ arguments

end Scriptlet.CommandLine
