import Scriptlet.Evaluation.Run
import Scriptlet.Text.Blank

/-!
# Entries of a session

An entry is either a command, which starts with a slash, or a piece of script. Characters that cannot
be seen are taken out of it first, and a blank entry does nothing. The value of a piece of script is
written unless its last statement declares or controls, or there is no value.

Resetting a session makes a fresh global scope, in which the entries after it run. The objects of those
before it stay on the heap.
-/

namespace Scriptlet.Session

open Scriptlet.Text

/-- A character that is taken out of entries: zero-width spaces and joiners, the byte order mark, the
no-break space and the carriage return. -/
def isInvisible (c : Char) : Bool :=
  ['\u200b', '\u200c', '\u200d', '\ufeff', '\u00a0', '\r'].contains c

/-- An entry without characters that cannot be seen. -/
def normalize (text : String) : String :=
  String.ofList (text.toList.filter fun c => !isInvisible c)

/-! ### Tracing -/

/-- The words that turn tracing on. -/
def onWords : List String := ["1", "true", "yes", "on"]

/-- The words that turn tracing off. -/
def offWords : List String := ["0", "false", "no", "off"]

/-- A text with its letters from A to Z in lower case. The words compared with it hold no other
letters, and no other letter has one of theirs for its lower case. -/
def lowerCase (s : String) : String := String.ofList (s.toList.map Char.toLower)

/-- What the environment says about tracing: it is on if the variable is set to a word for it. -/
def tracingOf (setting : Option String) : Bool :=
  match setting with
  | none => false
  | some value => onWords.contains (lowerCase (trim value))

/-! ### Commands -/

/-- The commands. -/
inductive Command where
  /-- Clears the screen. -/
  | clear
  /-- Turns tracing on or off. -/
  | setTracing (on : Bool)
  /-- Turns tracing on if it is off, and off if it is on. -/
  | toggleTracing
  /-- Asks for tracing in a way that is not understood. -/
  | misuseTracing
  /-- Forgets all bindings. -/
  | reset
  /-- Not a command. -/
  | unknown (name : String)
  deriving DecidableEq, Repr

/-- The command that a word and the text after it stand for. -/
def Command.ofWords (name argument : String) : Command :=
  if name = "/clear" then .clear
  else if name = "/trace" then
    let argument := lowerCase argument
    if onWords.contains argument then .setTracing true
    else if offWords.contains argument then .setTracing false
    else if argument = "" then .toggleTracing
    else .misuseTracing
  else if name = "/reset" then .reset
  else .unknown name

/-- The command that an entry is, if it is one. -/
def Command.ofEntry? (text : String) : Option Command :=
  let text := trim text
  match text.toList with
  | '/' :: _ => let (name, argument) := splitWord text; some (.ofWords name argument)
  | _ => none

/-- Sets tracing and says so. -/
def setTracing (m : Machine) (on : Bool) : Machine :=
  { m with tracing := on }.writeLine .console ("Trace: " ++ if on then "on" else "off")

/-- What stands on the screen for clearing it. -/
def clearMark : String := "<clear>"

/-- Carries out a command. -/
def Command.run (m : Machine) : Command → Machine
  | clear => m.writeLine .console clearMark
  | setTracing on => Session.setTracing m on
  | toggleTracing => Session.setTracing m !m.tracing
  | misuseTracing => m.writeLine .diagnostic "Usage: /trace [on|off]"
  | reset => m.reset.writeLine .console "Environment reset."
  | unknown name => m.writeLine .diagnostic ("Unknown command: " ++ name)

/-! ### Entries -/

/-- Writes the value that an entry answers with, if it is of interest. -/
def echo (m : Machine) (reply : Reply) : Machine :=
  if reply.silent || reply.value = .undefined then m
  else m.writeLine .program (m.heap.display reply.value)

/-- Runs a piece of script and writes its value or its error. -/
def runPiece (depth : Nat) (text : String) (m : Machine) : Machine :=
  match runEntry depth m.root text m with
  | (.ok reply, m) => echo m reply
  | (.error f, m) => m.report f

/-- Takes an entry. -/
def submit (depth : Nat) (text : String) (m : Machine) : Machine :=
  let text := normalize text
  if isAllBlank text then m
  else match Command.ofEntry? text with
    | some command => command.run m
    | none => runPiece depth text m

end Scriptlet.Session
