/-!
# Completion of commands

While a command is being typed, the commands that start with what has been typed are offered.
-/

namespace Scriptlet.Session

/-- The commands with what they do. -/
def commandHelp : List (String × String) :=
  [("/clear", "Clear the terminal screen"),
   ("/trace", "Toggle print tracing and Python tracebacks"),
   ("/reset", "Reset the REPL environment")]

/-- A command on offer. -/
structure Offer where
  /-- The command. -/
  command : String
  /-- How many characters before the cursor it replaces. -/
  replaced : Nat
  /-- What it does. -/
  description : String
  deriving DecidableEq, Repr

/-- The commands that start with the text before the cursor. -/
def offers (typed : List Char) : List Offer :=
  match typed with
  | '/' :: _ =>
    commandHelp.filterMap fun (command, description) =>
      if typed.isPrefixOf command.toList then some ⟨command, typed.length, description⟩ else none
  | _ => []

end Scriptlet.Session
