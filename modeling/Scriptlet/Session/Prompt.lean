import Scriptlet.Session.Completeness
import Scriptlet.Session.Entry

/-!
# The prompt

A session is typed key by key. The enter key submits what has been typed if that is a command or a
complete piece of script; otherwise it starts another line, indented by what is still open.
-/

namespace Scriptlet.Session

/-- The keys. -/
inductive Key where
  /-- The enter key. -/
  | enter
  /-- Takes back the last character. -/
  | backspace
  /-- Gives up what has been typed. -/
  | interrupt
  /-- Ends the session if nothing has been typed. -/
  | leave
  /-- Any other key stands for a character. -/
  | character (c : Char)
  deriving DecidableEq, Repr

/-- The key that a character comes from. -/
def Key.ofChar : Char → Key
  | '\r' => enter
  | '\x7f' => backspace
  | '\x03' => interrupt
  | '\x04' => leave
  | c => character c

/-- A session at its prompt. -/
structure Prompt where
  /-- The machine that entries run on. -/
  machine : Machine
  /-- What has been typed of the next entry. -/
  typed : List Char
  /-- The session has ended. -/
  ended : Bool

/-- The first line of a session. -/
def banner : String := "smalljs repl (Ctrl-D to exit, / for commands)"

namespace Prompt

/-- A session starts on a fresh heap. -/
def start (m : Machine) : Prompt :=
  ⟨{ m with heap := .initial, root := Heap.globals }.writeLine .console banner, [], false⟩

/-- The enter key submits this text. -/
def submits (text : String) : Bool := text.toList.head? = some '/' || isComplete text

/-- What a key does. -/
def press (depth : Nat) (p : Prompt) (key : Key) : Prompt :=
  if p.ended then p
  else match key with
    | .enter =>
      let text := String.ofList p.typed
      if submits text then { p with machine := submit depth text p.machine, typed := [] }
      else { p with typed := p.typed ++ '\n' :: List.replicate (indentAfter text) ' ' }
    | .backspace => { p with typed := p.typed.dropLast }
    | .interrupt =>
      { p with machine := p.machine.writeLine .console "KeyboardInterrupt", typed := [] }
    | .leave =>
      if p.typed.isEmpty then { p with machine := p.machine.writeLine .console "", ended := true }
      else p
    | .character c => { p with typed := p.typed ++ [c] }

/-- Presses keys one after the other. -/
def type (depth : Nat) (p : Prompt) (keys : List Key) : Prompt := keys.foldl (press depth) p

end Prompt

/-- A whole session: the keys that the characters come from, and then those that give up what has been
typed and leave. -/
def converse (depth : Nat) (keys : String) (m : Machine) : Machine :=
  ((Prompt.start m).type depth (keys.toList.map Key.ofChar ++ [.interrupt, .leave])).machine

end Scriptlet.Session
