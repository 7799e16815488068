import Scriptlet.Evaluation.Fault
import Scriptlet.Store.Heap

/-!
# The machine

What a running script can change: the heap, and what has been written. Whether tracing is on and where
the global scope lies belong to the machine too, although no script can change them.

A computation on the machine ends with a value or abruptly, and either way leaves a machine behind. It
ends abruptly when a function returns, when the script fails, or when constructs are nested more
deeply than the evaluator may go. An abrupt end cuts through every computation that does not catch it,
so no construct needs a rule for it.
-/

namespace Scriptlet

/-- Where a text is written. -/
inductive Channel where
  /-- What the script prints and the values of entries. -/
  | program
  /-- What a session tells its user. -/
  | console
  /-- Errors and traces. -/
  | diagnostic
  deriving DecidableEq, Repr

/-- The state of a running script. -/
structure Machine where
  /-- The heap. -/
  heap : Heap
  /-- What has been written, in order. -/
  written : Array (Channel × String)
  /-- Calls of `print` are traced. -/
  tracing : Bool
  /-- The global scope that entries run in. -/
  root : Loc

namespace Machine

/-- The machine before anything has run. -/
def start (tracing : Bool) : Machine := ⟨.initial, #[], tracing, Heap.globals⟩

/-- The machine with a fresh global scope for entries. What is on the heap stays there. -/
def reset (m : Machine) : Machine :=
  let (root, heap) := m.heap.createGlobals
  { m with heap, root }

/-- The machine after a text is written. -/
def write (m : Machine) (channel : Channel) (text : String) : Machine :=
  { m with written := m.written.push (channel, text) }

/-- The machine after a line is written. -/
def writeLine (m : Machine) (channel : Channel) (line : String) : Machine :=
  m.write channel (line ++ "\n")

/-- All that has been written to the given channels. -/
def output (m : Machine) (channels : List Channel) : String :=
  String.join ((m.written.toList.filter fun entry => channels.contains entry.1).map Prod.snd)

/-- The machine with nothing written. -/
def forgetOutput (m : Machine) : Machine := { m with written := #[] }

end Machine

/-- How a computation ends without a value. -/
inductive Abrupt where
  /-- A function returns the value. -/
  | returned (value : Value)
  /-- The script fails. -/
  | failed (fault : Fault)
  /-- Constructs are nested too deeply. -/
  | tooDeep
  deriving DecidableEq, Repr

/-- A computation on the machine. -/
abbrev Eval := EStateM Abrupt Machine

namespace Eval

/-- Fails. -/
def fail {α : Type} (cause : FaultCause) : Eval α := throw (.failed ⟨cause, none⟩)

/-- A computation for a construct on the given line, which its failures get if they have none. -/
def locate {α : Type} (line : Int) (x : Eval α) : Eval α := fun m =>
  match x m with
  | .error (.failed fault) m => .error (.failed (fault.locate line)) m
  | result => result

/-- The body of a function: its value is the one returned, and otherwise none. -/
def functionBody (x : Eval Unit) : Eval Value := fun m =>
  match x m with
  | .ok _ m => .ok .undefined m
  | .error (.returned value) m => .ok value m
  | .error other m => .error other m

/-- The heap. -/
def heap : Eval Heap := do return (← get).heap

/-- Changes the heap. -/
def changeHeap (f : Heap → Heap) : Eval Unit := modify fun m => { m with heap := f m.heap }

/-- Puts an object on the heap and returns its place. -/
def allocate (o : Object) : Eval Loc :=
  modifyGet fun ⟨heap, written, tracing, root⟩ =>
    let (place, heap) := heap.allocate o
    (place, ⟨heap, written, tracing, root⟩)

/-- Binds a name in an object. -/
def bind (place : Loc) (name : String) (value : Value) : Eval Unit :=
  changeHeap fun h => h.bind place name value

/-- Writes a line. -/
def writeLine (channel : Channel) (line : String) : Eval Unit :=
  modify fun m => m.writeLine channel line

end Eval

end Scriptlet
