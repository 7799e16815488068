import Scriptlet.Evaluation.Eval
import Scriptlet.Parsing.Parser

/-!
# Running scripts and entries

A script runs as one block. An entry of a session runs statement by statement in a scope that outlives
it, and answers with the value of its last statement. Either may be no script at all, or fail.

A return outside of functions just ends the script or the entry, with its value.
-/

namespace Scriptlet

open Parsing

/-- Why a source text has no value. -/
inductive Failure where
  /-- It is no script. -/
  | malformed (e : SyntaxError)
  /-- It fails while it runs. -/
  | failed (f : Fault)
  /-- Its constructs are nested too deeply. -/
  | tooDeep
  deriving DecidableEq, Repr

/-- The message of a failure. -/
def Failure.message : Failure → String
  | malformed e => e.message
  | failed f => f.message
  | tooDeep => "nested too deeply"

/-- What running something leads to: a result or a failure, and the machine afterwards. -/
abbrev Outcome (α : Type) := Except Failure α × Machine

/-- The value of a construct, a return included. -/
def execute (depth : Nat) (scope : Loc) (e : Expr) (m : Machine) : Outcome Value :=
  match eval depth scope e m with
  | .ok v m => (.ok v, m)
  | .error (.returned v) m => (.ok v, m)
  | .error (.failed f) m => (.error (.failed f), m)
  | .error .tooDeep m => (.error .tooDeep, m)

/-- Runs a source text as a block in a scope. -/
def runSource (depth : Nat) (scope : Loc) (source : String) (m : Machine) : Outcome Value :=
  match parse source with
  | .error e => (.error (.malformed e), m)
  | .ok script => execute depth scope (.block script.body) m

/-- Runs a source text as a script of its own, on a fresh heap. -/
def runScript (depth : Nat) (source : String) (m : Machine) : Outcome Value :=
  runSource depth Heap.globals source { m with heap := .initial }

/-! ### Entries -/

/-- What an entry answers. -/
structure Reply where
  /-- The value of its last statement. -/
  value : Value
  /-- The last statement declares or controls, so that its value is of no interest. -/
  silent : Bool
  deriving DecidableEq, Repr

/-- The construct declares or controls, rather than having a value of interest. -/
def Expr.isSilent : Expr → Bool
  | .block _ | .choose _ _ _ _ | .returns _ _ | .assign _ _ _ _ | .setField _ _ _ _ => true
  | .function _ _ binds _ _ => binds
  | .literal _ _ | .call _ _ _ | .identifier _ _ | .object _ _ | .field _ _ _
  | .method _ _ _ _ => false

/-- The last statement of an entry, if there is one, is of no interest. -/
def Block.isSilent (body : Block) : Bool :=
  match body.statements.getLast? with
  | none => true
  | some e => e.isSilent

/-- Runs statements one after the other; the value is that of the last. -/
def lastValue (recur : Expr → Eval Value) : Value → List Expr → Eval Value
  | v, [] => return v
  | _, e :: es => do
    let v ← recur e
    lastValue recur v es

/-- Runs the statements of an entry in a scope. -/
def runBody (depth : Nat) (scope : Loc) (body : Block) (m : Machine) : Outcome Reply :=
  let run : Eval Value := do
    Eval.declare scope body.declared
    lastValue (eval depth scope) .undefined body.statements
  match run m with
  | .ok v m => (.ok ⟨v, body.isSilent⟩, m)
  | .error (.returned v) m => (.ok ⟨v, false⟩, m)
  | .error (.failed f) m => (.error (.failed f), m)
  | .error .tooDeep m => (.error .tooDeep, m)

/-- Runs an entry in a scope. -/
def runEntry (depth : Nat) (scope : Loc) (source : String) (m : Machine) : Outcome Reply :=
  match parse source with
  | .error e => (.error (.malformed e), m)
  | .ok script => runBody depth scope script.body m

/-! ### Reports -/

/-- Writes an error message, and the heading of a trace if tracing is on. -/
def Machine.report (m : Machine) (f : Failure) : Machine :=
  let m := m.writeLine .diagnostic ("Error: " ++ f.message)
  if m.tracing then m.write .diagnostic "\nPython traceback:\n" else m

end Scriptlet
