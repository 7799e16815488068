import Scriptlet.Evaluation.Machine
import Scriptlet.Store.Rendering

/-!
# What the built-in functions do

Arithmetic is on integers of any size; division goes toward zero and the remainder has the sign of the
dividend. Two values are equal when they are the same value, which for objects means the same object.
Integers are ordered by size and strings by the code points of their characters, and no other two
values have an order. A comparison yields `1` or `0`.
-/

namespace Scriptlet

/-! ### Comparing values -/

/-- Two values are equal. -/
def Value.equals (a b : Value) : Bool := decide (a = b)

/-- The order of two integers or of two strings. -/
def Value.order? : Value → Value → Option Ordering
  | .int a, .int b => some (compare a b)
  | .str a, .str b => some (compare a b)
  | _, _ => none

/-- The order of two values, or why there is none. -/
def Heap.order (h : Heap) (a b : Value) : Except FaultCause Ordering :=
  match a.order? b with
  | some o => .ok o
  | none => .error (.incomparable (h.displayTyped a) (h.displayTyped b))

/-- What a condition decides on: `1` is true, `0` and no value are false, and all else is neither. -/
def Value.truth? : Value → Option Bool
  | .undefined => some false
  | .int n => if n = 1 then some true else if n = 0 then some false else none
  | .str _ | .ref _ => none

/-- The value of a comparison. -/
def Value.ofBool (b : Bool) : Value := .int (if b then 1 else 0)

/-! ### Operators -/

/-- The integer an operand must be. -/
def Heap.integer (h : Heap) (o : Operator) : Value → Except FaultCause Int
  | .int n => .ok n
  | v => .error (.notInteger o (h.displayTyped v))

/-- Two operands that must be integers; the left one is looked at first. -/
def Heap.integers (h : Heap) (o : Operator) (a b : Value) : Except FaultCause (Int × Int) := do
  let m ← h.integer o a
  let n ← h.integer o b
  return (m, n)

/-- The value of an operator. -/
def Operator.apply (h : Heap) (o : Operator) (a b : Value) : Except FaultCause Value :=
  match o with
  | .add => do let (m, n) ← h.integers o a b; return .int (m + n)
  | .sub => do let (m, n) ← h.integers o a b; return .int (m - n)
  | .mul => do let (m, n) ← h.integers o a b; return .int (m * n)
  | .div => do
    let (m, n) ← h.integers o a b
    if n = 0 then .error (.byZero o) else return .int (m.tdiv n)
  | .mod => do
    let (m, n) ← h.integers o a b
    if n = 0 then .error (.byZero o) else return .int (m.tmod n)
  | .eq => .ok (.ofBool (a.equals b))
  | .ne => .ok (.ofBool (!a.equals b))
  | .lt => do return .ofBool (← h.order a b).isLT
  | .le => do return .ofBool (← h.order a b).isLE
  | .gt => do return .ofBool (← h.order a b).isGT
  | .ge => do return .ofBool (← h.order a b).isGE

/-! ### Built-in functions -/

/-- The line that a call of `print` writes. -/
def Heap.printLine (h : Heap) (args : List Value) : String :=
  String.intercalate " " (args.map h.display)

/-- The line that traces a call of `print`. -/
def Heap.traceLine (h : Heap) (args : List Value) : String :=
  "print called with [" ++ String.intercalate ", " (args.map h.displayQuoted) ++ "]"

/-- Writes the arguments on a line. -/
def Eval.print (args : List Value) : Eval Value := do
  let m ← get
  if m.tracing then writeLine .diagnostic (m.heap.traceLine args)
  writeLine .program (m.heap.printLine args)
  return .undefined

/-- What a pure result means for the machine. -/
def Eval.ofExcept {α : Type} : Except FaultCause α → Eval α
  | .ok a => pure a
  | .error cause => fail cause

/-- Calls a built-in function. -/
def Builtin.call (b : Builtin) (args : List Value) : Eval Value := do
  match b, args with
  | .print, args => Eval.print args
  | .operator o, [x, y] => Eval.ofExcept (o.apply (← Eval.heap) x y)
  | .operator o, args => Eval.fail (.wrongArity o.sign 2 args.length)

end Scriptlet
