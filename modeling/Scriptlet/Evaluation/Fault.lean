import Scriptlet.Store.Builtin

/-!
# Failures of running scripts

Why a script fails while it runs, and on which line. What a message has to show of a value is kept as
a text, because the heap may change before the message is read.
-/

namespace Scriptlet

/-- Why a script fails. -/
inductive FaultCause where
  /-- What is called is not a function. -/
  | notFunction (subject : String)
  /-- What is called is an object without code. -/
  | notInvocable (subject : String)
  /-- What should have fields is not an object. -/
  | notObject (subject : String)
  /-- An operand of an arithmetic operator is not an integer. -/
  | notInteger (operator : Operator) (operand : String)
  /-- Two values have no order. -/
  | incomparable (left right : String)
  /-- A name has no value. -/
  | undefinedName (name : String)
  /-- A function is called with a wrong number of arguments. -/
  | wrongArity (function : String) (expected given : Nat)
  /-- A division or remainder by zero. -/
  | byZero (operator : Operator)
  deriving DecidableEq, Repr

/-- The message for a cause. -/
def FaultCause.text : FaultCause → String
  | notFunction subject => "type error: " ++ subject ++ " is not a function"
  | notInvocable subject => subject ++ " is not a function"
  | notObject subject => "type error: " ++ subject ++ " is not an object"
  | notInteger operator operand =>
    operator.sign ++ " expects integer operands; got " ++ operand
  | incomparable left right => "cannot compare " ++ left ++ " with " ++ right
  | undefinedName name => "undefined variable " ++ name
  | wrongArity function expected given =>
    "Wrong number of arguments for " ++ function ++ ": expects " ++ toString expected ++
      ", got " ++ toString given
  | byZero operator => operator.sign ++ " by zero"

/-- A failure. -/
structure Fault where
  /-- Why. -/
  cause : FaultCause
  /-- The line, if one is known. -/
  line : Option Int
  deriving DecidableEq, Repr

namespace Fault

/-- A failure of a construct on the given line. A line already known stays, and line `0` is none. -/
def locate (f : Fault) (line : Int) : Fault :=
  match f.line with
  | some _ => f
  | none => if line = 0 then f else ⟨f.cause, some line⟩

/-- The message of a failure. -/
def message (f : Fault) : String :=
  match f.line with
  | none => f.cause.text
  | some line => f.cause.text ++ " (line " ++ toString line ++ ")"

end Fault

end Scriptlet
