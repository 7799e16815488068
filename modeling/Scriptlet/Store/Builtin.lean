/-!
# Built-in functions

The functions that every script starts out with: `print` and the operators. An operator is an ordinary
function whose name is its sign.
-/

namespace Scriptlet

/-- The operators. -/
inductive Operator where
  /-- Addition. -/
  | add
  /-- Subtraction. -/
  | sub
  /-- Multiplication. -/
  | mul
  /-- Division, toward zero. -/
  | div
  /-- The remainder of division toward zero. -/
  | mod
  /-- Equality. -/
  | eq
  /-- Difference. -/
  | ne
  /-- Less. -/
  | lt
  /-- Less or equal. -/
  | le
  /-- Greater. -/
  | gt
  /-- Greater or equal. -/
  | ge
  deriving DecidableEq, Repr

/-- The sign of an operator. -/
def Operator.sign : Operator → String
  | add => "+"
  | sub => "-"
  | mul => "*"
  | div => "/"
  | mod => "%"
  | eq => "=="
  | ne => "!="
  | lt => "<"
  | le => "<="
  | gt => ">"
  | ge => ">="

/-- The built-in functions. -/
inductive Builtin where
  /-- Writes its arguments on a line. -/
  | print
  /-- An operator. -/
  | operator (o : Operator)
  deriving DecidableEq, Repr

namespace Builtin

/-- The name of a built-in function. -/
def name : Builtin → String
  | print => "print"
  | operator o => o.sign

/-- All built-in functions, in the order in which a script finds them bound. -/
def all : List Builtin :=
  [print, operator .add, operator .sub, operator .mul, operator .div, operator .mod,
   operator .eq, operator .ne, operator .lt, operator .le, operator .gt, operator .ge]

theorem mem_all (b : Builtin) : b ∈ all := by
  rcases b with _ | o
  · decide
  · cases o <;> decide

end Builtin

end Scriptlet
