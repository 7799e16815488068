/-!
# Scripts

The trees that scripts are read into and that the evaluator runs. There is one type for expressions
and statements alike, because any of them may stand where another is evaluated; what the reader of
source text makes of them is narrower. Binary operators have no construct of their own: they are
calls of global functions whose names are the operators.

Every construct carries the line it came from, so that a failure can point at it. Line `0` means
that no line is known; lines come from outside too, so nothing forbids negative ones.
-/

namespace Scriptlet

/-- What a script can write down directly. -/
inductive Literal where
  /-- No value. -/
  | undefined
  /-- An integer of any size. -/
  | int (n : Int)
  /-- A string. -/
  | str (s : String)
  deriving DecidableEq, Repr, Inhabited

mutual

/-- An expression or statement. -/
inductive Expr where
  /-- A block in statement position. -/
  | block (body : Block)
  /-- A literal. -/
  | literal (value : Literal) (line : Int)
  /-- A call of a function. -/
  | call (callee : Expr) (args : List Expr) (line : Int)
  /-- The value of a name. -/
  | identifier (name : String) (line : Int)
  /-- An assignment to a name, which may declare the name as well. -/
  | assign (name : String) (value : Expr) (declares : Bool) (line : Int)
  /-- A function. If `binds` is set, its name is bound to it where it is evaluated. -/
  | function (name : String) (params : List String) (binds : Bool) (body : Block) (line : Int)
  /-- The end of the enclosing function, with its value. -/
  | returns (value : Expr) (line : Int)
  /-- A choice between two blocks. -/
  | choose (condition : Expr) (yes no : Block) (line : Int)
  /-- A new object with the given fields. -/
  | object (fields : List (String × Expr)) (line : Int)
  /-- The value of a field. -/
  | field (receiver : Expr) (name : String) (line : Int)
  /-- An assignment to a field. -/
  | setField (receiver : Expr) (name : String) (value : Expr) (line : Int)
  /-- A call of a function held in a field, which gets the receiver along. -/
  | method (receiver : Expr) (name : String) (args : List Expr) (line : Int)

/-- A sequence of statements. -/
inductive Block where
  /-- The statements, in order, and the line of the block. -/
  | mk (statements : List Expr) (line : Int)

end

namespace Block

/-- The statements of a block. -/
def statements : Block → List Expr
  | ⟨statements, _⟩ => statements

/-- The line of a block. -/
def line : Block → Int
  | ⟨_, line⟩ => line

instance : Inhabited Block := ⟨⟨[], 0⟩⟩

end Block

namespace Expr

instance : Inhabited Expr := ⟨.literal .undefined 0⟩

/-- The line a construct came from. -/
def line : Expr → Int
  | block body => body.line
  | literal _ line | call _ _ line | identifier _ line | assign _ _ _ line
  | function _ _ _ _ line | returns _ line | choose _ _ _ line | object _ line
  | field _ _ line | setField _ _ _ line | method _ _ _ line => line

end Expr

/-- A whole script. -/
structure Script where
  /-- Its statements. -/
  body : Block

end Scriptlet
