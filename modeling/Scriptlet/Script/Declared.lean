import Scriptlet.Script.Expr

/-!
# Declared names

Before a block runs, every name that it declares is bound. The walk that finds these names enters
nested blocks and both branches of a choice, and nothing else: a function declares its names when it
is called, and operands declare none.
-/

namespace Scriptlet

mutual

/-- The names that a construct declares in the block it belongs to, in the order of the walk. -/
def Expr.declared : Expr → List String
  | .block body => body.declared
  | .assign name _ true _ => [name]
  | .choose _ yes no _ => yes.declared ++ no.declared
  | _ => []

/-- The names that a block declares, in the order of the walk. -/
def Block.declared : Block → List String
  | ⟨statements, _⟩ => declaredIn statements

/-- The names that a list of statements declares, in the order of the walk. -/
def declaredIn : List Expr → List String
  | [] => []
  | e :: es => e.declared ++ declaredIn es

end

theorem declaredIn_append (es fs : List Expr) :
    declaredIn (es ++ fs) = declaredIn es ++ declaredIn fs := by
  induction es with
  | nil => rfl
  | cons e es ih => simp [declaredIn, ih]

end Scriptlet
