import Scriptlet.Evaluation.Operation
import Scriptlet.Script.Declared

/-!
# Evaluation

Every construct is evaluated in a scope. Names are looked for from that scope outwards, but whatever is
bound is bound in the scope itself, so an assignment in a function never changes the scope around it.

A block binds all names that it declares, without a value, before its first statement runs. A block
that stands in another one, or in a choice, runs in the same scope and its names are bound already.

`step` says what a construct does, given what evaluating its parts does; `eval` ties the knot. Its
first argument bounds how deeply constructs are nested while a script runs, calls included, and not
how long it runs.
-/

namespace Scriptlet

namespace Eval

/-- Binds the names that a block declares, without a value. -/
def declare (scope : Loc) (names : List String) : Eval Unit :=
  changeHeap fun h => h.bindAll scope (names.map fun name => (name, .undefined))

/-- The object that a value must be. -/
def expectObject (v : Value) : Eval Loc := do
  match v with
  | .ref place => return place
  | v => fail (.notObject ((← heap).describe v))

/-- The function that a value must be; `subject` is what messages call it. -/
def expectFunction (subject : Heap → String) (v : Value) : Eval Loc := do
  let h ← heap
  match v with
  | .ref place => if h.isFunction v then return place else fail (.notFunction (subject h))
  | _ => fail (.notFunction (subject h))

/-- The value of a name. -/
def resolve (scope : Loc) (name : String) : Eval Value := do
  match (← heap).lookup? scope name with
  | some value => return value
  | none => fail (.undefinedName name)

/-- The values of operands, from left to right. -/
def evalAll (recur : Expr → Eval Value) : List Expr → Eval (List Value)
  | [] => return []
  | e :: es => do
    let v ← recur e
    let vs ← evalAll recur es
    return v :: vs

/-- Binds the fields of an object, in order. -/
def evalFields (recur : Expr → Eval Value) (slots : Slots) : List (String × Expr) → Eval Slots
  | [] => return slots
  | (name, e) :: fields => do
    let v ← recur e
    evalFields recur (slots.set name v) fields

mutual

/-- Runs the statements of a block whose names are bound. -/
def runBlock (recur : Expr → Eval Value) : Block → Eval Unit
  | ⟨statements, _⟩ => runStatements recur statements

/-- Runs statements one after the other. -/
def runStatements (recur : Expr → Eval Value) : List Expr → Eval Unit
  | [] => return ()
  | e :: es => do
    runStatement recur e
    runStatements recur es

/-- Runs a statement for its effects. -/
def runStatement (recur : Expr → Eval Value) : Expr → Eval Unit
  | .block body => runBlock recur body
  | e => do
    let _ ← recur e

end

/-- Evaluation in any scope, as far as it is known already. -/
abbrev Recur := Loc → Expr → Eval Value

/-- The name under which a function finds the object that it was called on. -/
def receiverName : String := "this"

/-- Calls the function at a place. -/
def invoke (recur : Recur) (function : Loc) (receiver : Value) (args : List Value) :
    Eval Value := do
  let h ← heap
  match (h.get function).nature with
  | .function _ (.builtin b) => b.call args
  | .function name (.closure params body scope) =>
    if args.length ≠ params.length then fail (.wrongArity name params.length args.length)
    else
      let frame ← allocate ⟨.scope (some scope), []⟩
      bind frame receiverName receiver
      changeHeap fun h => h.bindAll frame (params.zip args)
      functionBody do
        let _ ← recur frame (.block body)
  | .plain | .scope _ => fail (.notInvocable (h.render function))

/-- What a construct does in a scope. -/
def step (recur : Recur) (scope : Loc) : Expr → Eval Value
  | .block body => do
    declare scope body.declared
    runBlock (recur scope) body
    return .undefined
  | .literal value _ => return value.value
  | .identifier name _ => resolve scope name
  | .call callee args _ => do
    let f ← recur scope callee
    let place ← expectFunction (fun h => h.describe f) f
    let vs ← evalAll (recur scope) args
    invoke recur place .undefined vs
  | .assign name value declares _ => do
    if declares then pure () else let _ ← resolve scope name
    let v ← recur scope value
    bind scope name v
    return v
  | .function name params binds body _ => do
    let place ← allocate ⟨.function name (.closure params body scope), []⟩
    if binds then bind scope name (.ref place)
    return .ref place
  | .returns value _ => do
    let v ← recur scope value
    throw (.returned v)
  | .choose condition yes no _ => do
    let v ← recur scope condition
    match v.truth? with
    | some true => runBlock (recur scope) yes
    | some false => runBlock (recur scope) no
    | none => pure ()
    return .undefined
  | .object fields _ => do
    let slots ← evalFields (recur scope) [] fields
    return .ref (← allocate ⟨.plain, slots⟩)
  | .field receiver name _ => do
    let v ← recur scope receiver
    let place ← expectObject v
    return ((← heap).lookup? place name).getD .undefined
  | .setField receiver name value _ => do
    let o ← recur scope receiver
    let place ← expectObject o
    let v ← recur scope value
    bind place name v
    return v
  | .method receiver name args _ => do
    let o ← recur scope receiver
    let place ← expectObject o
    let member := ((← heap).lookup? place name).getD .undefined
    let f ← expectFunction (fun h => name ++ " (" ++ h.describe member ++ ")") member
    let vs ← evalAll (recur scope) args
    invoke recur f o vs

end Eval

open Eval in
/-- The value of a construct in a scope, if constructs are not nested more deeply than `depth`. -/
def eval : Nat → Loc → Expr → Eval Value
  | 0, _, _ => throw .tooDeep
  | depth + 1, scope, e => locate e.line (step (eval depth) scope e)

/-- How deeply constructs may be nested while a script runs. -/
def standardDepth : Nat := 10000

end Scriptlet
