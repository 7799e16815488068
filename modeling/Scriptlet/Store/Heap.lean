import Scriptlet.Script.Expr
import Scriptlet.Store.Builtin

/-!
# Values and the heap

A value is nothing, an integer, a string, or a reference to an object. Objects live on a heap that
only grows: an object has the place where it was put for good, and what changes is the values bound
in it. Plain objects, functions and scopes are all objects. A scope is the bindings of one running
function or of the whole script, and it has a parent, the scope in which the function was made.

## What is stated

* `Slots.get?_set`: a name is bound to what was bound to it last.
* `Slots.names_set`: binding keeps the names and their order, and a new name comes last.
* `Heap.createGlobals_empty`: the first heap is what a fresh global scope makes of no heap.
-/

namespace Scriptlet

/-- The place of an object on the heap. -/
abbrev Loc := Nat

/-- A value. -/
inductive Value where
  /-- No value. -/
  | undefined
  /-- An integer of any size. -/
  | int (n : Int)
  /-- A string. -/
  | str (s : String)
  /-- An object. -/
  | ref (place : Loc)
  deriving DecidableEq, Repr, Inhabited

/-- The value of a literal. -/
def Literal.value : Literal → Value
  | undefined => .undefined
  | int n => .int n
  | str s => .str s

/-! ### Bindings -/

/-- Names bound to values, in the order in which they were bound first. -/
abbrev Slots := List (String × Value)

namespace Slots

/-- The names bound. -/
def names (slots : Slots) : List String := slots.map Prod.fst

/-- The value bound to a name. -/
def get? : Slots → String → Option Value
  | [], _ => none
  | (n, v) :: slots, name => if n = name then some v else get? slots name

/-- Binds a name. A name that is bound already keeps its place. -/
def set : Slots → String → Value → Slots
  | [], name, value => [(name, value)]
  | (n, v) :: slots, name, value =>
    if n = name then (n, value) :: slots else (n, v) :: set slots name value

theorem get?_set (slots : Slots) (name other : String) (value : Value) :
    (slots.set name value).get? other = if name = other then some value else slots.get? other := by
  induction slots with
  | nil => simp [set, get?]
  | cons slot slots ih =>
    obtain ⟨n, v⟩ := slot
    by_cases h : n = name
    · subst h
      by_cases h' : n = other <;> simp [set, get?, h']
    · by_cases h' : n = other
      · subst h'
        simp [set, get?, h, Ne.symm h]
      · simp [set, get?, h, h', ih]

theorem names_set (slots : Slots) (name : String) (value : Value) :
    (slots.set name value).names =
      if name ∈ slots.names then slots.names else slots.names ++ [name] := by
  induction slots with
  | nil => simp [set, names]
  | cons slot slots ih =>
    obtain ⟨n, v⟩ := slot
    by_cases h : n = name
    · subst h
      simp [set, names]
    · simp only [set, if_neg h, names, List.map_cons, List.mem_cons, Ne.symm h, false_or] at ih ⊢
      rw [ih]
      by_cases hm : name ∈ List.map Prod.fst slots <;> simp [hm]

end Slots

/-! ### Objects -/

/-- What a function does when it is called. -/
inductive Code where
  /-- A built-in function. -/
  | builtin (b : Builtin)
  /-- A function of the script, with the scope in which it was made. -/
  | closure (params : List String) (body : Block) (scope : Loc)

/-- The kinds of object. -/
inductive Nature where
  /-- A plain object. -/
  | plain
  /-- A scope, inside its parent if it has one. -/
  | scope (parent : Option Loc)
  /-- A function. -/
  | function (name : String) (code : Code)
  deriving Inhabited

/-- An object. -/
structure Object where
  /-- Its kind. -/
  nature : Nature
  /-- The names bound in it. -/
  slots : Slots
  deriving Inhabited

namespace Object

/-- A plain object with nothing bound. -/
def empty : Object := ⟨.plain, []⟩

/-- The scope around an object; only scopes have one. -/
def parent? (o : Object) : Option Loc :=
  match o.nature with
  | .scope parent => parent
  | .plain | .function _ _ => none

/-- The object can be called. -/
def isFunction (o : Object) : Bool :=
  match o.nature with
  | .function _ _ => true
  | .plain | .scope _ => false

/-- The object with a name bound in it. -/
def bind (o : Object) (name : String) (value : Value) : Object :=
  ⟨o.nature, o.slots.set name value⟩

end Object

/-! ### The heap -/

/-- The objects, by their places. -/
structure Heap where
  /-- The objects. -/
  objects : Array Object

namespace Heap

/-- The object at a place. Where none has been put there is an empty one. -/
def get (h : Heap) (place : Loc) : Object := h.objects.getD place .empty

/-- The place where the next object is put. -/
def next (h : Heap) : Loc := h.objects.size

/-- The heap with one more object. -/
def push (h : Heap) (o : Object) : Heap := ⟨h.objects.push o⟩

/-- The place of one more object, and the heap with it. -/
def allocate (h : Heap) (o : Object) : Loc × Heap := (h.next, h.push o)

/-- Binds a name in the object at a place. -/
def bind (h : Heap) (place : Loc) (name : String) (value : Value) : Heap :=
  ⟨h.objects.modify place fun o => o.bind name value⟩

/-- Binds names in the object at a place, one after the other. -/
def bindAll (h : Heap) (place : Loc) (bindings : List (String × Value)) : Heap :=
  bindings.foldl (fun h (name, value) => h.bind place name value) h

/-- Looks for a name in an object and, if it is a scope, in the scopes around it, at most in as many
objects as the fuel says. -/
def lookupFrom (h : Heap) (name : String) : Nat → Loc → Option Value
  | 0, _ => none
  | fuel + 1, place =>
    match (h.get place).slots.get? name with
    | some value => some value
    | none =>
      match (h.get place).parent? with
      | some parent => lookupFrom h name fuel parent
      | none => none

/-- The value that a name has at a place. A scope lies behind the scopes around it on the heap, so
the place itself bounds their number. -/
def lookup? (h : Heap) (place : Loc) (name : String) : Option Value :=
  h.lookupFrom name (place + 1) place

/-- The value can be called. -/
def isFunction (h : Heap) : Value → Bool
  | .ref place => (h.get place).isFunction
  | .undefined | .int _ | .str _ => false

/-! ### The first heap -/

/-- The place of the global scope. -/
def globals : Loc := 0

/-- The name of the global scope in itself. -/
def globalName : String := "globalThis"

/-- The object of a built-in function. -/
def builtinObject (b : Builtin) : Object := ⟨.function b.name (.builtin b), []⟩

/-- What is bound in a fresh global scope: the scope itself and the built-in functions, which lie behind
it on the heap. -/
def globalSlotsAt (root : Loc) : Slots :=
  (globalName, .ref root) ::
    Builtin.all.zipIdx.map fun (b, i) => (b.name, .ref (i + 1 + root))

/-- What is bound in the global scope before a script runs. -/
def globalSlots : Slots := globalSlotsAt globals

/-- A fresh global scope at a place, and the built-in functions behind it. -/
def globalObjects (root : Loc) : List Object :=
  ⟨.scope none, globalSlotsAt root⟩ :: Builtin.all.map builtinObject

/-- The heap before a script runs. -/
def initial : Heap := ⟨(globalObjects globals).toArray⟩

/-- The place of a fresh global scope behind all objects, and the heap with it. -/
def createGlobals (h : Heap) : Loc × Heap :=
  (h.next, ⟨h.objects ++ (globalObjects h.next).toArray⟩)

/-- The heap before a script runs has nothing but a fresh global scope. -/
theorem createGlobals_empty : createGlobals ⟨#[]⟩ = (globals, initial) := by
  rw [createGlobals, Array.empty_append]
  rfl

/-- What is bound in a scope, without those global bindings that are still the first ones. -/
def ownSlots (h : Heap) (place : Loc) : Slots :=
  let slots := (h.get place).slots
  if place = globals then slots.filter fun slot => !globalSlots.contains slot else slots

end Heap

end Scriptlet
