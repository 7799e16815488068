import Scriptlet.Store.Heap
import Scriptlet.Text.Quoted

/-!
# How values are shown

A value has a text, which `print` writes, and messages also tell its type. An object shows what is
bound in it; where it comes up again inside itself, a mark stands for it. Functions and scopes do not
show what is in them, so only plain objects can go round in a circle.

## Honest scope

An integer is shown with all its digits, in messages too. The bound that an interpreter can set on the
digits of an integer that it turns into a text is left out, so every value has a text.
-/

namespace Scriptlet

namespace Heap

/-- The mark that stands for an object inside itself. -/
def cycleMark : String := "\x7b...\x7d"

/-- The text of an object. `path` holds the objects it is being shown in; the fuel bounds their
number. -/
def renderFrom (h : Heap) : Nat → List Loc → Loc → String
  | 0, _, _ => cycleMark
  | fuel + 1, path, place =>
    match (h.get place).nature with
    | .function name _ => "function " ++ name
    | .scope _ => "[env]"
    | .plain =>
      if path.contains place then cycleMark
      else
        let slot : String × Value → String := fun (name, value) =>
          name ++ ": " ++
            match value with
            | .undefined => "undefined"
            | .int n => toString n
            | .str s => "\"" ++ s ++ "\""
            | .ref inner => renderFrom h fuel (place :: path) inner
        "\x7b" ++ String.intercalate ", " ((h.get place).slots.map slot) ++ "\x7d"

/-- The text of an object. The objects it is shown in are different ones, so that there are no more
of them than there are objects. -/
def render (h : Heap) (place : Loc) : String := h.renderFrom (h.objects.size + 1) [] place

/-- The text of a value. -/
def display (h : Heap) : Value → String
  | .undefined => "undefined"
  | .int n => toString n
  | .str s => s
  | .ref place => h.render place

/-- The text of a value with strings between quotes. -/
def displayQuoted (h : Heap) : Value → String
  | .str s => Text.quote s
  | v => h.display v

/-- The type of a value as messages call it. -/
def typeName (h : Heap) : Value → String
  | .undefined => "undefined"
  | .int _ => "integer"
  | .str _ => "string"
  | .ref place => if (h.get place).isFunction then "function" else "object"

/-- The type of a value and its text. -/
def displayTyped (h : Heap) (v : Value) : String := h.typeName v ++ " " ++ h.display v

/-- How messages refer to a value that is not of the right kind. -/
def describe (h : Heap) : Value → String
  | .undefined => "undefined"
  | .int n => h.displayTyped (.int n)
  | .str s => Text.quote s
  | .ref place =>
    match (h.get place).nature with
    | .plain => "object " ++ h.render place
    | .scope _ | .function _ _ => h.render place

end Heap

end Scriptlet
