import Scriptlet.Lexical.Token

/-!
# Complete entries

While an entry is typed, the opening parentheses and braces that are not closed yet tell whether it
goes on in another line, and how far that line is indented.
-/

namespace Scriptlet.Session

open Scriptlet.Lexical

/-- How many of the brackets opened in these words and in `depth` brackets before them are still open.
There is no answer if more are closed than opened. -/
def depthAfter : Nat → List Token → Option Nat
  | depth, [] => some depth
  | depth, t :: ts =>
    match t.kind with
    | .leftParen | .leftBrace => depthAfter (depth + 1) ts
    | .rightParen | .rightBrace =>
      match depth with
      | 0 => none
      | depth + 1 => depthAfter depth ts
    | _ => depthAfter depth ts

/-- How many brackets are open at the end of a text; none if it cannot be cut into words, and no answer
if somewhere more are closed than opened. -/
def openDepth (text : String) : Option Nat :=
  let c := cut text
  if c.stuck.isSome then some 0 else depthAfter 0 c.tokens

/-- The text needs no further line. -/
def isComplete (text : String) : Bool := (openDepth text).getD 0 = 0

/-- How many spaces each open bracket indents the next line by. -/
def indentWidth : Nat := 4

/-- How many spaces the line after the text is indented by. -/
def indentAfter (text : String) : Nat := indentWidth * (openDepth text).getD 0

end Scriptlet.Session
