import Scriptlet.Lexical.Token
import Scriptlet.Store.Heap

/-!
# Highlighting

Each line of a text is shown on its own, its words in the style of the group that they belong to and
what stands between them without style. A line that cannot be cut into words has no style.
-/

namespace Scriptlet.Session

open Scriptlet.Lexical

/-- The groups of words. -/
inductive Group where
  /-- A reserved word. -/
  | keyword
  /-- A number. -/
  | number
  /-- A string. -/
  | string
  /-- A name. -/
  | identifier
  /-- The name of a built-in function or of the global scope. -/
  | builtin
  /-- The name of the receiver of a method. -/
  | this
  /-- An operator. -/
  | operator
  /-- Punctuation. -/
  | punctuation
  /-- A comment. -/
  | comment
  deriving DecidableEq, Repr

namespace Group

/-- The name of a group. -/
def label : Group → String
  | keyword => "keyword"
  | number => "number"
  | string => "string"
  | identifier => "identifier"
  | builtin => "builtin"
  | this => "this"
  | operator => "operator"
  | punctuation => "punctuation"
  | comment => "comment"

/-- The style of a group. -/
def style : Group → String
  | keyword => "bold ansicyan"
  | number => "ansimagenta"
  | string => "ansigreen"
  | identifier => ""
  | builtin => "bold ansiyellow"
  | this => "italic ansicyan"
  | operator => ""
  | punctuation => ""
  | comment => "italic ansigray"

/-- The group of a name. -/
def ofName (name : String) : Group :=
  if name = "this" then this
  else if name = Heap.globalName || (Builtin.all.map Builtin.name).contains name then builtin
  else identifier

end Group

/-- The group of a word. -/
def groupOf (t : Token) : Group :=
  match t.kind with
  | .name => Group.ofName t.text
  | .number => .number
  | .string => .string
  | .lineComment | .blockComment => .comment
  | .comparison | .sign | .factor | .equals => .operator
  | .functionWord | .returnWord | .elseWord | .varWord | .letWord | .ifWord => .keyword
  | .blank | .leftParen | .rightParen | .leftBrace | .rightBrace | .comma | .semicolon | .colon
  | .dot => .punctuation

/-- A piece of a line with its style. -/
structure Fragment where
  /-- The style. -/
  style : String
  /-- The text. -/
  text : String
  deriving DecidableEq, Repr

/-- What stands on a line from one place up to another, without style; nothing if there is nothing. -/
def unstyled (line : List Char) (low high : Nat) : List Fragment :=
  if low < high then [⟨"", String.ofList ((line.take high).drop low)⟩] else []

/-- Words of a line in the styles of their groups, where the line is shown up to a place already. What
stands before, between and behind them has no style; white space is passed over. -/
def fragmentsFrom (line : List Char) (place : Nat) : List Token → List Fragment
  | [] => unstyled line place line.length
  | t :: ts =>
    if t.kind = .blank || t.start.offset < place then fragmentsFrom line place ts
    else
      unstyled line place t.start.offset ++
        ⟨(groupOf t).style, t.text⟩ :: fragmentsFrom line (t.start.offset + t.word.length) ts

/-- A line in styles. -/
def highlightLine (line : String) : List Fragment :=
  let c := cut line
  if line.isEmpty || c.stuck.isSome then [⟨"", line⟩]
  else
    let fragments := fragmentsFrom line.toList 0 c.tokens
    if fragments.isEmpty then [⟨"", line⟩] else fragments

/-- The lines of a text, without the line feeds between them. -/
def splitLines : List Char → List (List Char)
  | [] => [[]]
  | '\n' :: cs => [] :: splitLines cs
  | c :: cs =>
    match splitLines cs with
    | [] => [[c]]
    | line :: lines => (c :: line) :: lines

/-- The lines of a text. -/
def linesOf (text : String) : List String := (splitLines text.toList).map String.ofList

/-- A text in styles, line by line. -/
def highlight (text : String) : List (List Fragment) := (linesOf text).map highlightLine

end Scriptlet.Session
