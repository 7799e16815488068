import Scriptlet.Script.Expr
import Scriptlet.Text.Quoted

/-!
# Dumps of scripts

A dump shows a tree line by line: one line for every construct, with its plain attributes and its
line number, and one for every list that it holds, indented below it. A list of names stands on its
own line between parentheses, and so does every empty list; any other list announces how many items
follow.

## Honest scope

As where values are shown, an integer stands with all its digits, and the bound that an interpreter can set
on them is left out.
-/

namespace Scriptlet

/-- How a literal stands in a dump. -/
def Literal.dump : Literal → String
  | .undefined => "undefined"
  | .int n => toString n
  | .str s => Text.quote s

namespace Dump

/-- The margin of a dump line: one indent for every level, then the label, if there is one. -/
def margin (indent : String) (level : Nat) (label : String) : String :=
  String.join (List.replicate level indent) ++ (if label = "" then "" else label ++ ": ")

/-- How a truth value stands in a dump. -/
def flag (b : Bool) : String := if b then "True" else "False"

/-- The head line of a construct. -/
def headLine (indent : String) (level : Nat) (label head : String) (line : Int) : String :=
  margin indent level label ++ head ++ " @" ++ toString line

/-- The line of a list of names. -/
def namesLine (indent : String) (level : Nat) (label : String) (names : List String) : String :=
  margin indent level label ++ "(" ++ String.intercalate ", " names ++ ")"

/-- The line that announces a list of `n` items. -/
def countLine (indent : String) (level : Nat) (label : String) (n : Nat) : String :=
  if n = 0 then namesLine indent level label []
  else margin indent level label ++ "[" ++ toString n ++ "]"

mutual

/-- The dump lines of a construct. -/
def exprLines (indent : String) (level : Nat) (label : String) : Expr → List String
  | .block body => blockLines indent level label body
  | .literal value line =>
    [headLine indent level label ("Literal value=" ++ value.dump) line]
  | .call callee args line =>
    headLine indent level label "Call" line ::
      exprLines indent (level + 1) "qualifier" callee ++
      countLine indent (level + 1) "args" args.length :: listLines indent (level + 2) args
  | .identifier name line =>
    [headLine indent level label ("Identifier name=" ++ Text.quote name) line]
  | .assign name value declares line =>
    headLine indent level label
        ("VarAssignment name=" ++ Text.quote name ++ " declaration=" ++ flag declares) line ::
      exprLines indent (level + 1) "expr" value
  | .function name params binds body line =>
    headLine indent level label
        ("Fun name=" ++ Text.quote name ++ " toplevel=" ++ flag binds) line ::
      namesLine indent (level + 1) "parameters" params ::
      blockLines indent (level + 1) "body" body
  | .returns value line =>
    headLine indent level label "Return" line :: exprLines indent (level + 1) "expr" value
  | .choose condition yes no line =>
    headLine indent level label "If" line ::
      exprLines indent (level + 1) "condition" condition ++
      blockLines indent (level + 1) "true_block" yes ++
      blockLines indent (level + 1) "false_block" no
  | .object fields line =>
    headLine indent level label "ObjectLiteral" line ::
      countLine indent (level + 1) "fields" fields.length :: fieldLines indent (level + 2) fields
  | .field receiver name line =>
    headLine indent level label ("FieldAccess name=" ++ Text.quote name) line ::
      exprLines indent (level + 1) "receiver" receiver
  | .setField receiver name value line =>
    headLine indent level label ("FieldAssignment name=" ++ Text.quote name) line ::
      exprLines indent (level + 1) "receiver" receiver ++
      exprLines indent (level + 1) "expr" value
  | .method receiver name args line =>
    headLine indent level label ("MethodCall name=" ++ Text.quote name) line ::
      exprLines indent (level + 1) "receiver" receiver ++
      countLine indent (level + 1) "args" args.length :: listLines indent (level + 2) args

/-- The dump lines of a block. -/
def blockLines (indent : String) (level : Nat) (label : String) : Block → List String
  | ⟨statements, line⟩ =>
    headLine indent level label "Block" line ::
      countLine indent (level + 1) "exprs" statements.length ::
      listLines indent (level + 2) statements

/-- The dump lines of the items of a list. -/
def listLines (indent : String) (level : Nat) : List Expr → List String
  | [] => []
  | e :: es => exprLines indent level "" e ++ listLines indent level es

/-- The dump lines of the fields of an object, each labelled with its name. -/
def fieldLines (indent : String) (level : Nat) : List (String × Expr) → List String
  | [] => []
  | (name, e) :: fields => exprLines indent level name e ++ fieldLines indent level fields

end

/-- The dump lines of a script. -/
def scriptLines (indent : String) (script : Script) : List String :=
  "Script" :: blockLines indent 1 "" script.body

/-- Dump lines, each ended by a line feed. -/
def text (lines : List String) : String := String.join (lines.map (· ++ "\n"))

/-- The indent of a dump where none is asked for. -/
def standardIndent : String := "  "

end Dump

/-- The dump of a construct on its own. -/
def Expr.dump (indent : String) (e : Expr) : String := Dump.text (Dump.exprLines indent 0 "" e)

/-- The dump of a script. -/
def Script.dump (indent : String) (script : Script) : String :=
  Dump.text (Dump.scriptLines indent script)

end Scriptlet
