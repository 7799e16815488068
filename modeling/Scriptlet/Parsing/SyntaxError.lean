import Scriptlet.Grammar.Lookahead
import Scriptlet.Text.Position
import Scriptlet.Text.Quoted

/-!
# Syntax errors

Why a text is no script, and where that shows. A message names at most eight of the lookaheads that
would have been right, in the order of their names.
-/

namespace Scriptlet.Parsing

open Scriptlet.Grammar Scriptlet.Text

/-- Why a text is no script. -/
inductive SyntaxCause where
  /-- No word starts with this character here. -/
  | unexpectedCharacter (c : Char)
  /-- This word cannot come next; the lookaheads could. -/
  | unexpectedToken (word : List Char) (expected : LookaheadSet)
  /-- The text cannot end here; the lookaheads could come next. -/
  | unexpectedEnd (expected : LookaheadSet)
  /-- The text cannot be cut into words here. -/
  | notAWord
  deriving DecidableEq, Repr

/-- A syntax error. -/
structure SyntaxError where
  /-- Why the text is no script. -/
  cause : SyntaxCause
  /-- Where that shows. -/
  position : Position
  deriving DecidableEq, Repr

/-- How many of the right lookaheads a message names. -/
def shownExpected : Nat := 8

/-- The part of a message that names the right lookaheads. -/
def expectedText (expected : LookaheadSet) : String :=
  let labels := (Lookahead.byLabel.filter expected.contains).map Lookahead.label
  if labels.isEmpty then ""
  else "; expected one of " ++ String.intercalate ", " (labels.take shownExpected)

/-- A cause in words. -/
def SyntaxCause.text : SyntaxCause → String
  | unexpectedCharacter c => "Unexpected character " ++ quote (String.singleton c)
  | unexpectedToken word expected =>
    "Unexpected token " ++ quote (String.ofList word) ++ expectedText expected
  | unexpectedEnd expected => "Unexpected end of input" ++ expectedText expected
  | notAWord => "Unexpected character"

/-- The message of a syntax error. -/
def SyntaxError.message (e : SyntaxError) : String :=
  e.cause.text ++ " (line " ++ toString e.position.line ++ ", col " ++ toString e.position.column
    ++ ")"

end Scriptlet.Parsing
