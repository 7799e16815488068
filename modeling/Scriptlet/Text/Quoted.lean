import Scriptlet.Text.Printable

/-!
# Quoted texts

How a text is shown between quotes so that it stays on one line and is told apart from its
surroundings. Single quotes are used, unless the text holds a single quote and no double quote.
A backslash and the quote in use are escaped by a backslash, line feed, carriage return and tab are
written by name, and every other character that is not printable by its code in two, four or eight
hexadecimal digits.
-/

namespace Scriptlet.Text

/-- The last `width` hexadecimal digits of `n`, in lower case. -/
def hexDigits : Nat → Nat → List Char
  | 0, _ => []
  | width + 1, n => hexDigits width (n / 16) ++ [Nat.digitChar (n % 16)]

/-- The code of a character that is not printable, in the shortest of the three widths. -/
def escapeCode (c : Char) : List Char :=
  if c.toNat < 0x100 then '\\' :: 'x' :: hexDigits 2 c.toNat
  else if c.toNat < 0x10000 then '\\' :: 'u' :: hexDigits 4 c.toNat
  else '\\' :: 'U' :: hexDigits 8 c.toNat

/-- How one character is written between the given quotes. -/
def quoteChar (mark : Char) (c : Char) : List Char :=
  if c = mark || c = '\\' then ['\\', c]
  else if c = '\n' then ['\\', 'n']
  else if c = '\r' then ['\\', 'r']
  else if c = '\t' then ['\\', 't']
  else if isPrintable c then [c]
  else escapeCode c

/-- The quote that suits a text. -/
def quoteMark (cs : List Char) : Char :=
  if cs.contains '\'' && !cs.contains '"' then '"' else '\''

/-- A text between quotes. -/
def quoteList (cs : List Char) : List Char :=
  quoteMark cs :: (cs.flatMap (quoteChar (quoteMark cs)) ++ [quoteMark cs])

/-- A text between quotes, as a string. -/
def quote (s : String) : String := String.ofList (quoteList s.toList)

end Scriptlet.Text
