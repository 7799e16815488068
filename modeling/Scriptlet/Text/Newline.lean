/-!
# Line ends of files

A file may end its lines by a line feed, a carriage return, or both. Read as a text it has line
feeds only.
-/

namespace Scriptlet.Text

/-- Every line end becomes a single line feed. -/
def unifyNewlines : List Char → List Char
  | '\r' :: '\n' :: cs => '\n' :: unifyNewlines cs
  | '\r' :: cs => '\n' :: unifyNewlines cs
  | c :: cs => c :: unifyNewlines cs
  | [] => []

/-- The text of a file. -/
def ofFile (contents : String) : String := String.ofList (unifyNewlines contents.toList)

end Scriptlet.Text
