/-!
# What a string literal denotes

Between its quotes a string literal holds characters and escapes. A backslash gives the character
after it, except that four letters stand for characters that are hard to see. A backslash at the very
end stands for itself.
-/

namespace Scriptlet.Lexical

/-- The character that an escape stands for. -/
def escaped : Char → Char
  | 'n' => '\n'
  | 't' => '\t'
  | 'r' => '\r'
  | '0' => '\x00'
  | c => c

/-- The characters that the inside of a string literal denotes. -/
def unescape : List Char → List Char
  | '\\' :: c :: cs => escaped c :: unescape cs
  | c :: cs => c :: unescape cs
  | [] => []

/-- The string that a literal denotes; its first and last characters are taken for its quotes. -/
def unquote (literal : List Char) : String := String.ofList (unescape literal.tail.dropLast)

end Scriptlet.Lexical
