/-!
# Blank characters

The white space of Unicode together with the four information separators, and the two things done
with it: cutting blanks off both ends of a text and splitting a text after its first word.
-/

namespace Scriptlet.Text

/-- The ranges of blank code points, both ends included. -/
def blankRanges : List (Nat × Nat) :=
  [(0x09, 0x0d), (0x1c, 0x20), (0x85, 0x85), (0xa0, 0xa0), (0x1680, 0x1680), (0x2000, 0x200a),
   (0x2028, 0x2029), (0x202f, 0x202f), (0x205f, 0x205f), (0x3000, 0x3000)]

/-- White space in the sense of Unicode, or an information separator (U+001C to U+001F). -/
def isBlank (c : Char) : Bool :=
  blankRanges.any fun (low, high) => low ≤ c.toNat && c.toNat ≤ high

/-- The text without the blanks at its two ends. -/
def trim (s : String) : String :=
  String.ofList (((s.toList.dropWhile isBlank).reverse.dropWhile isBlank).reverse)

/-- The first word of a text that does not start with a blank, and what follows the blanks after
that word. -/
def splitWord (s : String) : String × String :=
  let cs := s.toList
  (String.ofList (cs.takeWhile fun c => !isBlank c),
    String.ofList ((cs.dropWhile fun c => !isBlank c).dropWhile isBlank))

/-- A text holds blanks only. -/
def isAllBlank (s : String) : Bool := s.toList.all isBlank

end Scriptlet.Text
