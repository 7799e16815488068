/-!
# Positions in a text

A position counts the characters that precede it and says on which line and in which column it
lies, both counted from one. Only a line feed starts a new line; every other character, a carriage
return included, moves one column to the right.

## What is stated

* `Position.line_advance`: moving over a stretch of text adds its line feeds to the line.
* `Position.advance_append`: moving over two stretches in turn is moving over both at once.
-/

namespace Scriptlet.Text

/-- A place in a text: how many characters precede it, its line, and its column. -/
structure Position where
  /-- How many characters precede it. -/
  offset : Nat
  /-- Its line, counted from one. -/
  line : Nat
  /-- Its column, counted from one. -/
  column : Nat
  deriving DecidableEq, Repr

namespace Position

/-- The start of a text. -/
def start : Position := ⟨0, 1, 1⟩

/-- The position after the character `c`. -/
def step (p : Position) (c : Char) : Position :=
  if c = '\n' then ⟨p.offset + 1, p.line + 1, 1⟩ else ⟨p.offset + 1, p.line, p.column + 1⟩

/-- The position after a stretch of text. -/
def advance (p : Position) (cs : List Char) : Position := cs.foldl step p

@[simp] theorem advance_nil (p : Position) : p.advance [] = p := rfl

@[simp] theorem advance_cons (p : Position) (c : Char) (cs : List Char) :
    p.advance (c :: cs) = (p.step c).advance cs := rfl

theorem advance_append (p : Position) (cs ds : List Char) :
    p.advance (cs ++ ds) = (p.advance cs).advance ds := by
  simp [advance]

theorem line_advance (p : Position) (cs : List Char) :
    (p.advance cs).line = p.line + cs.count '\n' := by
  induction cs generalizing p with
  | nil => rfl
  | cons c cs ih =>
    rw [advance_cons, ih, List.count_cons]
    by_cases hc : c = '\n'
    · simp [step, hc]
      omega
    · simp [step, hc]

end Position

end Scriptlet.Text
