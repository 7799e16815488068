import Scriptlet.Grammar.Follow

/-!
# Items

An item is a rule with a dot that separates the parts already read from those still to come. A state
of the reader is a set of items, each with the lookaheads that may follow its phrase. It is given by
its kernel, the items whose dot has just moved; the other items are the rules of the phrases that
these ask for. Reading a symbol leads to the state of the items whose dot can move over it.
-/

namespace Scriptlet.Grammar

/-- A rule with the number of its parts already read. -/
structure Item where
  /-- The rule. -/
  rule : Rule
  /-- How many of its parts have been read. -/
  dot : Nat
  deriving DecidableEq, Repr

namespace Item

/-- The parts still to be read. -/
def unread (i : Item) : List Symbol := i.rule.parts.drop i.dot

/-- The item after one more part. -/
def advance (i : Item) : Item := ⟨i.rule, i.dot + 1⟩

end Item

/-- An item with the lookaheads that may follow its phrase. -/
structure Prospect where
  /-- The item. -/
  item : Item
  /-- What may follow its phrase. -/
  ahead : LookaheadSet
  deriving DecidableEq, Repr

/-- The phrases that an item asks for, each with what may follow it. -/
def Prospect.demand (p : Prospect) : Follow :=
  match p.item.unread with
  | .phrase c :: others => (corners c).instead (startsOf others p.ahead)
  | _ => .empty

/-! ### States -/

/-- The items a state starts out with: those whose dot has just moved. -/
abbrev Kernel := List Prospect

namespace Kernel

/-- The phrases a state asks for, each with what may follow it. The first state, which has no item to
start out with, asks for a program up to the end of the text. -/
def demand (k : Kernel) : Follow :=
  if k.isEmpty then corners .program
  else k.foldl (fun f p => f.union p.demand) .empty

/-- All items of a state: those it starts out with and the rules of the phrases it asks for. -/
def items (k : Kernel) : List Prospect :=
  k ++ (Category.all.zip k.demand.sets).flatMap fun (c, ahead) =>
    if ahead.isEmpty then [] else (Rule.making c).map fun r => ⟨⟨r, 0⟩, ahead⟩

/-- Two kernels have the same items, whatever their lookaheads. -/
def sameItems (k l : Kernel) : Bool :=
  k.all (fun p => l.any fun q => p.item = q.item) &&
    l.all (fun q => k.any fun p => p.item = q.item)

/-- A kernel with the lookaheads of another one too. -/
def merge (k l : Kernel) : Kernel :=
  k.map fun p =>
    ⟨p.item, l.foldl (fun s q => if q.item = p.item then s.union q.ahead else s) p.ahead⟩

end Kernel

/-- Kernels by the symbol that leads to them, with one more item. -/
def addProspect (s : Symbol) (p : Prospect) : List (Symbol × Kernel) → List (Symbol × Kernel)
  | [] => [(s, [p])]
  | (t, k) :: others =>
    if t = s then (t, k ++ [p]) :: others else (t, k) :: addProspect s p others

/-- The kernels that the items of a state lead to, by the symbols read. -/
def successors (items : List Prospect) : List (Symbol × Kernel) :=
  items.foldl (fun found p =>
    match p.item.unread with
    | [] => found
    | s :: _ => addProspect s ⟨p.item.advance, p.ahead⟩ found) []

end Scriptlet.Grammar
