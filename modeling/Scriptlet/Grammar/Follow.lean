import Scriptlet.Grammar.Lookahead

/-!
# What phrases start with and what follows them

For every kind of phrase there is a set of lookaheads that it can start with, and for every place where
a phrase is asked for there are the phrases that this one can start with, each with the lookaheads
that can follow it there. Both are found by adding to the sets until they stay the same.

Only the program can be empty, and it is part of no rule. So the lookaheads that a list of parts can
start with are those that its first part can start with.
-/

namespace Scriptlet.Grammar

/-- Applies a function until nothing changes, at most as often as the fuel says. -/
def untilStable {α : Type} [DecidableEq α] (f : α → α) : Nat → α → α
  | 0, a => a
  | fuel + 1, a => let b := f a; if b = a then a else untilStable f fuel b

/-- A set of lookaheads for every kind of phrase. -/
structure Follow where
  /-- The sets, in the order in which all kinds of phrase are listed. -/
  sets : List LookaheadSet
  deriving DecidableEq, Repr

namespace Follow

/-- No lookaheads for any kind of phrase. -/
def empty : Follow := ⟨Category.all.map fun _ => .empty⟩

/-- The lookaheads for a kind of phrase. -/
def get (f : Follow) (c : Category) : LookaheadSet := f.sets.getD c.number .empty

/-- More lookaheads for a kind of phrase. -/
def add (f : Follow) (c : Category) (s : LookaheadSet) : Follow :=
  ⟨f.sets.modify c.number fun t => t.union s⟩

/-- The lookaheads of either for every kind of phrase. -/
def union (f g : Follow) : Follow := ⟨List.zipWith LookaheadSet.union f.sets g.sets⟩

/-- The same with the end of the text replaced by the lookaheads `s`. -/
def instead (f : Follow) (s : LookaheadSet) : Follow := ⟨f.sets.map fun t => t.instead s⟩

end Follow

/-- The lookaheads that a part can start with, given those known so far. -/
def startsOfSymbol (known : Follow) : Symbol → LookaheadSet
  | .word t => .singleton (.word t)
  | .phrase c => known.get c

/-- One step of finding what phrases can start with: a phrase starts like the first part of any of
its rules. -/
def growStarts (known : Follow) : Follow :=
  Category.all.foldr (fun c known =>
    (Rule.making c).foldl (fun known r =>
      match r.parts with
      | [] => known
      | s :: _ => known.add c (startsOfSymbol known s)) known) known

/-- The lookaheads that a phrase can start with. -/
def starts : Follow := untilStable growStarts Category.all.length .empty

/-- The lookaheads that a list of parts can start with, if `after` can follow them. -/
def startsOf : List Symbol → LookaheadSet → LookaheadSet
  | [], after => after
  | s :: _, _ => startsOfSymbol starts s

/-- One step of finding the phrases asked for: a phrase asks for the phrases that its rules start
with. -/
def growDemand (f : Follow) : Follow :=
  Category.all.foldl (fun f c =>
    if (f.get c).isEmpty then f
    else (Rule.making c).foldl (fun f r =>
      match r.parts with
      | .phrase d :: others => f.add d (startsOf others (f.get c))
      | _ => f) f) f

/-- The phrases asked for where a phrase of the given kind is asked for and the text ends after it,
each with what may follow it. -/
def corners (c : Category) : Follow :=
  untilStable growDemand Category.all.length (Follow.empty.add c (.singleton .finish))

end Scriptlet.Grammar
