import Scriptlet.Grammar.Survey

/-!
# The automaton of the grammar

A text is read from left to right with one lookahead. A state of the reader says where each symbol
leads and which rules end there; it comes from the items found in the survey of the grammar.

Where an item of a state can go on with the lookahead and another has come to its end, the reader goes
on. The grammar needs this once: after `receiver . name` an opening parenthesis makes a method call.
-/

namespace Scriptlet.Grammar

open Scriptlet.Lexical

/-- A state of the reader. -/
structure State where
  /-- The number of the state that each symbol leads to. -/
  edges : List (Symbol × Nat)
  /-- The rules that end here, each with the lookaheads before which it does. -/
  ends : List (Rule × LookaheadSet)
  deriving DecidableEq, Repr

namespace State

/-- The state of a kernel, given how the states it leads to are numbered. -/
def ofKernel (number : Symbol → Kernel → Nat) (k : Kernel) : State :=
  let items := k.items
  ⟨(successors items).map fun (s, l) => (s, number s l),
    items.filterMap fun p =>
      if p.item.unread.isEmpty then some (p.item.rule, p.ahead) else none⟩

/-- The number of the state that a symbol leads to. -/
def after? (s : State) (symbol : Symbol) : Option Nat := s.edges.lookup symbol

/-- The number of the state that a lookahead leads to when it is read. -/
def read? (s : State) : Lookahead → Option Nat
  | .word t => s.after? (.word t)
  | .finish => none

/-- The rule that ends before the given lookahead. -/
def complete? (s : State) (a : Lookahead) : Option Rule :=
  s.ends.findSome? fun (r, ahead) => if ahead.contains a then some r else none

/-- The lookaheads that a state can do something with. -/
def lookaheads (s : State) : LookaheadSet :=
  let reads := s.edges.foldl (fun set (symbol, _) =>
    match symbol with
    | .word t => set.union (.singleton (.word t))
    | .phrase _ => set) .empty
  s.ends.foldl (fun set (_, ahead) => set.union ahead) reads

/-- The terminals to look for in a state: those it can do something with, and those that are
ignored. -/
def vocabulary (s : State) : Terminal → Bool :=
  let set := s.lookaheads
  fun t => t.isIgnored || set.contains (.word t)

end State

/-- The states of a reader, by their numbers; the first one is the state before any symbol. -/
structure Automaton where
  /-- The states. -/
  states : Array State
  deriving DecidableEq, Repr

namespace Automaton

/-- The state with the given number; a number without a state stands for one that leads nowhere. -/
def state (a : Automaton) (n : Nat) : State := a.states.getD n ⟨[], []⟩

/-- The automaton of the states found in a survey. -/
def ofSurvey (v : Survey) : Automaton :=
  let number (s : Symbol) (k : Kernel) : Nat := (v.number? s k).getD 0
  ⟨(v.found.map fun (_, k) => State.ofKernel number k).toArray⟩

/-- The automaton of the grammar. -/
def ofGrammar : Automaton := ofSurvey survey

end Automaton

end Scriptlet.Grammar
