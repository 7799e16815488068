import Scriptlet.Grammar.Item

/-!
# The survey of all states

The states of the reader are found by looking, for one state after the other, where its items lead.
States that differ in their lookaheads only are one state, which has the lookaheads of all; when it
gets new ones, the states that it leads to are looked at again.
-/

namespace Scriptlet.Grammar

/-- What is known of the states while they are being found. -/
structure Survey where
  /-- The kernels found so far, each with the symbol that leads to it; none leads to the first. -/
  found : List (Option Symbol × Kernel)
  /-- The numbers of the states whose successors are to be looked at. -/
  todo : List Nat
  deriving DecidableEq

namespace Survey

/-- The number of the state that a symbol leads to with the items of a kernel, if it is known. -/
def number? (v : Survey) (s : Symbol) (k : Kernel) : Option Nat :=
  v.found.findIdx? fun (t, l) => t = some s && l.sameItems k

/-- Notes that a symbol leads to a kernel. A state with its items that is known already gets its
lookaheads too. -/
def note (v : Survey) (s : Symbol) (k : Kernel) : Survey :=
  match v.number? s k with
  | none => ⟨v.found ++ [(some s, k)], v.todo ++ [v.found.length]⟩
  | some n =>
    let known := (v.found.getD n (none, [])).2
    let merged := known.merge k
    if merged = known then v
    else ⟨v.found.set n (some s, merged), if v.todo.contains n then v.todo else v.todo ++ [n]⟩

/-- Looks at the successors of states, at most of as many as the fuel says. -/
def run : Nat → Survey → Survey
  | 0, v => v
  | fuel + 1, v =>
    match v.todo with
    | [] => v
    | n :: todo =>
      run fuel <| (successors (v.found.getD n (none, [])).2.items).foldl
        (fun v (s, k) => v.note s k) ⟨v.found, todo⟩

end Survey

/-- A bound on the number of times that the successors of a state are looked at. -/
def surveySteps : Nat := 1000

/-- The survey of all states; the first one is the state before any symbol. -/
def survey : Survey := Survey.run surveySteps ⟨[(none, [])], [0]⟩

end Scriptlet.Grammar
