import Scriptlet.Proofs.Grammar.Closure

/-!
# States in which a key can come

Where a name before a colon can come, the reader stands between the braces of an object, at a key. No
statement starts there, and what may come instead of a key is a string or the closing brace, so no reserved
word is looked for. This can be seen from the states of the automaton, of which there are finitely many.

## What is proved

* `vocabulary_eq_false_of_takesKey`: no reserved word is looked for where a key can come.
* `takesKey_eq_false_of_after?`: no key can come right after a phrase.
-/

namespace Scriptlet.Grammar

open Lexical

/-- A key can come in the state: a name leads to where a colon is expected. -/
def State.takesKey (auto : Automaton) (s : State) : Bool :=
  match s.read? (.word .name) with
  | some n => (auto.state n).lookaheads.contains (.word .colon)
  | none => false

/-- The symbol is a phrase. -/
def Symbol.isPhrase : Symbol → Bool
  | .word _ => false
  | .phrase _ => true

/-- If a key can come in the state that was found for a number, no phrase leads there and no reserved word is
looked for. -/
def Survey.freesKeys (v : Survey) (n : Nat) : Bool :=
  let auto := Automaton.ofSurvey v
  !(auto.state n).takesKey auto ||
    !(v.found.getD n (none, [])).1.any Symbol.isPhrase &&
      Terminal.inOrder.all fun k => !(k.isReserved && (auto.state n).vocabulary k)

theorem freesKeys_survey : (List.range survey.found.length).all survey.freesKeys = true := by
  decide +kernel

variable {n : Nat}

/-- All states free keys, as does the one that stands for those that were not found. -/
theorem freesKeys (n : Nat) : survey.freesKeys n = true := by
  by_cases hn : n < survey.found.length
  · exact List.all_eq_true.mp freesKeys_survey n (List.mem_range.mpr hn)
  · rw [Survey.freesKeys, Survey.state_ofSurvey_of_le (Nat.le_of_not_lt hn)]
    rfl

/-- **No reserved word is looked for where a key can come.** -/
theorem vocabulary_eq_false_of_takesKey
    (h : (Automaton.ofGrammar.state n).takesKey .ofGrammar = true) {k : Terminal}
    (hk : k.isReserved = true) : (Automaton.ofGrammar.state n).vocabulary k = false := by
  have hfrees := freesKeys n
  rw [Survey.freesKeys, ← Automaton.ofGrammar, h, Bool.not_true, Bool.false_or, Bool.and_eq_true] at hfrees
  have hlooked := List.all_eq_true.mp hfrees.2 k k.mem_inOrder
  rwa [hk, Bool.true_and, Bool.not_eq_true'] at hlooked

/-- No key can come right after a phrase. -/
theorem takesKey_eq_false_of_after? {m : Nat} {c : Category}
    (h : (Automaton.ofGrammar.state m).after? (.phrase c) = some n) :
    (Automaton.ofGrammar.state n).takesKey .ofGrammar = false := by
  obtain ⟨k, l, hfound, -⟩ := Survey.exists_found_of_after? isClosed_survey h
  rw [Bool.eq_false_iff]
  intro hkey
  have hfrees := freesKeys n
  rw [Survey.freesKeys, ← Automaton.ofGrammar, hkey, Bool.not_true, Bool.false_or, Bool.and_eq_true,
    List.getD_eq_getElem?_getD, hfound] at hfrees
  cases hfrees.1

end Scriptlet.Grammar
