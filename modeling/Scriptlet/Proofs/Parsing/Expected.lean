import Scriptlet.Proofs.Parsing.Course
import Scriptlet.Proofs.Parsing.Viability

/-!
# What is looked for after a symbol

A state that a symbol leads to has items that have just moved over the symbol, and items of the phrases that
these go on with. So what is looked for there can be told from what stands right after the symbol in the
rules of the grammar.

## What is proved

* `exists_item_of_vocabulary`: what is looked for is what some item goes on with, or one is at its end.
* `exists_follower_of_vocabulary`: an item that has moved over the symbol is the reason for it.
-/

namespace Scriptlet.Grammar

/-- What stands right after a symbol in rules: other symbols, or nothing. -/
def followers (s : Symbol) : List (Option Symbol) :=
  Category.all.flatMap fun c => (Rule.making c).flatMap fun r =>
    (List.range r.parts.length).filterMap fun n =>
      if r.parts[n]? = some s then some r.parts[n + 1]? else none

/-- After its dot has moved over a symbol, an item goes on with what follows the symbol in a rule. -/
theorem Item.mem_followers {i : Item} {s : Symbol} {ss : List Symbol} (h : i.unread = s :: ss) :
    i.advance.unread.head? ∈ followers s := by
  have hhere : i.rule.parts[i.dot]? = some s := by
    rw [← List.head?_drop, ← Item.unread, h]
    rfl
  have hlt := (List.getElem?_eq_some_iff.mp hhere).1
  refine List.mem_flatMap.mpr ⟨_, i.rule.makes.mem_all, ?_⟩
  refine List.mem_flatMap.mpr ⟨_, i.rule.mem_making, ?_⟩
  refine List.mem_filterMap.mpr ⟨i.dot, List.mem_range.mpr hlt, ?_⟩
  rw [if_pos hhere, ← List.head?_drop]
  rfl

end Scriptlet.Grammar

namespace Scriptlet.Parsing

open Scriptlet.Grammar Scriptlet.Lexical

variable {auto : Automaton} {table : ItemTable}

/-- What leads on is what some item goes on with. -/
theorem exists_item_of_after? (hobeys : auto.Obeys table) (hgrounded : auto.Grounded table) {m n : Nat}
    {s : Symbol} (h : (auto.state m).after? s = some n) :
    ∃ i, table.Holds m i ∧ ∃ ss, i.unread = s :: ss := by
  obtain ⟨i, hi, hdot⟩ : ∃ i, table.Holds n i ∧ i.dot ≠ 0 := by
    obtain ⟨i, hi⟩ := hgrounded.reached h
    by_cases hdot : i.dot = 0
    · obtain ⟨j, -, -, hj, hjdot, -⟩ := hgrounded.asked h hi hdot
      exact ⟨j, hj, hjdot⟩
    · exact ⟨i, hi, hdot⟩
  obtain ⟨j, hj, -, hunread⟩ := hobeys.back h hi hdot
  exact ⟨j, hj, hunread⟩

/-- A word is looked for if some item goes on with it, or has come to its end. -/
theorem exists_item_of_vocabulary (hobeys : auto.Obeys table) (hgrounded : auto.Grounded table)
    {stack : Stack} {k : Terminal} (hi : k.isIgnored = false) (h : stack.vocabulary auto k = true) :
    ∃ i, table.Holds stack.number i ∧ (i.unread = [] ∨ ∃ ss, i.unread = .word k :: ss) := by
  have hlooked : (k.isIgnored || (stack.state auto).lookaheads.contains (.word k)) = true := h
  rw [hi, Bool.false_or] at hlooked
  rcases State.ne_none_of_contains hlooked with hread | hcomplete
  · obtain ⟨n, hn⟩ := Option.ne_none_iff_exists'.mp hread
    obtain ⟨i, hi, hunread⟩ := exists_item_of_after? hobeys hgrounded hn
    exact ⟨i, hi, .inr hunread⟩
  · obtain ⟨r, hr⟩ := Option.ne_none_iff_exists'.mp hcomplete
    obtain ⟨i, hi, -, hunread⟩ := hobeys.complete hr
    exact ⟨i, hi, .inl hunread⟩

/-- **What is looked for after a symbol has its reason in what follows the symbol in rules**: an item that
has moved over the symbol is at its end, goes on with this word, or goes on with a phrase. -/
theorem exists_follower_of_vocabulary (hobeys : auto.Obeys table) (hgrounded : auto.Grounded table)
    {n : Nat} {s : Symbol} {top : Derivation s} {below : Stack}
    (hvalid : Stack.Valid auto (⟨n, s, top⟩ :: below)) {k : Terminal} (hi : k.isIgnored = false)
    (h : Stack.vocabulary auto (⟨n, s, top⟩ :: below) k = true) :
    ∃ i, table.Holds n i ∧ i.unread.head? ∈ followers s ∧
      ∀ t, i.unread.head? = some (.word t) → t = k := by
  have ha : (Stack.state auto below).after? s = some n := by
    cases hvalid with
    | cons ha _ => exact ha
  have hmoved : ∀ i, table.Holds n i → i.dot ≠ 0 → i.unread.head? ∈ followers s := by
    intro i hi hdot
    obtain ⟨j, -, rfl, ss, hunread⟩ := hobeys.back ha hi hdot
    exact Item.mem_followers hunread
  obtain ⟨i, hheld, hunread⟩ := exists_item_of_vocabulary hobeys hgrounded hi h
  by_cases hdot : i.dot = 0
  · -- a rule of which nothing has been read is asked for by an item that has moved
    obtain ⟨j, c, ss, hj, hjdot, hphrase, -⟩ := hgrounded.asked ha hheld hdot
    refine ⟨j, hj, hmoved j hj hjdot, fun t ht => ?_⟩
    rw [hphrase] at ht
    cases ht
  · refine ⟨i, hheld, hmoved i hheld hdot, fun t ht => ?_⟩
    rcases hunread with hunread | ⟨ss, hunread⟩
    · rw [hunread] at ht
      cases ht
    · rw [hunread] at ht
      cases ht
      rfl

end Scriptlet.Parsing
