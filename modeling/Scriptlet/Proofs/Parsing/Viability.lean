import Scriptlet.Proofs.Grammar.Closure
import Scriptlet.Proofs.Parsing.Acceptance

/-!
# What has been read begins a sentence

A stack that the automaton can build holds the derivations of phrases that an item has read, on top of
those that the item which asked for it has read, and so on down to the program. All that these items
still wait for can be supplied, because every kind of phrase can be made of words. So the words on the
stack are the first words of some sentence.

## What is proved

* `Symbol.nonempty_derivation`: every kind of phrase can be made of words.
* `Category.LeadsTo.exists_derivation`: a phrase can be gone on with to one that can start with it.
* `Stack.Valid.exists_sentence`: the words on a stack begin a sentence.
-/

namespace Scriptlet.Grammar

open Scriptlet.Lexical

/-! ### Every kind of phrase can be made -/

/-- A rule that makes a phrase of the kind out of simpler ones. -/
def Category.simplest : Category → Rule
  | .program => .programEmpty
  | .statements => .statementsOne
  | .statement => .statementExpression
  | .functionStatement => .functionStatementPlain
  | .declaration => .declarationVar
  | .conditional => .conditionalPlain
  | .returnStatement => .returnPlain
  | .assignment => .assignmentName
  | .fieldAssignment => .assignmentField
  | .expressionStatement => .expressionStatement
  | .block => .blockEmpty
  | .parameters => .parametersOne
  | .moreParameters => .moreParametersOne
  | .expression => .expressionSum
  | .sum => .sumProduct
  | .product => .productChain
  | .chain => .chainPrimary
  | .primary => .primaryNumber
  | .functionExpression => .functionExpressionPlain
  | .object => .objectEmpty
  | .fields => .fieldsOne
  | .moreFields => .moreFieldsOne
  | .field => .fieldName
  | .arguments => .argumentsOne
  | .moreArguments => .moreArgumentsOne

/-- How deep the simplest phrase of the kind is. -/
def Category.depth : Category → Nat
  | .program | .declaration | .returnStatement | .block | .parameters | .moreParameters
  | .primary | .object => 0
  | .functionStatement | .functionExpression | .chain => 1
  | .product => 2
  | .sum => 3
  | .expression => 4
  | .assignment | .fieldAssignment | .expressionStatement | .conditional | .field | .arguments
  | .moreArguments => 5
  | .statement | .fields | .moreFields => 6
  | .statements => 7

/-- A symbol is a word or a phrase whose simplest one is less deep. -/
def Symbol.simplerThan (n : Nat) : Symbol → Bool
  | .word _ => true
  | .phrase c => c.depth < n

/-- The simplest phrase of a kind is made of simpler ones. -/
theorem Category.simplest_spec (c : Category) :
    c.simplest.makes = c ∧ ∀ s ∈ c.simplest.parts, s.simplerThan c.depth := by
  cases c <;> decide

/-- Words that derive the symbols exist, if they do for each of these. -/
theorem Derivations.nonempty_of_forall {ss : List Symbol} (h : ∀ s ∈ ss, Nonempty (Derivation s)) :
    Nonempty (Derivations ss) := by
  induction ss with
  | nil => exact ⟨.nil⟩
  | cons s ss ih =>
    obtain ⟨hs, hss⟩ := List.forall_mem_cons.mp h
    obtain ⟨d⟩ := hs
    obtain ⟨ds⟩ := ih hss
    exact ⟨.cons d ds⟩

theorem Category.nonempty_derivation (n : Nat) (c : Category) (h : c.depth < n) :
    Nonempty (Derivation (.phrase c)) := by
  induction n generalizing c with
  | zero => cases h
  | succ n ih =>
    obtain ⟨hmakes, hparts⟩ := c.simplest_spec
    obtain ⟨ds⟩ : Nonempty (Derivations c.simplest.parts) := by
      refine Derivations.nonempty_of_forall fun s hs => ?_
      have hsimpler := hparts s hs
      cases s with
      | word t => exact ⟨.leaf ⟨t, [], .start, .start⟩⟩
      | phrase d =>
        have hd : d.depth < c.depth := of_decide_eq_true hsimpler
        exact ih d (Nat.lt_of_lt_of_le hd (Nat.le_of_lt_succ h))
    exact ⟨hmakes ▸ .node c.simplest ds⟩

/-- **Every symbol can be derived.** -/
theorem Symbol.nonempty_derivation (s : Symbol) : Nonempty (Derivation s) := by
  cases s with
  | word t => exact ⟨.leaf ⟨t, [], .start, .start⟩⟩
  | phrase c => exact c.nonempty_derivation _ (Nat.lt_succ_self _)

/-- Any symbols can be derived. -/
theorem Derivations.nonempty (ss : List Symbol) : Nonempty (Derivations ss) :=
  Derivations.nonempty_of_forall fun s _ => s.nonempty_derivation

/-! ### Going on with a phrase -/

/-- **A phrase can be gone on with to one of any kind that can start with it.** -/
theorem Category.LeadsTo.exists_derivation {c d : Category} (h : c.LeadsTo d)
    (p : Derivation (.phrase d)) :
    ∃ (q : Derivation (.phrase c)) (rest : List Token), q.tokens = p.tokens ++ rest := by
  induction h with
  | refl => exact ⟨p, [], (List.append_nil _).symm⟩
  | tail _ hheads ih =>
    obtain ⟨r, rfl, ss, hparts⟩ := hheads
    obtain ⟨others⟩ := Derivations.nonempty ss
    obtain ⟨parts, hparts⟩ : ∃ parts : Derivations r.parts,
        parts.tokens = p.tokens ++ others.tokens := by
      rw [hparts]
      exact ⟨.cons p others, rfl⟩
    obtain ⟨q, rest, hq⟩ := ih (.node r parts)
    refine ⟨q, others.tokens ++ rest, ?_⟩
    rw [hq, Derivation.tokens, hparts, List.append_assoc]

end Scriptlet.Grammar

namespace Scriptlet.Parsing

open Scriptlet.Grammar Scriptlet.Lexical

variable {auto : Automaton} {table : ItemTable}

/-! ### Stacks begin sentences -/

/-- The words on a stack and those of phrases that an item goes on with begin a sentence. -/
theorem Stack.Valid.exists_sentence_of_holds (hobeys : auto.Obeys table)
    (hgrounded : auto.Grounded table) {stack : Stack} (h : Stack.Valid auto stack) {i : Item}
    (hi : table.Holds stack.number i) (ds : Derivations i.unread) :
    ∃ (d : Sentence) (rest : List Token), d.tokens = stack.tokens ++ (ds.tokens ++ rest) := by
  induction h generalizing i with
  | nil =>
    obtain ⟨r, dot⟩ := i
    obtain rfl : dot = 0 := hobeys.unread hi
    exact (hgrounded.rooted hi).exists_derivation (.node r ds)
  | @cons n s top below ha hb ih =>
    -- an item with a moved dot has read the phrase on top, and the item before it goes on with that
    have hmoved : ∀ {i : Item}, table.Holds n i → i.dot ≠ 0 → ∀ ds : Derivations i.unread,
        ∃ (d : Sentence) (rest : List Token),
          d.tokens = Stack.tokens (⟨n, s, top⟩ :: below) ++ (ds.tokens ++ rest) := by
      intro i hi hdot ds
      obtain ⟨j, hj, rfl, ss, hss⟩ := hobeys.back ha hi hdot
      have hadvance : j.advance.unread = ss := by
        rw [Item.unread, Item.advance, ← List.drop_drop, ← Item.unread, hss, List.drop_one,
          List.tail_cons]
      obtain ⟨es, hes⟩ : ∃ es : Derivations j.unread, es.tokens = top.tokens ++ ds.tokens := by
        rw [hss, ← hadvance]
        exact ⟨.cons top ds, rfl⟩
      obtain ⟨d, rest, hd⟩ := ih hj es
      refine ⟨d, rest, ?_⟩
      rw [hd, hes, Stack.tokens_cons, List.append_assoc, List.append_assoc]
    by_cases hdot : i.dot = 0
    · obtain ⟨j, c, ss, hj, hjdot, hunread, hlead⟩ := hgrounded.asked ha hi hdot
      obtain ⟨r, dot⟩ := i
      obtain rfl : dot = 0 := hdot
      obtain ⟨q, rest, hq⟩ : ∃ (q : Derivation (.phrase c)) (rest : List Token),
          q.tokens = ds.tokens ++ rest := hlead.exists_derivation (.node r ds)
      obtain ⟨others⟩ := Derivations.nonempty ss
      obtain ⟨es, hes⟩ : ∃ es : Derivations j.unread, es.tokens = q.tokens ++ others.tokens := by
        rw [hunread]
        exact ⟨.cons q others, rfl⟩
      obtain ⟨d, rest', hd⟩ := hmoved hj hjdot es
      refine ⟨d, rest ++ (others.tokens ++ rest'), ?_⟩
      rw [hd, hes, hq, List.append_assoc, List.append_assoc]
    · exact hmoved hi hdot ds

/-- **The words on a stack begin a sentence.** -/
theorem Stack.Valid.exists_sentence (hobeys : auto.Obeys table) (hgrounded : auto.Grounded table)
    {stack : Stack} (h : Stack.Valid auto stack) :
    ∃ (d : Sentence) (rest : List Token), d.tokens = stack.tokens ++ rest := by
  obtain ⟨i, hi⟩ : ∃ i, table.Holds stack.number i := by
    cases h with
    | nil =>
      obtain ⟨p, hp, hitem, -⟩ := hobeys.start (r := .programEmpty) rfl
      exact ⟨_, p, hp, hitem⟩
    | cons ha _ => exact hgrounded.reached ha
  obtain ⟨ds⟩ := Derivations.nonempty i.unread
  obtain ⟨d, rest, hd⟩ := h.exists_sentence_of_holds hobeys hgrounded hi ds
  exact ⟨d, ds.tokens ++ rest, hd⟩

end Scriptlet.Parsing
