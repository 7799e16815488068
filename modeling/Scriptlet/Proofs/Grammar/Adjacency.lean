import Scriptlet.Proofs.Parsing.Rejection

/-!
# Where factor signs stand

A factor sign is either between two operands or called like a function. So in a sentence there is the end of
an operand before it, or an opening parenthesis after it. Both can be seen from the parts of a rule: the
phrases that are operands end with a name, a literal or a closing bracket.

## What is proved

* `closes_derivation`: an operand ends with a word that can end one.
* `placed_derivation`: every factor sign in a phrase follows an operand or is called.
* `IsSentence.placed`: so it is in a sentence.
-/

namespace Scriptlet.Lexical

/-- A word that can end an operand. -/
def Terminal.endsOperand : Terminal → Bool
  | name | number | string | rightParen | rightBrace => true
  | _ => false

end Scriptlet.Lexical

namespace Scriptlet.Grammar

open Scriptlet.Lexical

/-! ### Words -/

/-- The last of the words can end an operand; `after` says so of what stands before them, if there is
none. -/
def endsAfter (after : Bool) : List Terminal → Bool
  | [] => after
  | k :: ks => endsAfter k.endsOperand ks

/-- Every factor sign among the words follows one that can end an operand, or has an opening parenthesis
after it. What stands before the words is such an end if `after` says so, and `next?` comes after them. -/
def placed (after : Bool) (next? : Option Terminal) : List Terminal → Bool
  | [] => true
  | k :: ks =>
    (k != .factor || after || (ks.head?.or next?) == some .leftParen) &&
      placed k.endsOperand next? ks

section Words

variable {after : Bool} {next? : Option Terminal} {ks ls : List Terminal}

theorem endsAfter_append : endsAfter after (ks ++ ls) = endsAfter (endsAfter after ks) ls := by
  induction ks generalizing after with
  | nil => rfl
  | cons k ks ih => exact ih

theorem placed_append :
    placed after next? (ks ++ ls) =
      (placed after (ls.head?.or next?) ks && placed (endsAfter after ks) next? ls) := by
  induction ks generalizing after with
  | nil => rfl
  | cons k ks ih =>
    rw [List.cons_append, placed, ih, placed, List.head?_append, Option.or_assoc, Bool.and_assoc]
    rfl

/-- A factor sign that no end of an operand stands before is called. -/
theorem head?_eq_of_placed (hafter : endsAfter after ks = false)
    (h : placed after none (ks ++ .factor :: ls) = true) : ls.head? = some .leftParen := by
  rw [placed_append, Bool.and_eq_true, placed, hafter, Bool.and_eq_true, Bool.or_eq_true,
    beq_iff_eq] at h
  rw [← Option.or_none (o := ls.head?)]
  exact h.2.1.resolve_left (by decide)

end Words

/-! ### Parts of rules -/

/-- Phrases that have a value end with the end of an operand, and so do blocks. -/
def Symbol.closes : Symbol → Bool
  | .word t => t.endsOperand
  | .phrase c =>
    [Category.expression, .sum, .product, .chain, .primary, .functionExpression, .object, .block].contains c

/-- The last of the symbols closes; `after` says so of what stands before them, if there is none. -/
def rowCloses (after : Bool) : List Symbol → Bool
  | [] => after
  | s :: ss => rowCloses s.closes ss

/-- Every factor sign among the symbols follows one that closes, or has an opening parenthesis after it. -/
def rowPlaced (after : Bool) : List Symbol → Bool
  | [] => true
  | s :: ss =>
    (s != .word .factor || after || ss.head? == some (.word .leftParen)) && rowPlaced s.closes ss

/-- What closes is made of parts of which the last closes. -/
theorem rowCloses_parts (rule : Rule) (h : (Symbol.phrase rule.makes).closes = true) :
    rowCloses false rule.parts = true := by
  revert h
  cases rule <;> decide

theorem rowPlaced_parts (rule : Rule) : rowPlaced false rule.parts = true := by
  cases rule <;> rfl

/-! ### Phrases -/

/-- A word is of the kind that it is derived as. -/
theorem kinds_word {t : Terminal} (d : Derivation (.word t)) : d.tokens.map Token.kind = [t] := by
  generalize hs : Symbol.word t = s at d
  cases d with
  | leaf token =>
    cases hs
    rfl
  | node rule parts => cases hs

mutual

/-- What closes ends with the end of an operand. -/
theorem closes_derivation {s : Symbol} (d : Derivation s) (hs : s.closes = true) (after : Bool) :
    endsAfter after (d.tokens.map Token.kind) = true := by
  cases d with
  | leaf token => exact hs
  | node rule parts =>
    exact closes_derivations parts false (rowCloses_parts rule hs) after fun h => Bool.noConfusion h

/-- Symbols of which the last closes end with the end of an operand. -/
theorem closes_derivations {ss : List Symbol} (ds : Derivations ss) (closed : Bool)
    (hss : rowCloses closed ss = true) (after : Bool) (hafter : closed = true → after = true) :
    endsAfter after (ds.tokens.map Token.kind) = true := by
  cases ds with
  | nil => exact hafter hss
  | @cons s ss first others =>
    rw [Derivations.tokens, List.map_append, endsAfter_append]
    exact closes_derivations others s.closes hss _ fun hs => closes_derivation first hs after

end

mutual

/-- Every factor sign in a phrase follows an operand or is called, whatever stands around it. -/
theorem placed_derivation {s : Symbol} (d : Derivation s) (hs : s ≠ .word .factor) (after : Bool)
    (next? : Option Terminal) : placed after next? (d.tokens.map Token.kind) = true := by
  cases d with
  | leaf token =>
    have hkind : token.kind ≠ .factor := fun h => hs (by rw [h])
    show ((token.kind != .factor || _ || _) && true) = true
    rw [bne_iff_ne.mpr hkind]
    rfl
  | node rule parts =>
    exact placed_derivations parts false (rowPlaced_parts rule) after (fun h => Bool.noConfusion h) next?

/-- Every factor sign among what symbols derive follows an operand or is called, if it does among the
symbols. -/
theorem placed_derivations {ss : List Symbol} (ds : Derivations ss) (closed : Bool)
    (hss : rowPlaced closed ss = true) (after : Bool) (hafter : closed = true → after = true)
    (next? : Option Terminal) : placed after next? (ds.tokens.map Token.kind) = true := by
  cases ds with
  | nil => rfl
  | @cons s ss first others =>
    rw [rowPlaced, Bool.and_eq_true] at hss
    rw [Derivations.tokens, List.map_append, placed_append, Bool.and_eq_true]
    refine ⟨?_, placed_derivations others s.closes hss.2 _ (fun hs => closes_derivation first hs after)
      next?⟩
    by_cases hs : s = .word .factor
    · subst hs
      rw [kinds_word, placed, placed, Bool.and_true, Bool.or_assoc, Bool.or_eq_true, Bool.or_eq_true,
        beq_iff_eq]
      simp only [Bool.or_eq_true, beq_iff_eq] at hss
      rcases hss.1 with (hfactor | hclosed) | hcall
      · exact absurd hfactor (by decide)
      · exact .inr (.inl (hafter hclosed))
      · -- the next symbol is the word of an opening parenthesis, so the next word is one
        refine .inr (.inr ?_)
        cases others with
        | nil => cases hcall
        | cons second others =>
          cases hcall
          rw [Derivations.tokens, List.map_append, kinds_word]
          rfl
    · exact placed_derivation first hs after _

end

theorem IsSentence.placed {ks : List Terminal} (h : IsSentence ks) :
    Grammar.placed false none ks = true := by
  obtain ⟨d, rfl⟩ := h
  exact placed_derivation d (by decide) false none

end Scriptlet.Grammar
