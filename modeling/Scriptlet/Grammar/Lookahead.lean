import Scriptlet.Grammar.Rule

/-!
# Lookaheads

What can come next in a text: a word of some kind, or the end. Sets of them are kept as numbers, a
bit for each, so that a whole table of them stays small.
-/

namespace Scriptlet.Grammar

open Scriptlet.Lexical

/-- What comes next: a word, or the end of the text. -/
inductive Lookahead where
  /-- A word of the given kind. -/
  | word (t : Terminal)
  /-- The end of the text. -/
  | finish
  deriving DecidableEq, Repr

namespace Lookahead

/-- The name by which messages call a lookahead. -/
def label : Lookahead → String
  | word t => t.label
  | finish => "$END"

/-- The place of a lookahead in the sets of lookaheads. -/
def bit : Lookahead → Nat
  | finish => 0
  | word t => t.ctorIdx + 1

/-- All lookaheads that parsing can come across, by the order of their names. -/
def byLabel : List Lookahead :=
  [finish, word .sign, word .comparison, word .colon, word .comma, word .dot, word .elseWord,
   word .equals, word .functionWord, word .ifWord, word .leftBrace, word .letWord,
   word .leftParen, word .factor, word .name, word .number, word .rightBrace, word .returnWord,
   word .rightParen, word .semicolon, word .string, word .varWord]

/-- Every lookahead that is not ignored is among them. -/
theorem mem_byLabel {t : Terminal} (h : t.isIgnored = false) : word t ∈ byLabel := by
  cases t <;> revert h <;> decide

end Lookahead

/-- A set of lookaheads. -/
structure LookaheadSet where
  /-- The bits of its members. -/
  bits : Nat
  deriving DecidableEq, Repr

namespace LookaheadSet

/-- No lookahead. -/
def empty : LookaheadSet := ⟨0⟩

/-- One lookahead. -/
def singleton (a : Lookahead) : LookaheadSet := ⟨1 <<< a.bit⟩

/-- The lookaheads of either set. -/
def union (s t : LookaheadSet) : LookaheadSet := ⟨s.bits ||| t.bits⟩

/-- The lookahead is in the set. -/
def contains (s : LookaheadSet) (a : Lookahead) : Bool := s.bits.testBit a.bit

/-- The set with the end of the text, if it is in it, replaced by the set `t`. -/
def instead (s t : LookaheadSet) : LookaheadSet :=
  if s.contains .finish then ⟨(s.bits >>> 1 <<< 1) ||| t.bits⟩ else s

/-- No lookahead is in the set. -/
def isEmpty (s : LookaheadSet) : Bool := s.bits == 0

@[simp] theorem contains_union (s t : LookaheadSet) (a : Lookahead) :
    (s.union t).contains a = (s.contains a || t.contains a) := by
  simp [union, contains]

@[simp] theorem contains_empty (a : Lookahead) : empty.contains a = false := by
  simp [empty, contains]

end LookaheadSet

end Scriptlet.Grammar
