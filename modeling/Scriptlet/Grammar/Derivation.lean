import Scriptlet.Grammar.Meaning

/-!
# Derivations

A derivation shows how a phrase is made of words by the rules of the grammar. Its type names the
symbol that it derives, so there are no derivations but those of the grammar. From a derivation
can be read the words it is made of and what the phrase means.

## What is stated

* `Derivation.line_eq`: the line of a phrase is that of its first word, and `1` where there is none.
-/

namespace Scriptlet.Grammar

open Scriptlet.Lexical

mutual

/-- How a symbol is derived. -/
inductive Derivation : Symbol → Type where
  /-- A word derives its own kind. -/
  | leaf (token : Token) : Derivation (.word token.kind)
  /-- A rule derives what it makes from its parts. -/
  | node (rule : Rule) (parts : Derivations rule.parts) : Derivation (.phrase rule.makes)

/-- How a list of symbols is derived. -/
inductive Derivations : List Symbol → Type where
  /-- No symbols. -/
  | nil : Derivations []
  /-- A symbol and those after it. -/
  | cons {s : Symbol} {ss : List Symbol} (first : Derivation s) (others : Derivations ss) :
      Derivations (s :: ss)

end

mutual

/-- The words of a derivation, in order. -/
def Derivation.tokens {s : Symbol} : Derivation s → List Token
  | .leaf token => [token]
  | .node _ parts => parts.tokens

/-- The words of derivations, in order. -/
def Derivations.tokens {ss : List Symbol} : Derivations ss → List Token
  | .nil => []
  | .cons first others => first.tokens ++ others.tokens

end

mutual

/-- The line of the first word of a derivation. -/
def Derivation.firstLine? {s : Symbol} : Derivation s → Option Int
  | .leaf token => some (lineOf token)
  | .node _ parts => parts.firstLine?

/-- The line of the first word of derivations. -/
def Derivations.firstLine? {ss : List Symbol} : Derivations ss → Option Int
  | .nil => none
  | .cons first others => first.firstLine?.or others.firstLine?

end

/-- The line of a phrase with the given parts. -/
def Derivations.line {ss : List Symbol} (parts : Derivations ss) : Int := parts.firstLine?.getD 1

mutual

/-- What a derived symbol means. -/
def Derivation.value {s : Symbol} : Derivation s → s.Value
  | .leaf token => token
  | .node rule parts => rule.build parts.line parts.values

/-- What derived symbols mean. -/
def Derivations.values {ss : List Symbol} : Derivations ss → Values ss
  | .nil => ()
  | .cons first others => (first.value, others.values)

end

/-- A derivation of a whole script. -/
abbrev Sentence := Derivation (.phrase .program)

/-- A derivation of a phrase as that of a whole script, if it is one. -/
def sentence? : (c : Category) → Derivation (.phrase c) → Option Sentence
  | .program, d => some d
  | _, _ => none

/-- The script that a sentence stands for. -/
def Sentence.script (d : Sentence) : Script := d.value

mutual

/-- The line is found at the first word. -/
theorem Derivation.firstLine?_eq {s : Symbol} (d : Derivation s) :
    d.firstLine? = d.tokens.head?.map lineOf := by
  cases d with
  | leaf token => rfl
  | node rule parts => exact parts.firstLine?_eq

/-- The line is found at the first word. -/
theorem Derivations.firstLine?_eq {ss : List Symbol} (ds : Derivations ss) :
    ds.firstLine? = ds.tokens.head?.map lineOf := by
  cases ds with
  | nil => rfl
  | cons first others =>
    simp only [Derivations.firstLine?, Derivations.tokens, first.firstLine?_eq,
      others.firstLine?_eq]
    cases first.tokens <;> simp

end

/-- The line of a phrase is that of its first word. -/
theorem Derivations.line_eq {ss : List Symbol} (ds : Derivations ss) :
    ds.line = (ds.tokens.head?.map lineOf).getD 1 := by
  rw [Derivations.line, ds.firstLine?_eq]

end Scriptlet.Grammar
