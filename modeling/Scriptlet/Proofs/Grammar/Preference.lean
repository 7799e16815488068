import Mathlib.Tactic.ByContra
import Scriptlet.Grammar.Derivation

/-!
# The preferred derivation

The grammar is ambiguous in one place: after `receiver . name` an opening parenthesis may start the
arguments of the method or those of a call of the field. A derivation prefers methods if it nowhere
calls what is itself a field access. (In parentheses a field access is an operand like any other, and
may be called.)

## What is proved

* `Derivation.exists_prefersMethods`: every phrase has a derivation that prefers methods.
-/

namespace Scriptlet.Grammar

open Scriptlet.Lexical

/-- The rule makes the call of a function, not that of a method. -/
def Rule.isCall : Rule → Bool
  | chainCall | chainCallArguments => true
  | _ => false

/-- The parts of a field access, if the derivation is one. -/
def Derivation.fieldParts? {s : Symbol} : Derivation s → Option (Derivations Rule.chainField.parts)
  | .node .chainField parts => some parts
  | _ => none

/-- None of the derivations is a field access. -/
def Derivations.NoField {ss : List Symbol} : Derivations ss → Prop
  | .nil => True
  | .cons first others => first.fieldParts? = none ∧ others.NoField

mutual

/-- Nowhere in the derivation is a field access called: with arguments after it, it makes a method
call. -/
def Derivation.PrefersMethods {s : Symbol} : Derivation s → Prop
  | .leaf _ => True
  | .node rule parts => (rule.isCall → parts.NoField) ∧ parts.PreferMethods

/-- Nowhere in the derivations is a field access called. -/
def Derivations.PreferMethods {ss : List Symbol} : Derivations ss → Prop
  | .nil => True
  | .cons first others => first.PrefersMethods ∧ others.PreferMethods

end

/-- The parts of a field access have its words. -/
theorem Derivation.tokens_of_fieldParts? {s : Symbol} {d : Derivation s}
    {parts : Derivations Rule.chainField.parts} (h : d.fieldParts? = some parts) :
    parts.tokens = d.tokens := by
  cases d with
  | leaf token => cases h
  | node rule ps =>
    cases rule
    case chainField =>
      simp only [fieldParts?, Option.some.injEq] at h
      rw [Derivation.tokens, h]
    all_goals cases h

theorem Derivation.preferMethods_of_fieldParts? {s : Symbol} {d : Derivation s}
    {parts : Derivations Rule.chainField.parts} (h : d.fieldParts? = some parts)
    (hd : d.PrefersMethods) : parts.PreferMethods := by
  cases d with
  | leaf token => cases h
  | node rule ps =>
    cases rule
    case chainField =>
      simp only [fieldParts?, Option.some.injEq] at h
      exact h ▸ hd.2
    all_goals cases h

/-- Only a chain can be a field access. -/
theorem Derivation.fieldParts?_eq_none {s : Symbol} (d : Derivation s)
    (hs : s ≠ .phrase .chain) : d.fieldParts? = none := by
  cases d with
  | leaf token => rfl
  | node rule parts =>
    cases rule
    case chainField => exact absurd rfl hs
    all_goals rfl

/-- The parts of a phrase that prefer methods make a phrase that prefers methods, of the same words
and of the same kind. A call whose callee is a field access becomes a method call. -/
theorem Derivations.exists_node_prefersMethods {rule : Rule} (parts : Derivations rule.parts)
    (h : parts.PreferMethods) :
    ∃ d : Derivation (.phrase rule.makes), d.tokens = parts.tokens ∧ d.PrefersMethods := by
  by_cases hcall : rule.isCall → parts.NoField
  · exact ⟨.node rule parts, rfl, hcall, h⟩
  · rw [Classical.not_imp] at hcall
    obtain ⟨hcall, hfield⟩ := hcall
    cases rule
    case chainCall =>
      obtain _ | ⟨callee, _ | ⟨left, _ | ⟨right, _ | _⟩⟩⟩ := parts
      obtain ⟨fields, hf⟩ : ∃ fields, callee.fieldParts? = some fields := by
        rw [← Option.ne_none_iff_exists']
        exact fun hn => hfield ⟨hn, left.fieldParts?_eq_none nofun, right.fieldParts?_eq_none nofun,
          trivial⟩
      have htokens := Derivation.tokens_of_fieldParts? hf
      have hm := Derivation.preferMethods_of_fieldParts? hf h.1
      obtain _ | ⟨receiver, _ | ⟨dot, _ | ⟨name, _ | _⟩⟩⟩ := fields
      obtain ⟨hr, hd, hm, -⟩ := hm
      refine ⟨.node .chainMethod (.cons receiver (.cons dot (.cons name (.cons left
        (.cons right .nil))))), ?_, nofun, hr, hd, hm, h.2⟩
      simp only [Derivation.tokens, Derivations.tokens, ← htokens, List.append_assoc,
        List.append_nil]
    case chainCallArguments =>
      obtain _ | ⟨callee, _ | ⟨left, _ | ⟨args, _ | ⟨right, _ | _⟩⟩⟩⟩ := parts
      obtain ⟨fields, hf⟩ : ∃ fields, callee.fieldParts? = some fields := by
        rw [← Option.ne_none_iff_exists']
        exact fun hn => hfield ⟨hn, left.fieldParts?_eq_none nofun, args.fieldParts?_eq_none nofun,
          right.fieldParts?_eq_none nofun, trivial⟩
      have htokens := Derivation.tokens_of_fieldParts? hf
      have hm := Derivation.preferMethods_of_fieldParts? hf h.1
      obtain _ | ⟨receiver, _ | ⟨dot, _ | ⟨name, _ | _⟩⟩⟩ := fields
      obtain ⟨hr, hd, hm, -⟩ := hm
      refine ⟨.node .chainMethodArguments (.cons receiver (.cons dot (.cons name (.cons left
        (.cons args (.cons right .nil)))))), ?_, nofun, hr, hd, hm, h.2⟩
      simp only [Derivation.tokens, Derivations.tokens, ← htokens, List.append_assoc,
        List.append_nil]
    all_goals cases hcall

mutual

/-- **Every phrase has a derivation that prefers methods.** -/
theorem Derivation.exists_prefersMethods {s : Symbol} (d : Derivation s) :
    ∃ e : Derivation s, e.tokens = d.tokens ∧ e.PrefersMethods := by
  cases d with
  | leaf token => exact ⟨.leaf token, rfl, trivial⟩
  | node rule parts =>
    obtain ⟨qs, hqs, hm⟩ := parts.exists_preferMethods
    obtain ⟨e, he, hem⟩ := qs.exists_node_prefersMethods hm
    exact ⟨e, by rw [he, hqs, Derivation.tokens], hem⟩

theorem Derivations.exists_preferMethods {ss : List Symbol} (ds : Derivations ss) :
    ∃ es : Derivations ss, es.tokens = ds.tokens ∧ es.PreferMethods := by
  cases ds with
  | nil => exact ⟨.nil, rfl, trivial⟩
  | cons first others =>
    obtain ⟨e, he, hem⟩ := first.exists_prefersMethods
    obtain ⟨es, hes, hesm⟩ := others.exists_preferMethods
    exact ⟨.cons e es, by rw [Derivations.tokens, he, hes, Derivations.tokens], hem, hesm⟩

end

/-! ### The words of a derivation -/

/-- No rule asks for what is ignored. -/
theorem Rule.not_isIgnored_of_mem_parts {r : Rule} {t : Terminal} (h : .word t ∈ r.parts) :
    t.isIgnored = false := by
  have all : ∀ c ∈ Category.all, ∀ r ∈ Rule.making c, ∀ s ∈ r.parts,
      s ≠ .word .lineComment ∧ s ≠ .word .blockComment ∧ s ≠ .word .blank := by decide
  obtain ⟨hline, hblock, hblank⟩ := all r.makes r.makes.mem_all r r.mem_making _ h
  cases t
  case lineComment => exact absurd rfl hline
  case blockComment => exact absurd rfl hblock
  case blank => exact absurd rfl hblank
  all_goals rfl

mutual

theorem Derivation.not_isIgnored {s : Symbol} (d : Derivation s)
    (hs : ∀ t, s = .word t → t.isIgnored = false) : ∀ t ∈ d.tokens, t.kind.isIgnored = false := by
  cases d with
  | leaf token =>
    intro t ht
    obtain rfl := List.mem_singleton.mp ht
    exact hs _ rfl
  | node rule parts => exact parts.not_isIgnored fun t ht => rule.not_isIgnored_of_mem_parts ht

theorem Derivations.not_isIgnored {ss : List Symbol} (ds : Derivations ss)
    (hs : ∀ t, .word t ∈ ss → t.isIgnored = false) : ∀ t ∈ ds.tokens, t.kind.isIgnored = false := by
  cases ds with
  | nil => nofun
  | cons first others =>
    intro t ht
    rcases List.mem_append.mp ht with ht | ht
    · exact first.not_isIgnored (fun u hu => hs u (hu ▸ List.mem_cons_self)) t ht
    · exact others.not_isIgnored (fun u hu => hs u (List.mem_cons_of_mem _ hu)) t ht

end

/-- No word of a phrase is ignored. -/
theorem Derivation.not_isIgnored_of_mem_tokens {c : Category} (d : Derivation (.phrase c)) :
    ∀ t ∈ d.tokens, t.kind.isIgnored = false :=
  d.not_isIgnored nofun

end Scriptlet.Grammar
