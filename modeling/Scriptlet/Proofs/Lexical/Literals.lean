import Scriptlet.Grammar.Meaning
import Mathlib.Tactic.Common

/-!
# Spellings of literals

A string literal can be spelled in many ways: between its quotes a character stands for itself or
follows a backslash. The reader of words and the reader of escapes cut every spelling at the same
places, so the word ends at the closing quote and denotes the string that was spelled.

## What is proved

* `splitString_of_spells`: a spelling between quotes is one word.
* `unquote_of_spells`: it denotes the string.
* `spells_escape`: every string has a spelling.
* `decimal_toDigits`: decimal digits denote the number they are the digits of.
-/

namespace Scriptlet.Lexical

/-! ### Strings -/

/-- The characters spell the string, one of its characters after the other, between quotes of the
given kind. -/
inductive Spells (mark : Char) : List Char → List Char → Prop where
  /-- Nothing spells the empty string. -/
  | nil : Spells mark [] []
  /-- A character that is neither the quote nor a backslash nor a line feed stands for itself. -/
  | plain {c : Char} {cs s : List Char} : c ≠ mark → c ≠ '\\' → c ≠ '\n' → Spells mark cs s →
    Spells mark (c :: cs) (c :: s)
  /-- After a backslash stands any character but a line feed. -/
  | escape {c : Char} {cs s : List Char} : c ≠ '\n' → Spells mark cs s →
    Spells mark ('\\' :: c :: cs) (escaped c :: s)

theorem unescape_of_spells {mark : Char} {cs s : List Char} (h : Spells mark cs s) :
    unescape cs = s := by
  induction h with
  | nil => rfl
  | plain _ hc _ _ ih => rw [unescape, ih]; exact fun _ _ h _ => hc h
  | escape _ _ ih => rw [unescape, ih]

theorem splitQuoted_of_spells {mark : Char} {cs s : List Char} (h : Spells mark cs s)
    (hmark : mark ≠ '\\') (rest : List Char) :
    splitQuoted mark (cs ++ mark :: rest) = some (cs ++ [mark], rest) := by
  induction h with
  | nil =>
    show splitQuoted mark (mark :: rest) = some ([mark], rest)
    cases rest <;> simp [splitQuoted, hmark]
  | @plain c cs s hm hc hn _ ih =>
    rw [List.cons_append, splitQuoted, if_neg hm, if_neg hn, ih]
    · rfl
    · exact fun h _ => hc h
    · exact fun _ _ h _ => hc h
  | @escape c cs s hn _ ih =>
    rw [List.cons_append, List.cons_append, splitQuoted, if_neg hn, ih]
    rfl

/-- A spelling between quotes is one word, whatever comes after it. -/
theorem splitString_of_spells {mark : Char} {cs s : List Char} (h : Spells mark cs s)
    (hmark : mark = '"' ∨ mark = '\'') (rest : List Char) :
    splitString (mark :: (cs ++ mark :: rest)) = some (mark :: (cs ++ [mark]), rest) := by
  have hne : mark ≠ '\\' := by
    rcases hmark with rfl | rfl
    · decide
    · decide
  have hq : (mark = '"' || mark = '\'') = true := by simpa using hmark
  rw [splitString, if_pos hq, splitQuoted_of_spells h hne]
  rfl

/-- A spelling between quotes denotes what it spells. -/
theorem unquote_of_spells {mark : Char} {cs s : List Char} (h : Spells mark cs s) :
    unquote (mark :: (cs ++ [mark])) = String.ofList s := by
  rw [unquote, List.tail_cons, List.dropLast_concat, unescape_of_spells h]

/-- How a character is written between double quotes: escaped where it has to be. -/
def escapeChar (c : Char) : List Char :=
  if c = '"' then ['\\', '"'] else if c = '\\' then ['\\', '\\'] else if c = '\n' then ['\\', 'n']
  else [c]

/-- How a string is written between double quotes. -/
def escape (s : List Char) : List Char := s.flatMap escapeChar

/-- Every string has a spelling. -/
theorem spells_escape (s : List Char) : Spells '"' (escape s) s := by
  induction s with
  | nil => exact .nil
  | cons c s ih =>
    rw [escape, List.flatMap_cons, escapeChar]
    by_cases hq : c = '"'
    · rw [if_pos hq, hq]
      exact .escape (c := '"') (by decide) ih
    by_cases hb : c = '\\'
    · rw [if_neg hq, if_pos hb, hb]
      exact .escape (c := '\\') (by decide) ih
    by_cases hn : c = '\n'
    · rw [if_neg hq, if_neg hb, if_pos hn, hn]
      exact .escape (c := 'n') (by decide) ih
    · rw [if_neg hq, if_neg hb, if_neg hn]
      exact .plain hq hb hn ih

/-- No line feed is left in a spelling. -/
theorem not_mem_of_spells {mark : Char} {cs s : List Char} (h : Spells mark cs s) : '\n' ∉ cs := by
  induction h with
  | nil => exact List.not_mem_nil
  | plain _ _ hn _ ih =>
    rw [List.mem_cons, not_or]
    exact ⟨Ne.symm hn, ih⟩
  | escape hn _ ih =>
    rw [List.mem_cons, List.mem_cons, not_or, not_or]
    exact ⟨by decide, Ne.symm hn, ih⟩

end Scriptlet.Lexical

namespace Scriptlet.Grammar

/-! ### Numbers -/

/-- The decimal digits of a number denote it. -/
theorem decimal_toDigits (n : Nat) : decimal (Nat.toDigits 10 n) = n :=
  Nat.ofDigitChars_eq_foldl.symm.trans Nat.ofDigitChars_ten_toDigits

end Scriptlet.Grammar
