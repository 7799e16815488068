import Scriptlet.Text.Quoted
import Mathlib.Algebra.GroupWithZero.Nat
import Mathlib.Data.List.Basic
import Mathlib.Data.List.Chain
import Mathlib.Tactic.Common

/-!
# Reading quoted texts

A quoted text is on one line, and it can be read from either end. From the front, each character is
told by how it is written. From the back, the quotes inside are told from the one that opens the text
by the backslash before them, so that the text is found at the end of whatever it stands behind, as
long as something else than a backslash parts the two.

## What is proved

* `readChar_quoteChar`: a written character is read back.
* `quoteList_injective`: different texts are quoted differently.
* `newline_notMem_quoteList`: a quoted text is on one line.
* `eq_of_append_quoteList`: a quoted text is found from the back.
-/

namespace Scriptlet.Text

/-! ### Codes of characters -/

/-- The value of a hexadecimal digit in lower case. -/
def hexDigit (c : Char) : Nat := if c.toNat < 0x3a then c.toNat - 0x30 else c.toNat - 0x57

/-- The number that hexadecimal digits denote. -/
def hexValue (cs : List Char) : Nat := cs.foldl (fun n c => 16 * n + hexDigit c) 0

theorem hexDigit_digitChar : ∀ n < 16, hexDigit (Nat.digitChar n) = n := by decide

theorem digitChar_plain : ∀ n < 16, Nat.digitChar n ∉ ['\n', '\'', '"'] := by decide

theorem length_hexDigits (width n : Nat) : (hexDigits width n).length = width := by
  induction width generalizing n with
  | zero => rfl
  | succ width ih => rw [hexDigits, List.length_append, ih, List.length_singleton]

theorem hexValue_hexDigits (width n : Nat) : hexValue (hexDigits width n) = n % 16 ^ width := by
  induction width generalizing n with
  | zero => rw [Nat.pow_zero, Nat.mod_one]; rfl
  | succ width ih =>
    have hlast := hexDigit_digitChar (n % 16) (Nat.mod_lt n (by decide))
    have hfront := ih (n / 16)
    unfold hexValue at hfront ⊢
    rw [hexDigits, List.foldl_append, hfront, List.foldl_cons, List.foldl_nil, hlast,
      Nat.pow_succ, Nat.mul_comm (16 ^ width), Nat.mod_mul, Nat.add_comm]

theorem plain_of_mem_hexDigits {width n : Nat} {c : Char} (h : c ∈ hexDigits width n) :
    c ∉ ['\n', '\'', '"'] := by
  induction width generalizing n with
  | zero => exact absurd h List.not_mem_nil
  | succ width ih =>
    rcases List.mem_append.mp h with h | h
    · exact ih h
    · rw [List.mem_singleton.mp h]
      exact digitChar_plain _ (Nat.mod_lt n (by decide))

/-! ### From the front -/

/-- How many digits follow the letter of a code. -/
def codeWidth? : Char → Option Nat
  | 'x' => some 2
  | 'u' => some 4
  | 'U' => some 8
  | _ => none

/-- The character that a letter after a backslash names, or that stands there for itself. -/
def named : Char → Char
  | 'n' => '\n'
  | 'r' => '\r'
  | 't' => '\t'
  | c => c

/-- The first character that is written in a quoted text, and what comes after it. -/
def readChar : List Char → Option (Char × List Char)
  | '\\' :: c :: cs =>
    match codeWidth? c with
    | some width => some (Char.ofNat (hexValue (cs.take width)), cs.drop width)
    | none => some (named c, cs)
  | c :: cs => some (c, cs)
  | [] => none

theorem readChar_self {c : Char} (hc : c ≠ '\\') (cs : List Char) :
    readChar (c :: cs) = some (c, cs) := by
  rw [readChar]
  exact fun _ _ h _ => hc h

theorem readChar_named {c : Char} (hc : codeWidth? c = none) (cs : List Char) :
    readChar ('\\' :: c :: cs) = some (named c, cs) := by
  rw [readChar, hc]

theorem readChar_code {letter : Char} {width : Nat} {c : Char} (hletter : codeWidth? letter = some width)
    (hc : c.toNat < 16 ^ width) (cs : List Char) :
    readChar ('\\' :: letter :: (hexDigits width c.toNat ++ cs)) = some (c, cs) := by
  rw [readChar, hletter]
  show some (Char.ofNat _, _) = _
  rw [List.take_left' (length_hexDigits ..), List.drop_left' (length_hexDigits ..),
    hexValue_hexDigits, Nat.mod_eq_of_lt hc, Char.ofNat_toNat]

theorem readChar_escapeCode (c : Char) (cs : List Char) :
    readChar (escapeCode c ++ cs) = some (c, cs) := by
  rw [escapeCode]
  split
  next h => exact readChar_code rfl h cs
  next =>
    split
    next h => exact readChar_code rfl h cs
    next =>
      exact readChar_code rfl (Nat.lt_of_lt_of_eq c.val.toNat_lt rfl) cs

section Quotes

variable {mark : Char}

/-- A written character is read back from whatever it is the start of. -/
theorem readChar_quoteChar (hmark : mark = '\'' ∨ mark = '"') (c : Char) (cs : List Char) :
    readChar (quoteChar mark c ++ cs) = some (c, cs) := by
  rw [quoteChar]
  split
  next h =>
    simp only [Bool.or_eq_true, decide_eq_true_eq] at h
    rcases h with rfl | rfl
    · rcases hmark with rfl | rfl
      · exact readChar_named rfl cs
      · exact readChar_named rfl cs
    · exact readChar_named rfl cs
  next h =>
    simp only [Bool.or_eq_true, decide_eq_true_eq, not_or] at h
    split
    next hn => exact hn ▸ readChar_named rfl cs
    next =>
      split
      next hr => exact hr ▸ readChar_named rfl cs
      next =>
        split
        next ht => exact ht ▸ readChar_named rfl cs
        next =>
          split
          · exact readChar_self h.2 cs
          · exact readChar_escapeCode c cs

theorem flatMap_quoteChar_injective (hmark : mark = '\'' ∨ mark = '"') {s s' : List Char}
    (h : s.flatMap (quoteChar mark) = s'.flatMap (quoteChar mark)) : s = s' := by
  have hread : ∀ c cs, ¬[] = quoteChar mark c ++ cs := by
    intro c cs h
    cases h ▸ readChar_quoteChar hmark c cs
  induction s generalizing s' with
  | nil =>
    cases s' with
    | nil => rfl
    | cons c' s' => exact absurd h (hread c' _)
  | cons c s ih =>
    cases s' with
    | nil => exact absurd h.symm (hread c _)
    | cons c' s' =>
      have hboth := readChar_quoteChar hmark c (s.flatMap (quoteChar mark))
      rw [← List.flatMap_cons, h, List.flatMap_cons, readChar_quoteChar hmark c'] at hboth
      obtain ⟨rfl, hrest⟩ := Prod.mk.inj (Option.some.inj hboth)
      rw [ih hrest.symm]

end Quotes

theorem quoteMark_eq (s : List Char) : quoteMark s = '\'' ∨ quoteMark s = '"' := by
  rw [quoteMark]
  split
  · exact .inr rfl
  · exact .inl rfl

/-- Different texts are quoted differently. -/
theorem quoteList_injective {s s' : List Char} (h : quoteList s = quoteList s') : s = s' := by
  obtain ⟨hmark, hrest⟩ := List.cons.inj h
  obtain ⟨hinside, -⟩ := List.append_inj' hrest rfl
  exact flatMap_quoteChar_injective (quoteMark_eq s') (hmark ▸ hinside)

/-! ### From the back -/

/-- How a character can be written: as itself, or with a backslash and then neither quotes nor line
feeds but for the quote that the backslash is for. -/
theorem quoteChar_shape {mark : Char} (hmark : mark = '\'' ∨ mark = '"') (c : Char) :
    (quoteChar mark c = [c] ∧ c ≠ mark ∧ c ≠ '\n') ∨
      ∃ d ds, quoteChar mark c = '\\' :: d :: ds ∧ d ≠ '\n' ∧ mark ∉ ds ∧ '\n' ∉ ds := by
  have hdigits : ∀ width n, mark ∉ hexDigits width n ∧ '\n' ∉ hexDigits width n := by
    intro width n
    refine ⟨fun h => plain_of_mem_hexDigits h ?_, fun h => plain_of_mem_hexDigits h ?_⟩
    · rcases hmark with rfl | rfl <;> decide
    · decide
  have hnil : mark ∉ [] ∧ '\n' ∉ ([] : List Char) := ⟨List.not_mem_nil, List.not_mem_nil⟩
  rw [quoteChar]
  split
  next h =>
    refine .inr ⟨c, [], rfl, ?_, hnil⟩
    simp only [Bool.or_eq_true, decide_eq_true_eq] at h
    rcases h with rfl | rfl
    · rcases hmark with rfl | rfl <;> decide
    · decide
  next h =>
    simp only [Bool.or_eq_true, decide_eq_true_eq, not_or] at h
    split
    next => exact .inr ⟨_, [], rfl, by decide, hnil⟩
    next hn =>
      split
      next => exact .inr ⟨_, [], rfl, by decide, hnil⟩
      next =>
        split
        next => exact .inr ⟨_, [], rfl, by decide, hnil⟩
        next =>
          split
          next => exact .inl ⟨rfl, h.1, hn⟩
          next =>
            rw [escapeCode]
            split
            next => exact .inr ⟨_, _, rfl, by decide, hdigits ..⟩
            next =>
              split
              next => exact .inr ⟨_, _, rfl, by decide, hdigits ..⟩
              next => exact .inr ⟨_, _, rfl, by decide, hdigits ..⟩

/-- A quoted text is on one line. -/
theorem newline_notMem_quoteList (s : List Char) : '\n' ∉ quoteList s := by
  have hne : '\n' ≠ quoteMark s := by rcases quoteMark_eq s with h | h <;> rw [h] <;> decide
  have hinside : '\n' ∉ s.flatMap (quoteChar (quoteMark s)) := by
    intro h
    obtain ⟨c, -, h⟩ := List.mem_flatMap.mp h
    rcases quoteChar_shape (quoteMark_eq s) c with ⟨hc, -, hn⟩ | ⟨d, ds, hc, hn, -, hds⟩
    · rw [hc, List.mem_singleton] at h
      exact hn h.symm
    · rw [hc, List.mem_cons, List.mem_cons] at h
      rcases h with h | h | h
      · exact absurd h (by decide)
      · exact hn h.symm
      · exact hds h
  rw [quoteList, List.mem_cons, List.mem_append, List.mem_singleton]
  rintro (h | h | h)
  · exact hne h
  · exact hinside h
  · exact hne h

/-- If the second of two characters is the quote, the first one is a backslash. -/
def Escapes (mark c d : Char) : Prop := d = mark → c = '\\'

theorem isChain_of_notMem {mark d : Char} {ds : List Char} (h : mark ∉ ds) :
    (d :: ds).IsChain (Escapes mark) := by
  induction ds generalizing d with
  | nil => exact .singleton d
  | cons e ds ih =>
    obtain ⟨he, hds⟩ := not_or.mp (List.mem_cons.not.mp h)
    exact .cons_cons (fun hm => absurd hm.symm he) (ih hds)

/-- In a quoted text there is a backslash before every quote, and none of them comes first. -/
theorem isChain_flatMap_quoteChar {mark : Char} (hmark : mark = '\'' ∨ mark = '"') (s : List Char) :
    (s.flatMap (quoteChar mark)).IsChain (Escapes mark) ∧
      ∀ d ∈ (s.flatMap (quoteChar mark)).head?, d ≠ mark := by
  induction s with
  | nil => exact ⟨.nil, by simp⟩
  | cons c s ih =>
    rw [List.flatMap_cons]
    have hchain : (quoteChar mark c).IsChain (Escapes mark) ∧
        ∃ d ds, quoteChar mark c = d :: ds ∧ d ≠ mark := by
      rcases quoteChar_shape hmark c with ⟨hc, hne, -⟩ | ⟨d, ds, hc, -, hds, -⟩
      · rw [hc]
        exact ⟨.singleton c, c, [], rfl, hne⟩
      · rw [hc]
        refine ⟨.cons_cons (fun _ => rfl) (isChain_of_notMem hds), _, _, rfl, ?_⟩
        rcases hmark with rfl | rfl <;> decide
    obtain ⟨hchain, d, ds, hd, hne⟩ := hchain
    refine ⟨List.isChain_append.mpr ⟨hchain, ih.1, ?_⟩, ?_⟩
    · exact fun _ _ d' hd' h => absurd h (ih.2 d' hd')
    · rw [hd]
      rintro _ ⟨⟩
      exact hne

/-- What a text with a quoted text at its end has before the last quote. -/
theorem append_quoteList (front s : List Char) :
    front ++ '=' :: quoteList s =
      (front ++ '=' :: quoteMark s :: s.flatMap (quoteChar (quoteMark s))) ++ [quoteMark s] := by
  rw [quoteList, List.append_assoc]
  rfl

theorem eq_nil_of_quoteList {between s s' : List Char}
    (h : '=' :: quoteList s = between ++ '=' :: quoteList s') : between = [] := by
  cases between with
  | nil => rfl
  | cons e between =>
    obtain ⟨-, h⟩ := List.cons.inj h
    cases between with
    | nil =>
      obtain ⟨hmark, -⟩ := List.cons.inj h
      rcases quoteMark_eq s with hs | hs
      · exact absurd (hs ▸ hmark) (by decide)
      · exact absurd (hs ▸ hmark) (by decide)
    | cons m between =>
      -- the quote that opens the second text would be one inside the first, after an equals sign
      obtain ⟨-, h⟩ := List.cons.inj h
      obtain ⟨hinside, hmark⟩ := List.append_inj' (h.trans (append_quoteList between s')) rfl
      have hchain := (isChain_flatMap_quoteChar (quoteMark_eq s) s).1
      rw [hinside] at hchain
      have hescapes := (List.isChain_cons_cons.mp hchain.right_of_append).1
      exact absurd (hescapes (List.cons.inj hmark).1.symm) (by decide)

/-- A quoted text is found from the back: it starts after the last equals sign that a quote
follows. -/
theorem eq_of_append_quoteList {front front' s s' : List Char}
    (h : front ++ '=' :: quoteList s = front' ++ '=' :: quoteList s') :
    front = front' ∧ s = s' := by
  have hnil : front = front' := by
    rcases List.append_eq_append_iff.mp h with ⟨between, hfront, hrest⟩ | ⟨between, hfront, hrest⟩
    · rw [hfront, eq_nil_of_quoteList hrest, List.append_nil]
    · rw [hfront, eq_nil_of_quoteList hrest, List.append_nil]
  subst hnil
  exact ⟨rfl, quoteList_injective (List.cons.inj (List.append_cancel_left h)).2⟩

end Scriptlet.Text
