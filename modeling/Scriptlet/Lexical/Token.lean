import Scriptlet.Lexical.Terminal
import Scriptlet.Text.Position

/-!
# Tokens

A token is a word of a text with its kind and the two ends of its place. Which word stands at a
place depends on the vocabulary, the set of terminals looked for: a text is cut with all of them when
it is only looked at, and with those that can come next when it is parsed.

A reserved word is found in one of two ways. If names are in the vocabulary, a name is taken first
and is the reserved word whose spelling it has; otherwise the spelling alone is looked for, and may be
the start of a longer word.

## What is stated

* `Cursor.next?_append`: a token and the rest make up the text.
* `Cursor.next?_length`: a token takes at least one character.
-/

namespace Scriptlet.Lexical

open Scriptlet.Text

/-- A word of a text with its place. -/
structure Token where
  /-- Its kind. -/
  kind : Terminal
  /-- Its characters. -/
  word : List Char
  /-- Where it starts. -/
  start : Position
  /-- Where it ends: the position after its last character. -/
  stop : Position
  deriving DecidableEq, Repr

/-- The characters of a token as a string. -/
def Token.text (t : Token) : String := String.ofList t.word

/-- The terminals that are looked for. -/
abbrev Vocabulary := Terminal → Bool

namespace Vocabulary

/-- All terminals. -/
def full : Vocabulary := fun _ => true

/-- The terminals tried one after the other: reserved words are not tried beside names. -/
def tried (v : Vocabulary) : List Terminal :=
  Terminal.inOrder.filter fun t => v t && !(t.isReserved && v .name)

/-- The kind of a name: the reserved word of that spelling, if it is looked for. -/
def kindOfName (v : Vocabulary) (word : List Char) : Terminal :=
  (Terminal.inOrder.find? fun t => v t && t.reserved? == some word).getD .name

/-- The kind of a word that the terminal `t` takes. -/
def kindOf (v : Vocabulary) (t : Terminal) (word : List Char) : Terminal :=
  if t = .name then v.kindOfName word else t

/-- The kind of the word at the start of a text, the word, and what follows it. -/
def split? (v : Vocabulary) (cs : List Char) : Option (Terminal × List Char × List Char) :=
  v.tried.findSome? fun t => (t.split? cs).map fun (word, rest) => (v.kindOf t word, word, rest)

theorem append_of_split {v : Vocabulary} {cs word rest : List Char} {t : Terminal}
    (h : v.split? cs = some (t, word, rest)) : word ++ rest = cs ∧ word ≠ [] := by
  obtain ⟨u, -, h⟩ := List.exists_of_findSome?_eq_some h
  simp only [Option.map_eq_some_iff, Prod.mk.injEq] at h
  obtain ⟨⟨w, r⟩, hs, -, rfl, rfl⟩ := h
  exact ⟨Terminal.append_of_split hs, Terminal.ne_nil_of_split hs⟩

end Vocabulary

/-- What is left of a text, and where it starts in the whole. -/
structure Cursor where
  /-- The position of the first character left. -/
  position : Position
  /-- The characters left. -/
  rest : List Char
  deriving DecidableEq, Repr

namespace Cursor

/-- A whole text. -/
def ofString (s : String) : Cursor := ⟨.start, s.toList⟩

/-- The token at the cursor, and the cursor after it. -/
def next? (v : Vocabulary) (c : Cursor) : Option (Token × Cursor) :=
  (v.split? c.rest).map fun (kind, word, rest) =>
    let stop := c.position.advance word
    (⟨kind, word, c.position, stop⟩, ⟨stop, rest⟩)

theorem next?_append {v : Vocabulary} {c d : Cursor} {t : Token} (h : c.next? v = some (t, d)) :
    t.word ++ d.rest = c.rest ∧ t.word ≠ [] := by
  simp only [next?, Option.map_eq_some_iff, Prod.mk.injEq] at h
  obtain ⟨⟨_, _, _⟩, hs, rfl, rfl⟩ := h
  exact Vocabulary.append_of_split hs

theorem next?_length {v : Vocabulary} {c d : Cursor} {t : Token} (h : c.next? v = some (t, d)) :
    d.rest.length < c.rest.length := by
  obtain ⟨ha, hn⟩ := next?_append h
  have := List.length_pos_iff.2 hn
  rw [← ha, List.length_append]
  omega

end Cursor

/-! ### Cutting a whole text -/

/-- A text cut into tokens, and the place where no terminal fits, if there is one. -/
structure Cut where
  /-- The tokens up to there. -/
  tokens : List Token
  /-- The first place where no terminal fits. -/
  stuck : Option Position
  deriving DecidableEq, Repr

/-- The tokens from a cursor on, at most as many as the fuel. -/
def cutFrom (v : Vocabulary) : Nat → Cursor → Cut
  | 0, _ => ⟨[], none⟩
  | fuel + 1, c =>
    if c.rest.isEmpty then ⟨[], none⟩
    else match c.next? v with
      | none => ⟨[], some c.position⟩
      | some (t, d) =>
        let cut := cutFrom v fuel d
        ⟨t :: cut.tokens, cut.stuck⟩

/-- A text cut with all terminals. Nothing is left out: white space and comments are tokens too. -/
def cut (s : String) : Cut :=
  let c := Cursor.ofString s
  cutFrom .full c.rest.length c

end Scriptlet.Lexical
