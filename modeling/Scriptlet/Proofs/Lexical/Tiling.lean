import Scriptlet.Proofs.Lexical.Vocabulary

/-!
# Texts as rows of words

A text is cut into words by taking one word after the other, so the words lie side by side and cover
it. `Tiled` says so of any row of words, whatever vocabulary each of them was found with, and
`CutInto` of the row that a fixed vocabulary gives.

## What is proved

* `Tiled.of_readInto`: words that are read one after the other cover the text.
* `CutInto.of_cutFrom`: a cut that gets stuck nowhere is a row that a fixed vocabulary gives.
-/

namespace Scriptlet.Lexical

/-- The words that mean something: all but white space and comments. -/
def significant (ts : List Token) : List Token := ts.filter fun t => !t.kind.isIgnored

@[simp] theorem significant_nil : significant [] = [] := rfl

@[simp] theorem significant_append (ts us : List Token) :
    significant (ts ++ us) = significant ts ++ significant us :=
  List.filter_append ..

theorem significant_cons_of_ignored {t : Token} {ts : List Token} (h : t.kind.isIgnored) :
    significant (t :: ts) = significant ts := by
  simp [significant, h]

theorem significant_cons_of_not_ignored {t : Token} {ts : List Token}
    (h : t.kind.isIgnored = false) : significant (t :: ts) = t :: significant ts := by
  simp [significant, h]

/-- A token stands at a cursor, and another cursor is the place right after it: the token is the word
that its kind takes there, and it knows the two ends of its place. -/
structure Token.Stands (t : Token) (c d : Cursor) : Prop where
  /-- Its kind takes its characters. -/
  word : t.kind.split? c.rest = some (t.word, d.rest)
  /-- It starts at the first cursor. -/
  start : t.start = c.position
  /-- It ends after its characters. -/
  stop : t.stop = c.position.advance t.word
  /-- The second cursor is where it ends. -/
  after : d.position = t.stop

theorem Cursor.stands_of_next? {v : Vocabulary} {c d : Cursor} {t : Token}
    (h : c.next? v = some (t, d)) : t.Stands c d := by
  simp only [next?, Option.map_eq_some_iff, Prod.mk.injEq, Prod.exists] at h
  obtain ⟨kind, word, rest, hs, rfl, rfl⟩ := h
  exact ⟨Vocabulary.split?_kind hs, rfl, rfl, rfl⟩

/-- From a cursor on, the text is a row of words, with nothing between them. -/
inductive Tiled : Cursor → List Token → Prop where
  /-- Nothing is left. -/
  | nil (p : Text.Position) : Tiled ⟨p, []⟩ []
  /-- A word and those after it. -/
  | cons {c d : Cursor} {t : Token} {ts : List Token} (h : t.Stands c d) (hs : Tiled d ts) :
      Tiled c (t :: ts)

/-- From a cursor on, a vocabulary cuts the text into these words and gets stuck nowhere. -/
inductive CutInto (v : Vocabulary) : Cursor → List Token → Prop where
  /-- Nothing is left. -/
  | nil (p : Text.Position) : CutInto v ⟨p, []⟩ []
  /-- A word and those after it. -/
  | cons {c d : Cursor} {t : Token} {ts : List Token} (h : c.next? v = some (t, d))
      (hs : CutInto v d ts) : CutInto v c (t :: ts)

/-- From a cursor on, vocabularies that may change from word to word, but hold all that is ignored, cut
the text into these words. -/
inductive ReadInto : Cursor → List Token → Prop where
  /-- Nothing is left. -/
  | nil (p : Text.Position) : ReadInto ⟨p, []⟩ []
  /-- A word and those after it. -/
  | cons {v : Vocabulary} {c d : Cursor} {t : Token} {ts : List Token}
    (hv : ∀ u : Terminal, u.isIgnored → v u) (h : c.next? v = some (t, d)) (hs : ReadInto d ts) :
    ReadInto c (t :: ts)

/-- From a cursor on, vocabularies that may change from word to word, but hold all that is ignored, cut off
these words and come to another cursor. -/
inductive ReadUpTo : Cursor → List Token → Cursor → Prop where
  /-- No word is cut off. -/
  | nil (c : Cursor) : ReadUpTo c [] c
  /-- A word and those after it. -/
  | cons {v : Vocabulary} {c d c' : Cursor} {t : Token} {ts : List Token}
      (hv : ∀ u : Terminal, u.isIgnored → v u) (h : c.next? v = some (t, d)) (hs : ReadUpTo d ts c') :
      ReadUpTo c (t :: ts) c'

/-- What vocabularies cut a text into covers the text. -/
theorem Tiled.of_readInto {c : Cursor} {ts : List Token} (h : ReadInto c ts) : Tiled c ts := by
  induction h with
  | nil p => exact .nil p
  | cons _ h _ ih => exact .cons (Cursor.stands_of_next? h) ih

/-- A cut that gets stuck nowhere leaves nothing out, given one unit of fuel per character. -/
theorem CutInto.of_cutFrom {v : Vocabulary} {fuel : Nat} {c : Cursor} {ts : List Token}
    (hfuel : c.rest.length ≤ fuel) (h : cutFrom v fuel c = ⟨ts, none⟩) : CutInto v c ts := by
  induction fuel generalizing c ts with
  | zero =>
    have hnil : c.rest = [] := List.eq_nil_of_length_eq_zero (Nat.le_zero.mp hfuel)
    obtain ⟨p, cs⟩ := c
    obtain rfl : cs = [] := hnil
    simp only [cutFrom, Cut.mk.injEq] at h
    rw [← h.1]
    exact .nil p
  | succ fuel ih =>
    rw [cutFrom] at h
    split at h
    · rename_i hnil
      obtain ⟨p, cs⟩ := c
      obtain rfl : cs = [] := List.isEmpty_iff.mp hnil
      simp only [Cut.mk.injEq] at h
      rw [← h.1]
      exact .nil p
    · split at h
      · simp at h
      · rename_i t d hnext
        simp only [Cut.mk.injEq] at h
        obtain ⟨rfl, hstuck⟩ := h
        have hlen := Cursor.next?_length hnext
        refine .cons hnext (ih (by omega) ?_)
        rw [← hstuck]

theorem CutInto.of_cut {s : String} {ts : List Token} (h : cut s = ⟨ts, none⟩) :
    CutInto .full (Cursor.ofString s) ts :=
  CutInto.of_cutFrom (Nat.le_refl _) h

/-! ### Reading up to a place -/

theorem ReadUpTo.append {c d c' : Cursor} {ts us : List Token} (h : ReadUpTo c ts d)
    (h' : ReadUpTo d us c') : ReadUpTo c (ts ++ us) c' := by
  induction h with
  | nil => exact h'
  | cons hv hnext _ ih => exact .cons hv hnext (ih h')

theorem ReadUpTo.eq_of_nil {c c' : Cursor} (h : ReadUpTo c [] c') : c = c' := by
  cases h
  rfl

/-- What is read can be cut in two. -/
theorem ReadUpTo.split {c e : Cursor} {ts us : List Token} (h : ReadUpTo c (ts ++ us) e) :
    ∃ d, ReadUpTo c ts d ∧ ReadUpTo d us e := by
  induction ts generalizing c with
  | nil => exact ⟨c, .nil c, h⟩
  | cons t ts ih =>
    cases h with
    | cons hv hnext hs =>
      obtain ⟨d, hleft, hright⟩ := ih hs
      exact ⟨d, .cons hv hnext hleft, hright⟩

/-- A word that stands at a place determines where it ends. -/
theorem Token.Stands.unique {t : Token} {c d e : Cursor} (h : t.Stands c d) (h' : t.Stands c e) :
    d = e := by
  have hrest : d.rest = e.rest := (Prod.mk.inj (Option.some.inj (h.word.symm.trans h'.word))).2
  have hposition : d.position = e.position := h.after.trans h'.after.symm
  obtain ⟨p, cs⟩ := d
  obtain ⟨q, ds⟩ := e
  rw [Cursor.mk.injEq]
  exact ⟨hposition, hrest⟩

/-- Words determine the place that is come to. -/
theorem ReadUpTo.unique {c d e : Cursor} {ts : List Token} (h : ReadUpTo c ts d)
    (h' : ReadUpTo c ts e) : d = e := by
  induction h with
  | nil => exact h'.eq_of_nil
  | cons _ hnext _ ih =>
    cases h' with
    | cons _ hnext' hs' =>
      obtain rfl := (Cursor.stands_of_next? hnext).unique (Cursor.stands_of_next? hnext')
      exact ih hs'

/-- What is read to its end is read up to the end of the text. -/
theorem ReadInto.exists_readUpTo {c : Cursor} {ts : List Token} (h : ReadInto c ts) :
    ∃ e : Cursor, e.rest = [] ∧ ReadUpTo c ts e := by
  induction h with
  | nil p => exact ⟨_, rfl, .nil _⟩
  | cons hv hnext _ ih =>
    obtain ⟨e, hend, hs⟩ := ih
    exact ⟨e, hend, .cons hv hnext hs⟩

theorem ReadUpTo.readInto {c e : Cursor} {ts : List Token} (h : ReadUpTo c ts e) (hend : e.rest = []) :
    ReadInto c ts := by
  induction h with
  | nil c =>
    obtain ⟨p, cs⟩ := c
    obtain rfl : cs = [] := hend
    exact .nil p
  | cons hv hnext _ ih => exact .cons hv hnext (ih hend)

end Scriptlet.Lexical
