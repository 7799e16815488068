import Scriptlet.Proofs.Lexical.Brackets
import Scriptlet.Proofs.Parsing.Course
import Mathlib.Data.List.Chain

/-!
# The words of a text

A text is cut with all terminals into words that lie side by side, from its start up to its end or to the
first place where no terminal takes a word. Where a word stands is counted on while the text is cut, from
the place where the word before it ends; it could as well be counted each time from the start of the text.

## What is proved

* `Position.advance_start`: counting on from word to word comes to the same as counting from the start.
* `exists_readUpTo_of_cutFrom`: a text is cut up to its end, or to a place where no terminal takes a word.
* `cutsOff_of_readUpTo`: words that are read from the start of a text lie side by side, each where counting
  says.
* `words_cover`: so do the words of a text, and an error is at the first character behind them.
-/

namespace Scriptlet

/-! ### Positions -/

namespace Text.Position

/-- The position behind a stretch at the start of a text, told by counting: the characters of the stretch,
the line feeds among them, and the characters behind the last line feed. Lines and columns count from one. -/
def behind (cs : List Char) : Position :=
  ⟨cs.length, cs.count '\n' + 1, (cs.reverse.takeWhile fun c => c ≠ '\n').length + 1⟩

theorem step_behind (cs : List Char) (c : Char) : (behind cs).step c = behind (cs ++ [c]) := by
  by_cases hc : c = '\n'
  · simp [step, behind, hc]
  · simp [step, behind, hc]

theorem advance_behind (cs ds : List Char) : (behind cs).advance ds = behind (cs ++ ds) := by
  induction ds generalizing cs with
  | nil => rw [advance_nil, List.append_nil]
  | cons d ds ih => rw [advance_cons, step_behind, ih, List.append_assoc, List.singleton_append]

/-- Counting on comes to the same as counting from the start. -/
theorem advance_start (cs : List Char) : start.advance cs = behind cs :=
  advance_behind [] cs

end Text.Position

/-! ### Cutting -/

namespace Lexical

/-- A text is cut up to a place, which is its end, or else one where nothing that is looked for stands. It
takes one unit of fuel per character. -/
theorem exists_readUpTo_of_cutFrom {v : Vocabulary} (hv : ∀ t : Terminal, t.isIgnored → v t) {fuel : Nat}
    {c : Cursor} (hfuel : c.rest.length ≤ fuel) :
    ∃ e, ReadUpTo c (cutFrom v fuel c).tokens e ∧
      ((cutFrom v fuel c).stuck = none ∧ e.rest = [] ∨
        (cutFrom v fuel c).stuck = some e.position ∧ e.rest ≠ [] ∧ e.next? v = none) := by
  induction fuel generalizing c with
  | zero =>
    have hnil : c.rest = [] := List.eq_nil_of_length_eq_zero (Nat.le_zero.mp hfuel)
    exact ⟨c, .nil c, .inl ⟨rfl, hnil⟩⟩
  | succ fuel ih =>
    rw [cutFrom]
    by_cases hrest : c.rest = []
    · rw [if_pos (List.isEmpty_iff.mpr hrest)]
      exact ⟨c, .nil c, .inl ⟨rfl, hrest⟩⟩
    · rw [if_neg (mt List.isEmpty_iff.mp hrest)]
      cases hnext : c.next? v with
      | none => exact ⟨c, .nil c, .inr ⟨rfl, hrest, hnext⟩⟩
      | some found =>
        obtain ⟨t, d⟩ := found
        have hlen := Cursor.next?_length hnext
        obtain ⟨e, hread, hend⟩ := ih (c := d) (by omega)
        exact ⟨e, .cons hv hnext hread, hend⟩

theorem exists_readUpTo_of_cut (source : String) :
    ∃ e, ReadUpTo (Cursor.ofString source) (cut source).tokens e ∧
      ((cut source).stuck = none ∧ e.rest = [] ∨
        (cut source).stuck = some e.position ∧ e.rest ≠ [] ∧ e.next? .full = none) :=
  exists_readUpTo_of_cutFrom (fun _ _ => rfl) (Nat.le_refl _)

end Lexical

namespace Parsing

open Lexical Text

/-! ### Words side by side -/

/-- Words are cut off the start of a text, and the characters `rest` are left of it. -/
structure CutsOff (text : List Char) (ts : List Token) (rest : List Char) : Prop where
  /-- The words make up all that is not left. -/
  whole : text = spelled ts ++ rest
  /-- No word is empty. -/
  ne_nil : ∀ t ∈ ts, t.word ≠ []
  /-- A word starts where the one before it ends. -/
  adjacent : ts.IsChain fun t u => u.start = t.stop
  /-- Both ends of a word are where counting from the start of the text says. -/
  placed : ∀ sooner t later, ts = sooner ++ t :: later →
    t.start = .behind (spelled sooner) ∧ t.stop = .behind (spelled sooner ++ t.word)
  /-- A word is the one that its kind takes there. -/
  taken : ∀ sooner t later, ts = sooner ++ t :: later →
    t.kind.split? (t.word ++ (spelled later ++ rest)) = some (t.word, spelled later ++ rest)

variable {c e : Cursor} {ts : List Token}

/-- A word that is read stands somewhere behind the words before it, and the others are read behind it. -/
theorem stands_of_readUpTo {sooner later : List Token} {t : Token}
    (h : ReadUpTo c (sooner ++ t :: later) e) :
    ∃ d d', t.Stands d d' ∧ d.position = c.position.advance (spelled sooner) ∧
      d'.rest = spelled later ++ e.rest := by
  obtain ⟨d, hsooner, hlater⟩ := h.split
  cases hlater with
  | @cons _ _ d' _ _ _ _ hnext hs =>
    exact ⟨d, d', Cursor.stands_of_next? hnext, position_of_readUpTo hsooner, rest_of_readUpTo hs⟩

theorem isChain_of_readUpTo (h : ReadUpTo c ts e) : ts.IsChain fun t u => u.start = t.stop := by
  induction h with
  | nil => exact .nil
  | @cons _ _ d _ t ts _ hnext hs ih =>
    refine List.isChain_cons.mpr ⟨fun u hu => ?_, ih⟩
    cases hs with
    | nil => cases hu
    | cons _ hnext' _ =>
      obtain rfl := Option.some.inj hu
      rw [(Cursor.stands_of_next? hnext').start, (Cursor.stands_of_next? hnext).after]

/-- Words that are read from the start of a text lie side by side, each where counting says. -/
theorem cutsOff_of_readUpTo {source : String} (h : ReadUpTo (Cursor.ofString source) ts e) :
    CutsOff source.toList ts e.rest where
  whole := rest_of_readUpTo h
  ne_nil t ht := by
    obtain ⟨sooner, later, rfl⟩ := List.append_of_mem ht
    obtain ⟨d, d', hstands, -⟩ := stands_of_readUpTo h
    exact Terminal.ne_nil_of_split hstands.word
  adjacent := isChain_of_readUpTo h
  placed sooner t later hts := by
    subst hts
    obtain ⟨d, d', hstands, hposition, -⟩ := stands_of_readUpTo h
    have hstart : d.position = .behind (spelled sooner) := hposition.trans (Position.advance_start _)
    rw [hstands.start, hstands.stop, hstart, Position.advance_behind]
    exact ⟨rfl, rfl⟩
  taken sooner t later hts := by
    subst hts
    obtain ⟨d, d', hstands, -, hrest⟩ := stands_of_readUpTo h
    rw [← hrest, Terminal.append_of_split hstands.word]
    exact hstands.word

/-- A text that can be cut to its end is cut into words that leave nothing of it. -/
theorem cutsOff_of_cut {source : String} (h : (cut source).stuck = none) :
    CutsOff source.toList (cut source).tokens [] := by
  obtain ⟨e, hread, hend⟩ := exists_readUpTo_of_cut source
  rcases hend with ⟨-, hrest⟩ | ⟨hstuck, -⟩
  · exact hrest ▸ cutsOff_of_readUpTo hread
  · rw [h] at hstuck
    cases hstuck

/-- **The words of a text cover it.** They lie side by side from its start on, each where counting says; and
either they are the whole text, or there is an error, which is at the first character behind them, and no
terminal takes a word there. -/
theorem words_cover (source : String) :
    ∃ rest, CutsOff source.toList (words source).1 rest ∧
      ((words source).2 = none ∧ rest = [] ∨
        (words source).2 = some ⟨.notAWord, .behind (spelled (words source).1)⟩ ∧ rest ≠ [] ∧
          ∀ t : Terminal, t.split? rest = none) := by
  obtain ⟨e, hread, hend⟩ := exists_readUpTo_of_cut source
  have hproblem : (words source).2 = (cut source).stuck.map fun p => ⟨.notAWord, p⟩ := rfl
  refine ⟨e.rest, cutsOff_of_readUpTo hread, ?_⟩
  rcases hend with ⟨hstuck, hrest⟩ | ⟨hstuck, hrest, hnext⟩
  · rw [hproblem, hstuck]
    exact .inl ⟨rfl, hrest⟩
  · have hposition : e.position = .behind (spelled (words source).1) :=
      (position_of_readUpTo hread).trans (Position.advance_start _)
    have hfull : Vocabulary.full.split? e.rest = none := Option.map_eq_none_iff.mp hnext
    rw [hproblem, hstuck, ← hposition]
    exact .inr ⟨rfl, hrest, Vocabulary.split?_eq_none_of_full hfull⟩

/-- A comment over two lines is one word, and the words behind it are on its last line. -/
example : words "/*\n*/a #" =
    ([⟨.blockComment, ['/', '*', '\n', '*', '/'], ⟨0, 1, 1⟩, ⟨5, 2, 3⟩⟩,
      ⟨.name, ['a'], ⟨5, 2, 3⟩, ⟨6, 2, 4⟩⟩, ⟨.blank, [' '], ⟨6, 2, 4⟩, ⟨7, 2, 5⟩⟩],
      some ⟨.notAWord, ⟨7, 2, 5⟩⟩) := by
  decide

end Parsing

end Scriptlet
