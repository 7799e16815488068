import Scriptlet.Proofs.Parsing.Words
import Scriptlet.Session.Highlight
import Mathlib.Data.List.Forall2

/-!
# What highlighting shows

Highlighting gives a text styles and leaves it what it is. Its lines are shown one by one; the fragments of a
line make up the line, and where the line can be cut into words, each word is a fragment of its own.

A line is shown from place to place: white space is passed over, and what has been passed over comes up as a
piece of the line in front of the next word or at the end. A run of white space is one word, so this comes to
one fragment for every word of the line, white space included.

## What is proved

* `linesOf_areLines`: the lines of a text, with line feeds between them, are the text.
* `fragmentsFrom_eq`, `highlightLine_of_cut`: going from place to place gives one fragment for every word.
* `shows_highlightLine`: the fragments of a line show it.
* `highlight_shows`: so highlighting shows every line of a text.
-/

namespace Scriptlet.Session

open Lexical Parsing

/-! ### Lines -/

/-- The lines of a text: with line feeds between them they are the text, and there is none in them. -/
structure AreLines (lines : List String) (text : String) : Prop where
  /-- There is a line, if only an empty one. -/
  ne_nil : lines ≠ []
  /-- With line feeds between them they are the text. -/
  whole : "\n".intercalate lines = text
  /-- A line holds no line feed. -/
  line : ∀ line ∈ lines, '\n' ∉ line.toList

theorem splitLines_ne_nil (cs : List Char) : splitLines cs ≠ [] := by
  fun_cases splitLines cs <;> exact List.cons_ne_nil _ _

theorem intercalate_splitLines (cs : List Char) : ['\n'].intercalate (splitLines cs) = cs := by
  fun_induction splitLines cs with
  | case1 => rfl
  | case2 cs ih => rw [List.intercalate_cons_of_ne_nil (splitLines_ne_nil cs), ih]; rfl
  | case3 c cs _ hnil => exact absurd hnil (splitLines_ne_nil cs)
  | case4 c cs _ line lines hlines ih =>
    rw [hlines] at ih
    rw [← ih]
    cases lines with
    | nil => rfl
    | cons next lines => simp only [List.intercalate_cons_cons, List.cons_append]

theorem newline_notMem_splitLines (cs : List Char) : ∀ line ∈ splitLines cs, '\n' ∉ line := by
  fun_induction splitLines cs with
  | case1 => simp
  | case2 cs ih => simpa using ih
  | case3 c cs _ hnil => exact absurd hnil (splitLines_ne_nil cs)
  | case4 c cs hc line lines hlines ih =>
    rw [hlines] at ih
    obtain ⟨hline, hothers⟩ := List.forall_mem_cons.mp ih
    refine List.forall_mem_cons.mpr ⟨fun hm => ?_, hothers⟩
    rcases List.mem_cons.mp hm with rfl | hm
    · exact hc rfl
    · exact hline hm

theorem linesOf_areLines (text : String) : AreLines (linesOf text) text where
  ne_nil := mt List.map_eq_nil_iff.mp (splitLines_ne_nil _)
  whole := by
    rw [← String.toList_inj, String.toList_intercalate, linesOf, List.map_map]
    have hid : String.toList ∘ String.ofList = id := funext fun _ => String.toList_ofList
    rw [hid, List.map_id]
    exact intercalate_splitLines text.toList
  line line hline := by
    obtain ⟨cs, hcs, rfl⟩ := List.mem_map.mp hline
    rw [String.toList_ofList]
    exact newline_notMem_splitLines _ cs hcs

/-! ### Fragments -/

/-- The characters that fragments show. -/
def shown (fs : List Fragment) : List Char := fs.flatMap fun f => f.text.toList

/-- Behind some fragments, the next one shows a word: it is the word in the style of its group, and stands
where the word starts. -/
structure ShowsWord (sooner : List Fragment) (f : Fragment) (t : Token) : Prop where
  /-- The word is in the style of its group. -/
  fragment : f = ⟨(groupOf t).style, t.text⟩
  /-- The fragment is where the word starts. -/
  place : t.start.offset = (shown sooner).length

/-- Fragments show a line. -/
structure Shows (line : String) (fs : List Fragment) : Prop where
  /-- They make up the line. -/
  whole : shown fs = line.toList
  /-- If there is something on the line, there is something in every fragment. -/
  ne_empty : line ≠ "" → ∀ f ∈ fs, f.text ≠ ""
  /-- If the line can be cut into words, every word that is not white space is shown by one fragment. -/
  word : (cut line).stuck = none → ∀ t ∈ (cut line).tokens, t.kind ≠ .blank →
    ∃ sooner f later, fs = sooner ++ f :: later ∧ ShowsWord sooner f t
  /-- If the line can be cut into words, a fragment that shows none of these is white space without
  style. -/
  between : (cut line).stuck = none → ∀ sooner f later, fs = sooner ++ f :: later →
    (∃ t ∈ (cut line).tokens, t.kind ≠ .blank ∧ ShowsWord sooner f t) ∨
      f.style = "" ∧ ∀ c ∈ f.text.toList, isSpace c

/-- A word in its style; white space has none. -/
def fragmentOf (t : Token) : Fragment :=
  if t.kind = .blank then ⟨"", t.text⟩ else ⟨(groupOf t).style, t.text⟩

theorem text_fragmentOf (t : Token) : (fragmentOf t).text = t.text := by
  rw [fragmentOf]
  split <;> rfl

theorem fragmentOf_of_blank {t : Token} (h : t.kind = .blank) : fragmentOf t = ⟨"", t.text⟩ :=
  if_pos h

theorem fragmentOf_of_ne {t : Token} (h : t.kind ≠ .blank) :
    fragmentOf t = ⟨(groupOf t).style, t.text⟩ :=
  if_neg h

/-- The fragments of words show the words. -/
theorem shown_map_fragmentOf (ts : List Token) : shown (ts.map fragmentOf) = spelled ts := by
  induction ts with
  | nil => rfl
  | cons t ts ih =>
    rw [spelled_cons, ← ih, List.map_cons, shown, List.flatMap_cons, text_fragmentOf, Token.text,
      String.toList_ofList]
    rfl

/-- Behind the fragments of the words before it, the fragment of a word shows it. -/
theorem showsWord_fragmentOf {cs rest : List Char} {sooner later : List Token} {t : Token}
    (h : CutsOff cs (sooner ++ t :: later) rest) (ht : t.kind ≠ .blank) :
    ShowsWord (sooner.map fragmentOf) (fragmentOf t) t where
  fragment := fragmentOf_of_ne ht
  place := by
    rw [shown_map_fragmentOf, (h.placed sooner t later rfl).1]
    rfl

/-- White space is made of spaces, and none stands behind it. -/
theorem isSpace_of_split?_blank {cs word rest : List Char}
    (h : Terminal.blank.split? cs = some (word, rest)) :
    (∀ c ∈ word, isSpace c) ∧ ∀ c ∈ rest.head?, isSpace c = false := by
  cases cs with
  | nil => cases h
  | cons c cs =>
    simp only [Terminal.split?, splitRun, splitHead, Option.ite_none_right_eq_some, Option.some.injEq,
      Prod.mk.injEq] at h
    obtain ⟨hc, rfl, rfl⟩ := h
    exact ⟨List.forall_mem_cons.mpr ⟨hc, List.all_eq_true.mp List.all_takeWhile⟩, head?_dropWhile cs⟩

/-! ### From place to place -/

section Walk

variable {line : List Char} {sooner gap later : List Token} {t : Token}

/-- White space that is passed over: a run of it, if any. -/
inductive IsGap : List Token → Prop where
  /-- None. -/
  | nil : IsGap []
  /-- One run. -/
  | run {t : Token} (h : t.kind = .blank) : IsGap [t]

/-- Behind white space there is no more of it. -/
theorem IsGap.eq_nil (hgap : IsGap gap) (h : CutsOff line (sooner ++ gap ++ t :: later) [])
    (ht : t.kind = .blank) : gap = [] := by
  cases hgap with
  | nil => rfl
  | @run b hb =>
    rw [List.append_assoc] at h
    have hrun := h.taken sooner b (t :: later) rfl
    have hnext := h.taken (sooner ++ [b]) t later (by rw [List.append_assoc, List.singleton_append])
    rw [hb] at hrun
    rw [ht] at hnext
    obtain ⟨c, cs, hword⟩ := List.exists_cons_of_ne_nil (h.ne_nil t (by simp))
    have hspace : isSpace c := (isSpace_of_split?_blank hnext).1 c (hword ▸ List.mem_cons_self)
    have hnone : isSpace c = false :=
      (isSpace_of_split?_blank hrun).2 c (by rw [spelled_cons, hword]; rfl)
    rw [hnone] at hspace
    cases hspace

/-- What has been passed over comes up as one fragment. -/
theorem IsGap.unstyled_eq (hgap : IsGap gap) (hne : ∀ b ∈ gap, b.word ≠ []) {cs : List Char}
    (hline : line = spelled (sooner ++ gap) ++ cs) :
    unstyled line (spelled sooner).length (spelled (sooner ++ gap)).length = gap.map fragmentOf := by
  have hpiece : (line.take (spelled (sooner ++ gap)).length).drop (spelled sooner).length =
      spelled gap := by
    rw [hline, List.take_left, spelled_append, List.drop_left]
  rw [unstyled, hpiece, spelled_append, List.length_append]
  cases hgap with
  | nil => exact if_neg (Nat.lt_irrefl _)
  | @run b hb =>
    have hlength : 0 < b.word.length := List.length_pos_iff.mpr (hne b List.mem_cons_self)
    rw [spelled_cons, spelled_nil, List.append_nil, if_pos (by omega), List.map_singleton,
      fragmentOf_of_blank hb]
    rfl

/-- **Going from place to place gives one fragment for every word**, and for white space that has been
passed over. -/
theorem fragmentsFrom_eq (hgap : IsGap gap) (h : CutsOff line (sooner ++ gap ++ later) []) :
    fragmentsFrom line (spelled sooner).length later = (gap ++ later).map fragmentOf := by
  -- along the words that are still to be shown; a blank becomes the gap, any other word ends it
  induction later generalizing sooner gap with
  | nil =>
    rw [List.append_nil] at h
    have hline : line = spelled (sooner ++ gap) ++ [] := h.whole
    have hend : line.length = (spelled (sooner ++ gap)).length := by rw [hline, List.append_nil]
    rw [fragmentsFrom, hend, List.append_nil]
    exact hgap.unstyled_eq (fun b hb => h.ne_nil b (List.mem_append_right _ hb)) hline
  | cons t later ih =>
    by_cases hblank : t.kind = .blank
    · obtain rfl := hgap.eq_nil h hblank
      rw [fragmentsFrom, if_pos (by simp [hblank])]
      refine ih (.run hblank) ?_
      rwa [List.append_nil, List.append_cons] at h
    · have hplace : t.start.offset = (spelled (sooner ++ gap)).length := by
        rw [(h.placed (sooner ++ gap) t later rfl).1]
        rfl
      have hle : (spelled sooner).length ≤ t.start.offset := by
        rw [hplace, spelled_append, List.length_append]
        exact Nat.le_add_right _ _
      have hline : line = spelled (sooner ++ gap) ++ spelled (t :: later) := by
        rw [h.whole, List.append_nil, spelled_append (sooner ++ gap)]
      have hnext : t.start.offset + t.word.length = (spelled (sooner ++ gap ++ [t])).length := by
        rw [hplace, spelled_append _ [t], List.length_append, spelled_cons, spelled_nil, List.append_nil]
      have hgapped := hgap.unstyled_eq (fun b hb => h.ne_nil b
        (List.mem_append_left _ (List.mem_append_right _ hb))) hline
      have hothers : fragmentsFrom line (spelled (sooner ++ gap ++ [t])).length later =
          later.map fragmentOf :=
        ih .nil (by rwa [List.append_nil, ← List.append_cons])
      rw [fragmentsFrom, if_neg (by simp [hblank, hle]), hnext, hothers, hplace, hgapped, List.map_append,
        List.map_cons, fragmentOf_of_ne hblank]

end Walk

/-- A line that is cut into words gives one fragment for each of them, white space included. -/
theorem highlightLine_of_cut {line : String} (hne : line ≠ "") (hstuck : (cut line).stuck = none) :
    highlightLine line = (cut line).tokens.map fragmentOf := by
  have hcuts := cutsOff_of_cut hstuck
  have hsome : (cut line).tokens ≠ [] := fun hnil => hne (by
    rw [← String.toList_inj, hcuts.whole, hnil]
    rfl)
  have hwalk : fragmentsFrom line.toList (spelled []).length (cut line).tokens =
      (cut line).tokens.map fragmentOf :=
    fragmentsFrom_eq .nil hcuts
  rw [spelled_nil, List.length_nil] at hwalk
  dsimp only [highlightLine]
  rw [if_neg (by simp [hne, hstuck]), hwalk, if_neg (by simp [hsome])]

/-! ### Whole lines -/

/-- A line that is cut into words is shown by their fragments. -/
theorem shows_of_cutsOff {line : String} (h : CutsOff line.toList (cut line).tokens []) :
    Shows line ((cut line).tokens.map fragmentOf) where
  whole := by
    rw [shown_map_fragmentOf, h.whole, List.append_nil]
  ne_empty _ f hf hempty := by
    obtain ⟨t, ht, rfl⟩ := List.mem_map.mp hf
    rw [text_fragmentOf, Token.text, String.ofList_eq_empty_iff] at hempty
    exact h.ne_nil t ht hempty
  word _ t ht hblank := by
    obtain ⟨sooner, later, hts⟩ := List.append_of_mem ht
    refine ⟨sooner.map fragmentOf, fragmentOf t, later.map fragmentOf, ?_, ?_⟩
    · rw [hts, List.map_append, List.map_cons]
    · exact showsWord_fragmentOf (hts ▸ h) hblank
  between _ sooner f later hfs := by
    obtain ⟨before, others, hts, rfl, hothers⟩ := List.map_eq_append_iff.mp hfs
    obtain ⟨t, after, rfl, rfl, -⟩ := List.map_eq_cons_iff.mp hothers
    by_cases hblank : t.kind = .blank
    · have htaken := h.taken before t after hts
      rw [hblank] at htaken
      rw [fragmentOf_of_blank hblank, Token.text, String.toList_ofList]
      exact .inr ⟨rfl, (isSpace_of_split?_blank htaken).1⟩
    · have hm : t ∈ (cut line).tokens := by
        rw [hts]
        exact List.mem_append_right _ List.mem_cons_self
      exact .inl ⟨t, hm, hblank, showsWord_fragmentOf (hts ▸ h) hblank⟩

/-- A line is shown by itself if nothing on it must have a style. -/
theorem shows_plain {line : String} (h : line = "" ∨ (cut line).stuck.isSome) :
    Shows line [⟨"", line⟩] where
  whole := List.flatMap_singleton ..
  ne_empty hne f hf := by
    obtain rfl := List.mem_singleton.mp hf
    exact hne
  word hstuck t ht := by
    rcases h with rfl | h
    · cases ht
    · rw [hstuck] at h
      cases h
  between hstuck sooner f later hfs := by
    rcases h with rfl | h
    · have hf : f ∈ [Fragment.mk "" ""] := by
        rw [hfs]
        exact List.mem_append_right _ List.mem_cons_self
      obtain rfl := List.mem_singleton.mp hf
      exact .inr ⟨rfl, List.forall_mem_nil _⟩
    · rw [hstuck] at h
      cases h

/-- The fragments of a line show it. -/
theorem shows_highlightLine (line : String) : Shows line (highlightLine line) := by
  by_cases hplain : line = "" ∨ (cut line).stuck.isSome
  · have hline : highlightLine line = [⟨"", line⟩] := by
      dsimp only [highlightLine]
      rw [if_pos (by rwa [Bool.or_eq_true, String.isEmpty_iff])]
    rw [hline]
    exact shows_plain hplain
  · rw [not_or, Option.not_isSome_iff_eq_none] at hplain
    rw [highlightLine_of_cut hplain.1 hplain.2]
    exact shows_of_cutsOff (cutsOff_of_cut hplain.2)

/-- **Highlighting shows every line of a text.** It gives one row of fragments for each line; they make up
the line, none of them is empty unless the line is, and on a line that can be cut into words every word is a
fragment of its own, in the style of its group, with white space without style between them. -/
theorem highlight_shows (text : String) :
    AreLines (linesOf text) text ∧ List.Forall₂ Shows (linesOf text) (highlight text) := by
  refine ⟨linesOf_areLines text, ?_⟩
  rw [highlight, List.forall₂_map_right_iff, List.forall₂_same]
  exact fun line _ => shows_highlightLine line

/-- On the line of a declaration the name is a fragment of its own. -/
theorem highlight_shows_name :
    (cut "var n;").stuck = none ∧ ∃ t ∈ (cut "var n;").tokens, t.kind = .name ∧ t.kind ≠ .blank ∧
      ∃ sooner f later, highlightLine "var n;" = sooner ++ f :: later ∧ ShowsWord sooner f t := by
  have hlines : linesOf "var n;" = ["var n;"] := by decide
  have hstuck : (cut "var n;").stuck = none := by decide
  have hm : ⟨.name, ['n'], ⟨4, 1, 5⟩, ⟨5, 1, 6⟩⟩ ∈ (cut "var n;").tokens := by decide
  obtain ⟨-, hshows⟩ := highlight_shows "var n;"
  rw [highlight, hlines, List.map_singleton, List.forall₂_cons] at hshows
  have hblank : Terminal.name ≠ .blank := by decide
  exact ⟨hstuck, _, hm, rfl, hblank, hshows.1.word hstuck _ hm hblank⟩

/-- A line that cannot be cut into words has no style, and leaves the line before it as it is. -/
example : highlight "var n;\n#" =
    [[⟨"bold ansicyan", "var"⟩, ⟨"", " "⟩, ⟨"", "n"⟩, ⟨"", ";"⟩], [⟨"", "#"⟩]] := by
  decide

end Scriptlet.Session
