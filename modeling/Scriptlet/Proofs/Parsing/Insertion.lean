import Scriptlet.Proofs.Parsing.Lines
import Scriptlet.Proofs.Parsing.Rejection
import Scriptlet.Proofs.Parsing.RoundTrip
import Scriptlet.Proofs.Parsing.Spacing

/-!
# Layout does not matter

White space may be put into a script between any two of its words, those that are ignored included, at its
start and at its end. The text is then read as the same script, except that what is taken from words after
the white space lies further down, by the line feeds that were put in.

To say which word a line is taken from, the words that mean something are numbered, and the sentence is
derived from the numbered words: each of them stands on the line that is its number. What that sentence
means is the script with numbers of words for lines. The script of the text, and of the text with white
space put in anywhere, has in their place the lines that these words start on.

## What is proved

* `script_of_numbered`: a sentence means what its numbered words mean, with the lines of its words.
* `Reads.insert`: a text with white space put in is read as the same words, some of them further down.
* `parse_with_spaces`: how a text is read that white space is put into.
-/

namespace Scriptlet.Parsing

open Scriptlet.Grammar Scriptlet.Lexical Scriptlet.Text

/-! ### Numbers of words for lines -/

/-- The words with their numbers for lines. -/
def numbered (ts : List Token) : List Token :=
  ts.mapIdx fun n t => ⟨t.kind, t.word, ⟨t.start.offset, n, t.start.column⟩, t.stop⟩

/-- The number of a word. -/
def isNumberOf (ts : List Token) (n : Int) : Bool := decide (0 ≤ n ∧ n.toNat < ts.length)

/-- The line of the word with the given number, or `1` if there is none. -/
def lineOfWord (ts : List Token) (n : Int) : Int := (ts[n.toNat]?.map lineOf).getD 1

/-- The word whose number a numbered word carries, or one at the start of a text. -/
def wordOf (ts : List Token) (t : Token) : Token :=
  ts[t.start.line]?.getD ⟨t.kind, t.word, .start, .start⟩

theorem lineOf_wordOf (ts : List Token) (t : Token) :
    lineOf (wordOf ts t) = lineOfWord ts (lineOf t) := by
  have hnumber : (lineOf t).toNat = t.start.line := rfl
  rw [lineOfWord, hnumber, wordOf]
  cases ts[t.start.line]? <;> rfl

theorem kinds_numbered (ts : List Token) : (numbered ts).map Token.kind = ts.map Token.kind := by
  refine List.ext_getElem? fun n => ?_
  rw [List.getElem?_map, List.getElem?_map, numbered, List.getElem?_mapIdx, Option.map_map]
  rfl

theorem isNumberOf_numbered {ts : List Token} :
    ∀ t ∈ numbered ts, isNumberOf ts (lineOf t) = true := by
  intro t ht
  obtain ⟨n, hn, rfl⟩ := List.mem_mapIdx.mp ht
  exact decide_eq_true ⟨Int.natCast_nonneg n, hn⟩

/-- The numbered words in the places of the words that they carry the numbers of are these words. -/
theorem map_atPlaceOf_numbered {ts us : List Token}
    (h : us.map Token.toWord = ts.map Token.toWord) :
    ((numbered ts).map fun t => Token.atPlaceOf t (wordOf us t)) = us := by
  refine List.ext_getElem? fun n => ?_
  have hn : us[n]?.map Token.toWord = ts[n]?.map Token.toWord := by
    rw [← List.getElem?_map, ← List.getElem?_map, h]
  rw [List.getElem?_map, numbered, List.getElem?_mapIdx]
  cases ht : ts[n]? with
  | none =>
    rw [ht, Option.map_none, Option.map_eq_none_iff] at hn
    rw [hn]
    rfl
  | some t =>
    rw [ht, Option.map_some, Option.map_eq_some_iff] at hn
    obtain ⟨u, hu, hword⟩ := hn
    obtain ⟨kind, word, start, stop⟩ := u
    obtain ⟨rfl, rfl⟩ : kind = t.kind ∧ word = t.word := Word.mk.inj hword
    rw [Option.map_some, Option.map_some, hu, wordOf, hu]
    rfl

variable {d e : Sentence} {ts us : List Token}

/-- **A sentence means what its numbered words mean, with the lines of its words.** -/
theorem script_of_numbered (hd : d.PrefersMethods) (he : e.PrefersMethods)
    (hdt : d.tokens = numbered ts) (h : e.tokens.map Token.toWord = ts.map Token.toWord) :
    e.script = d.script.mapLines (lineOfWord e.tokens) := by
  have htokens : e.tokens = Derivation.tokens (d.place (wordOf e.tokens)) := by
    rw [Derivation.tokens_place, hdt, map_atPlaceOf_numbered h]
  have hmoved : e = d.place (wordOf e.tokens) :=
    eq_of_tokens (d.prefersMethods_place hd) he htokens
  have hnone : d.tokens = [] → lineOfWord e.tokens 1 = 1 := fun hnil => by
    rw [hdt, numbered, List.mapIdx_eq_nil_iff] at hnil
    rw [hnil, List.map_nil, List.map_eq_nil_iff] at h
    rw [h]
    rfl
  exact (congrArg Sentence.script hmoved).trans
    (Sentence.script_place (lineOf_wordOf e.tokens) d hnone)

/-- A script derived from numbered words has numbers of words for lines, if there are any words. -/
theorem isNumberOf_script (hdt : d.tokens = numbered ts) (hts : ts ≠ []) :
    isNumberOf ts d.script.body.line = true ∧
      d.script.body.all (Expr.isOn (isNumberOf ts)) = true := by
  refine d.placed_value (fun hnil => absurd hnil ?_) fun t ht => isNumberOf_numbered t (hdt ▸ ht)
  rw [hdt, numbered, List.mapIdx_eq_nil_iff.not]
  exact hts

/-! ### White space put into a text -/

/-- The reader takes the words, those that are ignored included, up to the end of a text and answers with a
sentence. -/
def Reads (source : String) (ts : List Token) (e : Sentence) : Prop :=
  ∃ stack c, Takes .ofGrammar [] (Cursor.ofString source) ts stack c ∧ c.rest = [] ∧
    settle .ofGrammar .finish (settleFuel stack) stack = .done e

/-- How many lines the word with the given number moves down when white space is put in before it. -/
def addedLines (before after : List Token) (gap : List Char) (n : Int) : Int :=
  if (significant before).length ≤ n.toNat ∧ n.toNat < (significant (before ++ after)).length then
    gap.count '\n'
  else 0

theorem Reads.parse_eq {source : String} (h : Reads source ts e) : parse source = .ok e.script := by
  obtain ⟨stack, c, htakes, hend, hsettle⟩ := h
  refine parse_eq_ok_iff.mpr ⟨e, ?_, rfl⟩
  rw [parseSentence, parseWith, htakes.parseFrom_eq hend hsettle (Nat.lt_succ_self _)]

theorem exists_reads_of_parse {source : String} {script : Script} (h : parse source = .ok script) :
    ∃ ts e, Reads source ts e ∧ e.script = script := by
  obtain ⟨e, he, hscript⟩ := parse_eq_ok_iff.mp h
  obtain ⟨ts, stack, c, htakes, hstops⟩ := exists_takes_of_parseSentence source
  rw [he] at hstops
  cases hstops with
  | sentence hrest hsettle => exact ⟨ts, e, ⟨stack, c, htakes, hrest, hsettle⟩, hscript⟩

/-- **The words and the sentence of a text are determined by it.** -/
theorem Reads.unique {source : String} {e' : Sentence} (h : Reads source ts e)
    (h' : Reads source us e') : us = ts ∧ e' = e := by
  obtain ⟨stack, c, htakes, hend, hsettle⟩ := h
  obtain ⟨stack', c', htakes', hend', hsettle'⟩ := h'
  obtain ⟨rfl, rfl⟩ := htakes'.unique htakes hend' hend
  exact ⟨rfl, Answer.done.inj (hsettle'.symm.trans hsettle)⟩

/-- The words are the whole text. -/
theorem Reads.toList_eq {source : String} (h : Reads source ts e) : source.toList = spelled ts := by
  obtain ⟨stack, c, htakes, hend, -⟩ := h
  have htext : source.toList = spelled ts ++ c.rest := htakes.rest
  rw [htext, hend, List.append_nil]

/-- The sentence that a text is read as is the one of its words that prefers methods. -/
theorem Reads.sentence {source : String} (h : Reads source ts e) :
    e.tokens = significant ts ∧ e.PrefersMethods := by
  obtain ⟨stack, c, htakes, -, hsettle⟩ := h
  have hacc := accepts_of_settle_done hsettle
  have htokens : e.tokens = significant ts := by
    rw [hacc.tokens ofGrammar_obeys (htakes.valid .nil).1, (htakes.valid .nil).2, List.append_nil]
    rfl
  -- the preferred derivation of the same words is accepted too, so it is this one
  obtain ⟨e', he', hprefers⟩ := e.exists_prefersMethods
  have hacc' := accepts_tokens ofGrammar_obeys hprefers
  rw [he', htokens, ← List.append_nil (significant ts)] at hacc'
  obtain rfl := (htakes.accepts ofGrammar_obeys hacc').unique hacc
  exact ⟨htokens, hprefers⟩

/-- **A text with white space put in between two words is read as the same words**, with those after the
white space further down. -/
theorem Reads.insert {source : String} {before after : List Token}
    (h : Reads source (before ++ after) e) {gap : List Char} (hgap : Spaces gap) :
    ∃ ts' us' e', Reads (String.ofList (spelled before ++ gap ++ spelled after)) ts' e' ∧
      significant ts' = significant before ++ us' ∧
      List.Forall₂ (Token.Lowered (gap.count '\n')) (significant after) us' := by
  obtain ⟨stack, c, htakes, hend, hsettle⟩ := h
  obtain ⟨middle, d, hbefore, hafter⟩ := htakes.split
  obtain ⟨ts', us', stack', p, htakes', hshape, hwords, hlowered⟩ := hbefore.insert hafter hend hgap
  obtain ⟨e', hsettle'⟩ := settle_done_of_shape hshape hsettle
  rw [settleFuel_of_shape hshape] at hsettle'
  refine ⟨ts', us', e', ⟨stack', ⟨p, []⟩, ?_, rfl, hsettle'⟩, hwords, hlowered⟩
  rw [hafter.rest, hend, List.append_nil, ← List.append_assoc] at htakes'
  rw [Cursor.ofString, String.toList_ofList]
  exact htakes'

/-- The lines of words, some of which have moved down. -/
theorem lineOfWord_lowered {before after : List Token} {gap : List Char}
    (h : List.Forall₂ (Token.Lowered (gap.count '\n')) (significant after) us) (n : Int) :
    lineOfWord (significant before ++ us) n =
      lineOfWord (significant (before ++ after)) n + addedLines before after gap n := by
  have hlength := h.length_eq
  rw [addedLines, lineOfWord, lineOfWord, significant_append, List.getElem?_append,
    List.getElem?_append, List.length_append]
  by_cases hbefore : n.toNat < (significant before).length
  · rw [if_pos hbefore, if_pos hbefore, if_neg (by omega), Int.add_zero]
  · rw [if_neg hbefore, if_neg hbefore]
    by_cases hafter : n.toNat < (significant before).length + (significant after).length
    · have hn : n.toNat - (significant before).length < (significant after).length := by omega
      have hlowered := (List.forall₂_iff_get.mp h).2 _ hn (hlength ▸ hn)
      rw [if_pos (by omega), List.getElem?_eq_getElem hn, List.getElem?_eq_getElem (hlength ▸ hn)]
      exact congrArg Int.ofNat hlowered.2
    · rw [if_neg (by omega), List.getElem?_eq_none (by omega), List.getElem?_eq_none (by omega)]
      rfl

theorem map_toWord_lowered {k : Nat} (h : List.Forall₂ (Token.Lowered k) ts us) :
    us.map Token.toWord = ts.map Token.toWord := by
  induction h with
  | nil => rfl
  | cons hword _ ih => rw [List.map_cons, List.map_cons, hword.1, ih]

/-- **Layout does not matter.** A text that is accepted is a row of words that it determines, and what it
is read as is derived from those of them that mean something: each line in it is the line of one of them.
White space may be put in between any two words, before the first and after the last. The text is read as
the same script then, in which lines that are those of words after the white space have grown by the number
of line feeds that were put in. -/
theorem parse_with_spaces {source : String} {script : Script} (h : parse source = .ok script) :
    ∃ (ts : List Token) (e d : Sentence), Reads source ts e ∧
      (∀ us e', Reads source us e' → us = ts) ∧ source.toList = spelled ts ∧
      d.PrefersMethods ∧ d.tokens = numbered (significant ts) ∧
      (significant ts ≠ [] → isNumberOf (significant ts) d.script.body.line = true ∧
        d.script.body.all (Expr.isOn (isNumberOf (significant ts))) = true) ∧
      script = d.script.mapLines (lineOfWord (significant ts)) ∧
      ∀ before after gap, ts = before ++ after → Spaces gap →
        parse (String.ofList (spelled before ++ gap ++ spelled after)) =
          .ok (d.script.mapLines fun n =>
            lineOfWord (significant ts) n + addedLines before after gap n) := by
  obtain ⟨ts, e, hreads, rfl⟩ := exists_reads_of_parse h
  obtain ⟨htokens, hprefers⟩ := hreads.sentence
  have hsentence : IsSentence ((numbered (significant ts)).map Token.kind) :=
    ⟨e, by rw [kinds_numbered, htokens]⟩
  obtain ⟨d, hdt, hd⟩ := hsentence.exists_prefersMethods
  refine ⟨ts, e, d, hreads, fun us e' h => (hreads.unique h).1, hreads.toList_eq, hd, hdt,
    isNumberOf_script hdt, ?_, ?_⟩
  · rw [← htokens]
    exact script_of_numbered hd hprefers hdt (by rw [htokens])
  · rintro before after gap rfl hgap
    obtain ⟨ts', us', e', hreads', hwords, hlowered⟩ := hreads.insert hgap
    obtain ⟨htokens', hprefers'⟩ := hreads'.sentence
    rw [hwords] at htokens'
    have hscript := script_of_numbered hd hprefers' hdt (by
      rw [htokens', significant_append, List.map_append, List.map_append,
        map_toWord_lowered hlowered])
    rw [hreads'.parse_eq, hscript, htokens', funext (lineOfWord_lowered hlowered)]

/-- The source text of a script with a blank and a line feed at its start. -/
theorem parse_with_spaces_specimen :
    parse specimen.text = .ok (specimen.onLine 1) ∧
      ∃ (ts : List Token) (e d : Sentence), Reads specimen.text ts e ∧
        d.tokens = numbered (significant ts) ∧
        specimen.onLine 1 = d.script.mapLines (lineOfWord (significant ts)) ∧
        ts = [] ++ ts ∧ Spaces [' ', '\n'] ∧
        parse (String.ofList (' ' :: '\n' :: spelled ts)) =
          .ok (d.script.mapLines fun n =>
            lineOfWord (significant ts) n + addedLines [] ts [' ', '\n'] n) := by
  have hparse : parse specimen.text = .ok (specimen.onLine 1) := parse_text (by decide)
  have hgap : Spaces [' ', '\n'] := List.all_eq_true.mp rfl
  obtain ⟨ts, e, d, hreads, -, -, -, hdt, -, hscript, hinsert⟩ := parse_with_spaces hparse
  have hspaced := hinsert [] ts _ (List.nil_append ts).symm hgap
  rw [spelled_nil, List.nil_append, List.cons_append, List.cons_append, List.nil_append] at hspaced
  exact ⟨hparse, ts, e, d, hreads, hdt, hscript, (List.nil_append ts).symm, hgap, hspaced⟩

end Scriptlet.Parsing
