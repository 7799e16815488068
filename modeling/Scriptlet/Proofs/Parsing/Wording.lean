import Scriptlet.Proofs.Parsing.Insertion

/-!
# Texts with the words of a script

A text is read if all terminals cut it into words whose kinds are a sentence, and then the reader takes these
words. So a text need not be laid out as scripts are written down: it is enough that its words are of the same
kinds, whatever white space and comments stand between them.

## What is proved

* `isSentence_words`: the kinds of the words of a script are a sentence.
* `parse_of_occurrence`: a text with the words of a script, all on the first line, is read as the script.
* `exists_takes_of_cutInto`: the reader takes the words that all terminals cut a text into, if what they mean
  is accepted.
* `exists_reads_of_kinds`: a text with words of the kinds of those of a script is read.
-/

namespace Scriptlet.Parsing

open Scriptlet.Grammar Scriptlet.Lexical

/-- The kinds of the words of a script that may be written down are a sentence. -/
theorem isSentence_words {script : Script} (h : script.body.fits isPlainName = true) :
    IsSentence (script.body.words.map Word.kind) := by
  obtain ⟨-, hreads⟩ := means_program script (isStatement_of_fits (isRead_statements _) h)
  let ts : List Token := script.body.words.map fun w => ⟨w.kind, w.chars, .start, .start⟩
  have hwords : ts.map Token.toWord = script.body.words := by
    rw [List.map_map]
    exact List.map_id _
  have hline : ∀ t ∈ ts, t.start.line = 1 := by
    intro t ht
    obtain ⟨w, -, rfl⟩ := List.mem_map.mp ht
    rfl
  obtain ⟨d, htokens, -, -⟩ := hreads ts ⟨hwords, hline⟩
  refine ⟨d, ?_⟩
  rw [htokens, List.map_map]
  rfl

/-- **A text whose words are those of a script is read as the script**, if they all stand on the first
line. -/
theorem parse_of_occurrence {source : String} {ts : List Token} {script : Script}
    (hcut : cut source = ⟨ts, none⟩) (h : script.body.fits isPlainName = true)
    (hoccurs : Occurrence script.body.words (significant ts)) :
    parse source = .ok (script.onLine 1) := by
  obtain ⟨-, hreads⟩ := means_program script (isStatement_of_fits (isRead_statements _) h)
  obtain ⟨d, htokens, hprefers, hvalue⟩ := hreads _ hoccurs
  have hwords : words source = (ts, none) := by
    rw [words, hcut]
    rfl
  rw [parse_of_words hprefers hwords htokens, Sentence.script, hvalue]

variable {auto : Automaton} {table : ItemTable} {d : Sentence}

/-- **The reader takes the words that all terminals cut a text into**, if what they mean is accepted. -/
theorem exists_takes_of_cutInto (hobeys : auto.Obeys table) {stack : Stack} {c : Cursor} {ts : List Token}
    (hcut : CutInto .full c ts) (h : Accepts auto d stack (significant ts)) :
    ∃ stack' c', Takes auto stack c ts stack' c' ∧ c'.rest = [] ∧ Accepts auto d stack' [] := by
  induction hcut generalizing stack with
  | nil p => exact ⟨stack, _, .nil, rfl, h⟩
  | @cons c c' t ts hnext _ ih =>
    cases hi : t.kind.isIgnored with
    | true =>
      rw [significant_cons_of_ignored hi] at h
      obtain ⟨stack', e, htakes, hend, hacc⟩ := ih h
      have hnext' := Cursor.next?_of_full hnext (State.vocabulary_of_isIgnored (stack.state auto) hi)
      exact ⟨stack', e, .ignored hnext' hi htakes, hend, hacc⟩
    | false =>
      rw [significant_cons_of_not_ignored hi] at h
      obtain ⟨settled, n, hsettle, hrest⟩ := h.settle_word hobeys
      obtain ⟨stack', e, htakes, hend, hacc⟩ := ih hrest
      have hnext' := Cursor.next?_of_full hnext h.vocabulary
      exact ⟨stack', e, .word hnext' hi (hsettle stack.potential_lt) htakes, hend, hacc⟩

/-- A text that is cut into words whose kinds are a sentence is read. -/
theorem exists_reads_of_isSentence {source : String} {ts : List Token} (hcut : cut source = ⟨ts, none⟩)
    (hkinds : IsSentence (kinds ts)) : ∃ e, Reads source ts e := by
  obtain ⟨e, htokens, hprefers⟩ := hkinds.exists_prefersMethods
  have hacc := accepts_tokens ofGrammar_obeys hprefers
  rw [htokens] at hacc
  obtain ⟨stack, c, htakes, hend, hacc'⟩ :=
    exists_takes_of_cutInto ofGrammar_obeys (CutInto.of_cut hcut) hacc
  exact ⟨e, stack, c, htakes, hend, hacc'.settle_finish ofGrammar_obeys stack.potential_lt⟩

/-- **A text with words of the kinds of those of a script is read**, whatever stands between them. -/
theorem exists_reads_of_kinds {source : String} {ts : List Token} {script : Script}
    (hcut : cut source = ⟨ts, none⟩) (hfits : script.body.fits isPlainName = true)
    (hkinds : kinds ts = script.body.words.map Word.kind) : ∃ e, Reads source ts e :=
  exists_reads_of_isSentence hcut (hkinds ▸ isSentence_words hfits)

end Scriptlet.Parsing
