import Scriptlet.Proofs.Lexical.Indentation
import Scriptlet.Proofs.Parsing.Wording
import Scriptlet.Proofs.Session.Completeness
import Scriptlet.Session.Prompt

/-!
# Typing a script

A script of several lines is typed with the enter key for the end of each line. Every line but the first is
indented then, and the enter key submits what has been typed so far if no bracket is open in it. Where a line
ends in white space, the prompt finds the same brackets in the start of the script, cut off there and
indented, as the reader finds before it in the whole script. So if one is open, the script goes on in another
line.

Where a line ends in a comment between marks, what has been typed so far has no comment at its end, as that is
not closed. The prompt takes it for other words, and may find brackets in it that are none.

## What is proved

* `Takes.exists_readInto`: the start of a text, indented, has the brackets that it has in the whole text.
* `Prompt.type_lines`: keys at a prompt that do not submit anything.
* `openDepth_of_lineEnds`: the brackets open in what has been typed up to the end of a line.
* `typed_as_one_entry`: a script that is typed is one entry, unless the prompt finds no open bracket where a
  line ends in a comment.
* `divided_submitted_twice`: a script for which it does not.
-/

namespace Scriptlet.Parsing

open Scriptlet.Grammar Scriptlet.Lexical Scriptlet.Text

/-! ### The start of a text -/

/-- A word of a text is found again, with its kind, in the indented text or the start of it. -/
theorem next?_indent {v : Vocabulary} (hv : ∀ u : Terminal, u.isIgnored → v u) {c d : Cursor} {t : Token}
    {rest more cs : List Char} (hnext : c.next? v = some (t, d)) (hd : d.rest = rest ++ more)
    (hi : Indented (t.word ++ rest) cs) (p : Position) :
    ∃ t' d', Cursor.next? v ⟨p, cs⟩ = some (t', d') ∧ t'.kind = t.kind ∧ Indented rest d'.rest := by
  obtain ⟨word, rest', rfl, hword, hrest⟩ := hi.exists_append
  have hsplit := Cursor.split?_of_next? hnext
  rw [← (Cursor.next?_append hnext).1, hd] at hsplit
  have hfound := Vocabulary.split?_indent hv hsplit hword hrest
  exact ⟨_, _, Cursor.next?_of_split? hfound p, rfl, hrest⟩

/-- **The start of a text, indented, has the same brackets** as in the whole text. It may end in a word of
which there is only a part, if that part has no brackets of its own. -/
theorem Takes.exists_readInto {auto : Automaton} {s s₁ : Stack} {c c₁ : Cursor} {ts : List Token}
    (h : Takes auto s c ts s₁ c₁) {line more cs : List Char} (hline : Bland line)
    (hrest : c₁.rest = line ++ more) (hi : Indented (spelled ts ++ line) cs) (p : Position) :
    ∃ us, ReadInto ⟨p, cs⟩ us ∧ brackets us = brackets ts := by
  induction h generalizing cs p with
  | nil => exact exists_readInto_of_isBland (hi.bland hline) p
  | @ignored s s₁ c d c₁ t ts hnext _ htakes ih
  | @word s s₁ settled c d c₁ t ts n hnext _ _ htakes ih =>
    have hd : d.rest = spelled ts ++ line ++ more := by rw [htakes.rest, hrest, List.append_assoc]
    rw [spelled_cons, List.append_assoc] at hi
    obtain ⟨t', d', hnext', hkind, hrest'⟩ := next?_indent
      (fun _ => State.vocabulary_of_isIgnored _) hnext hd hi p
    obtain ⟨us, hus, hbrackets⟩ := ih hrest hrest' d'.position
    have hsame : brackets (t' :: us) = brackets (t :: us) := by
      simp only [brackets, List.map_cons, hkind]
    exact ⟨t' :: us, .cons (fun _ => State.vocabulary_of_isIgnored _) hnext' hus,
      hsame.trans (brackets_cons_congr t hbrackets)⟩

/-! ### Where lines end -/

/-- In words that a text is read as, a line ends after the given start of a word, which stands behind the
given words. -/
def LineEnds (ts before : List Token) (t : Token) (line : List Char) : Prop :=
  ∃ after more, ts = before ++ t :: after ∧ t.word = line ++ '\n' :: more

theorem lineEnds_cons {u t : Token} {ts before : List Token} {line : List Char}
    (h : LineEnds ts before t line) : LineEnds (u :: ts) (u :: before) t line := by
  obtain ⟨after, more, rfl, hword⟩ := h
  exact ⟨after, more, rfl, hword⟩

/-- The lines of a text end in its words. -/
theorem exists_lineEnds {ts : List Token} {cs ds : List Char} (h : spelled ts = cs ++ '\n' :: ds) :
    ∃ before t line, LineEnds ts before t line ∧ cs = spelled before ++ line := by
  induction ts generalizing cs with
  | nil =>
    have hnil := congrArg List.length h
    simp at hnil
  | cons t ts ih =>
    rw [spelled_cons] at h
    rcases List.append_eq_append_iff.mp h with ⟨es, rfl, hes⟩ | ⟨fs, hword, hfs⟩
    · obtain ⟨before, u, line, hends, rfl⟩ := ih hes
      exact ⟨t :: before, u, line, lineEnds_cons hends, by rw [spelled_cons, List.append_assoc]⟩
    · cases fs with
      | nil =>
        have hfeed : spelled ts = [] ++ '\n' :: ds := hfs.symm
        obtain ⟨before, u, line, hends, hnil⟩ := ih hfeed
        refine ⟨t :: before, u, line, lineEnds_cons hends, ?_⟩
        rw [spelled_cons, List.append_assoc, ← hnil, hword, List.append_nil, List.append_nil]
      | cons f fs =>
        obtain ⟨rfl, -⟩ := List.cons.inj hfs
        exact ⟨[], t, cs, ⟨ts, fs, rfl, hword⟩, rfl⟩

/-- To look at every place where a line ends, it is enough to number words and characters. -/
theorem forall_lineEnds {ts : List Token} {P : List Token → Token → List Char → Prop}
    (h : ∀ n ∈ List.range ts.length, ∀ t ∈ ts[n]?, ∀ i ∈ List.range t.word.length,
      t.word[i]? = some '\n' → P (ts.take n) t (t.word.take i)) :
    ∀ before t line, LineEnds ts before t line → P before t line := by
  rintro before t line ⟨after, more, rfl, hword⟩
  have hn : before.length ∈ List.range (before ++ t :: after).length := by
    rw [List.mem_range, List.length_append, List.length_cons]
    omega
  have ht : t ∈ (before ++ t :: after)[before.length]? := by simp
  have hi : line.length ∈ List.range t.word.length := by
    rw [List.mem_range, hword, List.length_append, List.length_cons]
    omega
  have hfeed : t.word[line.length]? = some '\n' := by rw [hword]; simp
  have hthere := h before.length hn t ht line.length hi hfeed
  rwa [List.take_left, hword, List.take_left] at hthere

end Scriptlet.Parsing

namespace Scriptlet.Session

open Scriptlet.Grammar (Sentence kinds)
open Scriptlet.Lexical Scriptlet.Parsing

/-! ### What is typed -/

/-- What stands at the prompt after the key for another character of a text, if nothing is submitted. -/
def typeChar (typed : List Char) (c : Char) : List Char :=
  if c = '\n' then typed ++ '\n' :: List.replicate (indentAfter (String.ofList typed)) ' '
  else typed ++ [c]

/-- A text as it stands at the prompt when it has been typed, if nothing is submitted on the way. -/
def asTyped (cs : List Char) : String := String.ofList (cs.foldl typeChar [])

/-- The key for a character of a text. -/
def Key.forChar (c : Char) : Key := if c = '\n' then .enter else .character c

/-- The keys for a text: the enter key ends each line. -/
def keysFor (source : String) : List Key := source.toList.map Key.forChar ++ [.enter]

theorem indented_typeChar {cs typed : List Char} (h : Indented cs typed) (c : Char) :
    Indented (cs ++ [c]) (typeChar typed c) := by
  unfold typeChar
  split
  · next hc =>
    subst hc
    have hgap : Spaces (List.replicate (indentAfter (String.ofList typed)) ' ') := by
      intro d hd
      rw [List.eq_of_mem_replicate hd]
      rfl
    have hfeed := Indented.feed hgap .nil
    rw [List.append_nil] at hfeed
    exact h.append hfeed
  · next hc => exact h.append (.char hc .nil)

/-- What stands at the prompt is the indented text. -/
theorem indented_asTyped (cs : List Char) : Indented cs (asTyped cs).toList := by
  have hfold : ∀ ds cs typed, Indented cs typed → Indented (cs ++ ds) (ds.foldl typeChar typed) := by
    intro ds
    induction ds with
    | nil =>
      intro cs typed h
      rw [List.append_nil]
      exact h
    | cons d ds ih =>
      intro cs typed h
      rw [List.append_cons]
      exact ih _ _ (indented_typeChar h d)
  rw [asTyped, String.toList_ofList]
  exact hfold cs [] [] .nil

namespace Prompt

variable {depth : Nat} {p : Prompt}

theorem press_forChar (hended : p.ended = false) {c : Char}
    (hopen : c = '\n' → submits (String.ofList p.typed) = false) :
    p.press depth (Key.forChar c) = { p with typed := typeChar p.typed c } := by
  unfold press Key.forChar typeChar
  by_cases hc : c = '\n'
  · simp only [hended, if_pos hc, hopen hc, Bool.false_eq_true, if_false]
  · simp only [hended, if_neg hc, Bool.false_eq_true, if_false]

/-- **Keys that do not submit anything** leave at the prompt what is typed. -/
theorem type_lines (depth : Nat) (hended : p.ended = false) {cs : List Char}
    (hopen : ∀ line more, cs = line ++ '\n' :: more →
      submits (String.ofList (line.foldl typeChar p.typed)) = false) :
    p.type depth (cs.map Key.forChar) = { p with typed := cs.foldl typeChar p.typed } := by
  induction cs generalizing p with
  | nil => rfl
  | cons c cs ih =>
    have hpress : p.press depth (Key.forChar c) = { p with typed := typeChar p.typed c } :=
      press_forChar hended fun hc => hopen [] cs (by rw [hc, List.nil_append])
    rw [List.map_cons, type, List.foldl_cons, hpress]
    exact ih (p := { p with typed := typeChar p.typed c }) hended
      fun line more hcs => hopen (c :: line) more (by rw [hcs, List.cons_append])

/-- A text that can be typed to its end and is complete then is one entry. -/
theorem type_keysFor (depth : Nat) (hended : p.ended = false) (htyped : p.typed = []) {source : String}
    (hopen : ∀ line more, source.toList = line ++ '\n' :: more → submits (asTyped line) = false)
    (hcomplete : submits (asTyped source.toList) = true) :
    p.type depth (keysFor source) =
      { p with machine := submit depth (asTyped source.toList) p.machine, typed := [] } := by
  have hlines : p.type depth (source.toList.map Key.forChar) =
      { p with typed := source.toList.foldl typeChar p.typed } :=
    type_lines depth hended fun line more hline => htyped ▸ hopen line more hline
  unfold type at hlines ⊢
  rw [keysFor, List.foldl_append, hlines, htyped, List.foldl_cons, List.foldl_nil, press]
  simp only [hended, Bool.false_eq_true, if_false]
  exact if_pos hcomplete

end Prompt

/-! ### Scripts -/

/-- How many brackets words leave open depends on their brackets alone. -/
theorem depthAfter_congr {ts us : List Token} (h : brackets us = brackets ts) :
    depthAfter 0 us = depthAfter 0 ts := by
  rw [depthAfter_eq_foldlM, depthAfter_eq_foldlM, h]

/-- A text that can be read has the brackets open that are so among the words read. -/
theorem openDepth_of_readInto {text : String} {us : List Token}
    (h : ReadInto (Cursor.ofString text) us) : openDepth text = depthAfter 0 us := by
  obtain ⟨vs, hcut, hbrackets⟩ := h.exists_cutInto
  rw [openDepth, hcut.cut_eq]
  exact depthAfter_congr hbrackets

/-- What is typed of a text that is read, up to somewhere in a word, has the brackets open that are so in the
text before the word. -/
theorem openDepth_asTyped {source : String} {before after : List Token} {e : Sentence}
    (h : Reads source (before ++ after) e) {line more : List Char} (hline : Bland line)
    (hafter : spelled after = line ++ more) :
    openDepth (asTyped (spelled before ++ line)) = depthAfter 0 (significant before) := by
  obtain ⟨stack, c, htakes, hend, -⟩ := h
  obtain ⟨middle, d, hbefore, hrest⟩ := htakes.split
  have hd : d.rest = line ++ more := by
    rw [hrest.rest, hend, List.append_nil, hafter]
  obtain ⟨us, hus, hbrackets⟩ :=
    hbefore.exists_readInto hline hd (indented_asTyped (spelled before ++ line)) .start
  have hread : ReadInto (Cursor.ofString (asTyped (spelled before ++ line))) us := hus
  have hsame : brackets us = brackets (significant before) :=
    hbrackets.trans (brackets_significant before).symm
  exact (openDepth_of_readInto hread).trans (depthAfter_congr hsame)

/-- Where a line ends in a word that is no comment between marks, there is only white space before that in
the word. -/
theorem spaces_of_lineEnds {source : String} {ts before : List Token} {t : Token} {e : Sentence}
    {line : List Char} (h : Reads source ts e) (hends : LineEnds ts before t line)
    (hkind : t.kind ≠ .blockComment) : Spaces line := by
  obtain ⟨after, more, rfl, hword⟩ := hends
  have hspaces : ∀ {v : Vocabulary} {c d : Cursor}, c.next? v = some (t, d) → Spaces line := by
    intro v c d hnext
    have hstands := (Cursor.stands_of_next? hnext).word
    have hfeed : '\n' ∈ t.word := by
      rw [hword]
      exact List.mem_append_right _ List.mem_cons_self
    rw [(Terminal.eq_of_feed hstands hfeed).resolve_right hkind] at hstands
    intro c hc
    refine (spaces_of_split?_blank hstands).1 c ?_
    rw [hword]
    exact List.mem_append_left _ hc
  obtain ⟨stack, c, htakes, -, -⟩ := h
  obtain ⟨middle, d, -, hrest⟩ := htakes.split
  cases hrest with
  | ignored hnext => exact hspaces hnext
  | word hnext => exact hspaces hnext

/-- The enter key submits what starts with no slash and leaves no bracket open. -/
theorem submits_asTyped {cs : List Char} {k : Nat} (hslash : cs.head? ≠ some '/')
    (hopen : openDepth (asTyped cs) = some k) :
    Prompt.submits (asTyped cs) = decide (k = 0) := by
  have hhead : (asTyped cs).toList.head? ≠ some '/' := (indented_asTyped cs).head? ▸ hslash
  rw [Prompt.submits, decide_eq_false hhead, Bool.false_or, isComplete, hopen]
  rfl

/-- Where a line ends, some bracket is open among the words before. -/
def OpenAtLineEnds (ts : List Token) : Prop :=
  ∀ before t line, LineEnds ts before t line → ∃ k, depthAfter 0 (significant before) = some (k + 1)

/-- What has been typed up to the end of a line has the brackets open that are so among the words before. If
the line ends in a comment between marks, that depends on what is in the comment. -/
theorem openDepth_of_lineEnds {source : String} {ts before : List Token} {t : Token} {e : Sentence}
    {line : List Char} (h : Reads source ts e) (hends : LineEnds ts before t line)
    (hcomment : t.kind = .blockComment → Bland line) :
    openDepth (asTyped (spelled before ++ line)) = depthAfter 0 (significant before) := by
  have hbland : Bland line := by
    by_cases hkind : t.kind = .blockComment
    · exact hcomment hkind
    · exact (spaces_of_lineEnds h hends hkind).bland
  obtain ⟨after, more, rfl, hword⟩ := hends
  have hafter : spelled (t :: after) = line ++ ('\n' :: more ++ spelled after) := by
    rw [spelled_cons, hword, List.append_assoc]
  exact openDepth_asTyped h hbland hafter

/-- What has been typed in the end has no bracket open. -/
theorem openDepth_of_reads {source : String} {ts : List Token} {e : Sentence} (h : Reads source ts e) :
    openDepth (asTyped source.toList) = some 0 := by
  have hall : Reads source (ts ++ []) e := by rwa [List.append_nil]
  have hdepth : openDepth (asTyped (spelled ts ++ [])) = depthAfter 0 (significant ts) :=
    openDepth_asTyped hall (List.forall_mem_nil _) (List.append_nil []).symm
  rw [List.append_nil, ← h.toList_eq] at hdepth
  rw [hdepth, ← h.sentence.1]
  exact depthAfter_derivation e 0

/-- If what has been typed has a bracket open at the end of every line, all of it is one entry. -/
theorem type_of_openDepth {source : String} {ts : List Token} {e : Sentence} (h : Reads source ts e)
    (hslash : source.toList.head? ≠ some '/')
    (hopen : ∀ before t line, LineEnds ts before t line →
      ∃ k, openDepth (asTyped (spelled before ++ line)) = some (k + 1))
    (depth : Nat) {p : Prompt} (hended : p.ended = false) (htyped : p.typed = []) :
    p.type depth (keysFor source) =
      { p with machine := submit depth (asTyped source.toList) p.machine, typed := [] } := by
  refine Prompt.type_keysFor depth hended htyped (fun line more hline => ?_) ?_
  · have hslash' : line.head? ≠ some '/' := by
      intro hhead
      rw [hline, List.head?_append, hhead] at hslash
      exact hslash rfl
    rw [h.toList_eq] at hline
    obtain ⟨before, t, start, hends, rfl⟩ := exists_lineEnds hline
    obtain ⟨k, hk⟩ := hopen before t start hends
    rw [submits_asTyped hslash' hk]
    rfl
  · rw [submits_asTyped hslash (openDepth_of_reads h)]
    rfl

/-- **A script of several lines can be typed.** A text that is accepted is a row of words that it determines.
If a bracket is open among the words before wherever a line ends, then what has been typed up to there has an
open bracket as well, so that another line starts; and what has been typed in the end has none. The keys for
the text submit it as one entry.

A line that ends in a comment between marks is an exception. What has been typed has an open bracket there
too, if words that are no brackets can start with every character of the comment up to there. Otherwise it may
have none, and that it has one is a condition. -/
theorem typed_as_one_entry {source : String} {script : Script} (h : parse source = .ok script)
    (hslash : source.toList.head? ≠ some '/') :
    ∃ (ts : List Token) (e : Sentence), Reads source ts e ∧ (∀ us e', Reads source us e' → us = ts) ∧
      source.toList = spelled ts ∧ openDepth (asTyped source.toList) = some 0 ∧
      (OpenAtLineEnds ts →
        (∀ before t line, LineEnds ts before t line → (t.kind = .blockComment → Bland line) →
          ∃ k, openDepth (asTyped (spelled before ++ line)) = some (k + 1)) ∧
        ((∀ before t line, LineEnds ts before t line → t.kind = .blockComment → ¬ Bland line →
            ∃ k, openDepth (asTyped (spelled before ++ line)) = some (k + 1)) →
          ∀ (depth : Nat) (p : Prompt), p.ended = false → p.typed = [] →
            p.type depth (keysFor source) =
              { p with machine := submit depth (asTyped source.toList) p.machine, typed := [] })) := by
  obtain ⟨ts, e, hreads, -⟩ := exists_reads_of_parse h
  refine ⟨ts, e, hreads, fun us e' h' => (hreads.unique h').1, hreads.toList_eq,
    openDepth_of_reads hreads, fun hopen => ?_⟩
  have hbland : ∀ before t line, LineEnds ts before t line → (t.kind = .blockComment → Bland line) →
      ∃ k, openDepth (asTyped (spelled before ++ line)) = some (k + 1) := by
    intro before t line hends hcomment
    obtain ⟨k, hk⟩ := hopen before t line hends
    exact ⟨k, (openDepth_of_lineEnds hreads hends hcomment).trans hk⟩
  refine ⟨hbland, fun hcomments depth p hended htyped => ?_⟩
  refine type_of_openDepth hreads hslash (fun before t line hends => ?_) depth hended htyped
  by_cases hcomment : t.kind = .blockComment → Bland line
  · exact hbland before t line hends hcomment
  · obtain ⟨hkind, hline⟩ := Classical.not_imp.mp hcomment
    exact hcomments before t line hends hkind hline

theorem exists_succ {o : Option Nat} (h : 0 < o.getD 0) : ∃ k, o = some (k + 1) := by
  cases o with
  | none => exact absurd h (Nat.lt_irrefl 0)
  | some n => exact ⟨n - 1, congrArg some (Nat.sub_add_cancel h).symm⟩

/-- Whether a bracket is open wherever a line ends can be computed. -/
theorem openAtLineEnds_of_forall {ts : List Token}
    (h : ∀ n ∈ List.range ts.length, ∀ t ∈ ts[n]?, ∀ i ∈ List.range t.word.length,
      t.word[i]? = some '\n' → 0 < (depthAfter 0 (significant (ts.take n))).getD 0) :
    OpenAtLineEnds ts := by
  intro before t line hends
  exact exists_succ (forall_lineEnds (P := fun before _ _ =>
    0 < (depthAfter 0 (significant before)).getD 0) h before t line hends)

/-- A function with comments in it, the second one with a line end and closing brackets. -/
def commented : String := "function f(a)\x7b // )\n  /* (\n )\x7d */ return\n    a;\n\x7d"

/-- The function without comments. -/
def uncommented : Script := ⟨⟨[.function "f" ["a"] true ⟨[.returns (.identifier "a" 1) 1], 1⟩ 1], 1⟩⟩

/-- It is one entry. -/
theorem typed_as_one_entry_commented :
    (∃ script, parse commented = .ok script) ∧ commented.toList.head? ≠ some '/' ∧
      (∃ ts e, Reads commented ts e ∧ OpenAtLineEnds ts ∧
        ∀ before t line, LineEnds ts before t line →
          ∃ k, openDepth (asTyped (spelled before ++ line)) = some (k + 1)) ∧
      ∀ depth m, (Prompt.mk m [] false).type depth (keysFor commented) =
        ⟨submit depth (asTyped commented.toList) m, [], false⟩ := by
  have hcut : cut commented = ⟨(cut commented).tokens, none⟩ := by decide +kernel
  have hfits : uncommented.body.fits isPlainName = true := by decide
  have hkinds : kinds (cut commented).tokens = uncommented.body.words.map Word.kind := by
    decide +kernel
  obtain ⟨e, h⟩ := exists_reads_of_kinds hcut hfits hkinds
  have hslash : commented.toList.head? ≠ some '/' := by decide
  have hopen : OpenAtLineEnds (cut commented).tokens := openAtLineEnds_of_forall (by decide +kernel)
  have htyped : ∀ before t line, LineEnds (cut commented).tokens before t line →
      ∃ k, openDepth (asTyped (spelled before ++ line)) = some (k + 1) := by
    intro before t line hends
    refine exists_succ (forall_lineEnds
      (P := fun before _ line => 0 < (openDepth (asTyped (spelled before ++ line))).getD 0) ?_ _ _ _ hends)
    decide +kernel
  obtain ⟨ts, -, -, hunique, -, -, htype⟩ := typed_as_one_entry h.parse_eq hslash
  obtain rfl := hunique _ _ h
  have hentry := (htype hopen).2 fun before t line hends _ _ => htyped before t line hends
  exact ⟨⟨_, h.parse_eq⟩, hslash, ⟨_, e, h, hopen, htyped⟩,
    fun depth m => hentry depth ⟨m, [], false⟩ rfl rfl⟩

/-- A call with a comment in it that has a closing bracket and a line end. -/
def divided : String := "print(/* :)\n*/ 1);"

/-- The call without the comment. -/
def undivided : Script := ⟨⟨[.call (.identifier "print" 1) [.literal (.int 1) 1] 1], 1⟩⟩

/-- **A script can be submitted too early.** A bracket is open where the only line of this one ends, but the
prompt does not see the comment there: it counts the closing bracket in it, and takes each line for an
entry. -/
theorem divided_submitted_twice :
    (∃ script, parse divided = .ok script) ∧ divided.toList.head? ≠ some '/' ∧
      (∃ ts e, Reads divided ts e ∧ OpenAtLineEnds ts) ∧
      openDepth (asTyped "print(/* :)".toList) = some 0 ∧
      ∀ depth m, (Prompt.mk m [] false).type depth (keysFor divided) =
        ⟨submit depth "*/ 1);" (submit depth "print(/* :)" m), [], false⟩ := by
  have hcut : cut divided = ⟨(cut divided).tokens, none⟩ := by decide +kernel
  have hfits : undivided.body.fits isPlainName = true := by decide
  have hkinds : kinds (cut divided).tokens = undivided.body.words.map Word.kind := by
    decide +kernel
  obtain ⟨e, h⟩ := exists_reads_of_kinds hcut hfits hkinds
  have hopen : OpenAtLineEnds (cut divided).tokens := openAtLineEnds_of_forall (by decide +kernel)
  refine ⟨⟨_, h.parse_eq⟩, by decide, ⟨_, e, h, hopen⟩, by decide +kernel, fun depth m => ?_⟩
  -- each of the two lines is complete
  have hline : ∀ (line : String) (m : Machine), '\n' ∉ line.toList →
      asTyped line.toList = line → Prompt.submits line = true →
      (Prompt.mk m [] false).type depth (keysFor line) = ⟨submit depth line m, [], false⟩ := by
    intro line m hone htyped hsubmits
    have htype : (Prompt.mk m [] false).type depth (keysFor line) =
        ⟨submit depth (asTyped line.toList) m, [], false⟩ :=
      Prompt.type_keysFor depth rfl rfl
        (fun start more hfeed => absurd (hfeed ▸ List.mem_append_right _ List.mem_cons_self) hone)
        (htyped.symm ▸ hsubmits)
    rwa [htyped] at htype
  have hkeys : keysFor divided = keysFor "print(/* :)" ++ keysFor "*/ 1);" := by decide
  rw [hkeys, Prompt.type, List.foldl_append]
  show (((Prompt.mk m [] false).type depth (keysFor "print(/* :)")).type depth (keysFor "*/ 1);")) = _
  rw [hline "print(/* :)" m (by decide) (by decide +kernel) (by decide +kernel)]
  exact hline "*/ 1);" _ (by decide) (by decide +kernel) (by decide +kernel)

end Scriptlet.Session
