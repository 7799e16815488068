import Scriptlet.Proofs.Grammar.Keys
import Scriptlet.Proofs.Parsing.Reserved

/-!
# Reserved words as keys

No reserved word is looked for where a key can come, so a key may be spelled like one if its colon comes right
after it.

A text is laid out from words if these are written one after the other, where a blank may stand between two
of them and a blank must follow the colon of a key.

## What is proved

* `Accepts.vocabulary_eq_false`: no reserved word is looked for before a name and a colon.
* `parse_of_keyedInto`: keys may be spelled like reserved words in a text of the words of a sentence.
* `Laid.exists_keyedInto`: a text that is laid out from words is cut into them, whatever keys are spelled
  like.
* `parse_of_laid`: a text that is laid out from the words of a script is read as the script.
-/

namespace Scriptlet.Parsing

open Grammar Lexical Text

/-! ### Keys that are spelled like reserved words -/

variable {d : Sentence} {stack : Stack} {ts : List Token} {t u : Token}

/-- Where a name and a colon come, a key can come. -/
theorem Accepts.takesKey (h : Accepts .ofGrammar d stack (t :: u :: ts)) (ht : t.kind = .name)
    (hu : u.kind = .colon) : (stack.state .ofGrammar).takesKey .ofGrammar = true := by
  generalize hwords : t :: u :: ts = ws at h
  induction h with
  | shift hr h =>
    obtain ⟨rfl, rfl⟩ := List.cons.inj hwords
    have hahead := h.contains_ahead
    rw [ahead_cons, hu] at hahead
    rw [ht] at hr
    rw [State.takesKey, hr]
    exact hahead
  | join _ _ hj _ ih =>
    -- there would be a phrase right before the key
    obtain ⟨parts, n, -, ha, rfl⟩ := Stack.joinBy_eq_stack.mp hj
    have hkey : (Automaton.ofGrammar.state n).takesKey .ofGrammar = true := ih hwords
    rw [takesKey_eq_false_of_after? ha] at hkey
    cases hkey
  | done => cases hwords

/-- **No reserved word is looked for before a name and a colon.** -/
theorem Accepts.vocabulary_eq_false (h : Accepts .ofGrammar d stack (t :: u :: ts))
    (ht : t.kind = .name) (hu : u.kind = .colon) {k : Terminal} (hk : k.isReserved = true) :
    stack.vocabulary .ofGrammar k = false :=
  vocabulary_eq_false_of_takesKey (h.takesKey ht hu) hk

/-- From a cursor on, a text is a row of words: those that all terminals cut off, and names right before a
colon, whatever they are spelled like. -/
inductive KeyedInto : Cursor → List Token → Prop where
  /-- Nothing is left. -/
  | nil (p : Position) : KeyedInto ⟨p, []⟩ []
  /-- A word and those after it. -/
  | word {c c' : Cursor} {t : Token} {ts : List Token} (h : c.next? .full = some (t, c'))
      (hs : KeyedInto c' ts) : KeyedInto c (t :: ts)
  /-- A name, a colon and the words after it. -/
  | key {p q r : Position} {name rest : List Char} {ts : List Token} (hname : isNameForm name = true)
      (hq : q = p.advance name) (hr : r = q.advance [':']) (hs : KeyedInto ⟨r, rest⟩ ts) :
      KeyedInto ⟨p, name ++ ':' :: rest⟩ (⟨.name, name, p, q⟩ :: ⟨.colon, [':'], q, r⟩ :: ts)

/-- What is accepted is taken from a text of the words. -/
theorem exists_takes_of_keyedInto {c : Cursor} (hcut : KeyedInto c ts)
    (h : Accepts .ofGrammar d stack (significant ts)) :
    ∃ stack' c', Takes .ofGrammar stack c ts stack' c' ∧ c'.rest = [] := by
  induction hcut generalizing stack with
  | nil p => exact ⟨stack, _, .nil, rfl⟩
  | @word c c' t ts hnext hcut ih =>
    cases hi : t.kind.isIgnored with
    | true =>
      rw [significant_cons_of_ignored hi] at h
      obtain ⟨stack', c'', htakes, hend⟩ := ih h
      have hthere := Cursor.next?_of_full hnext (State.vocabulary_of_isIgnored (stack.state .ofGrammar) hi)
      exact ⟨stack', c'', .ignored hthere hi htakes, hend⟩
    | false =>
      rw [significant_cons_of_not_ignored hi] at h
      obtain ⟨settled, n, hsettle, haccepts⟩ := h.settle_word ofGrammar_obeys
      obtain ⟨stack', c'', htakes, hend⟩ := ih haccepts
      have hthere := Cursor.next?_of_full hnext h.vocabulary
      exact ⟨stack', c'', .word hthere hi (hsettle stack.potential_lt) htakes, hend⟩
  | @key p q r name rest ts hname hq hr hcut ih =>
    rw [significant_cons_of_not_ignored rfl, significant_cons_of_not_ignored rfl] at h
    have hends : ∀ c ∈ (':' :: rest).head?, isNamePart c = false := by
      intro c hc
      obtain rfl := Option.some.inj hc
      rfl
    have hkey := next?_name hname hends h.vocabulary (fun k hk =>
      h.vocabulary_eq_false rfl rfl (by rw [Terminal.isReserved, hk]; rfl)) p
    obtain ⟨settled, n, hsettle, hnamed⟩ := h.settle_word ofGrammar_obeys
    obtain ⟨settled', n', hsettle', haccepts⟩ := hnamed.settle_word ofGrammar_obeys
    obtain ⟨stack', c'', htakes, hend⟩ := ih haccepts
    have hcolon : Cursor.next? .full ⟨q, ':' :: rest⟩ =
        some (⟨.colon, [':'], q, q.advance [':']⟩, ⟨q.advance [':'], rest⟩) :=
      (Word.readable_only (t := .colon) (by decide)).next? (fun _ _ => rfl) q
    have hthere := Cursor.next?_of_full hcolon hnamed.vocabulary
    subst hq hr
    exact ⟨stack', c'', .word hkey rfl (hsettle stack.potential_lt)
      (.word hthere rfl (hsettle' (Stack.potential_lt _)) htakes), hend⟩

/-- **Keys may be spelled like reserved words** in a text of the words of a sentence. -/
theorem parse_of_keyedInto {source : String} (hcut : KeyedInto (Cursor.ofString source) ts)
    (hd : d.PrefersMethods) (htokens : d.tokens = significant ts) : parse source = .ok d.script := by
  have haccepts := accepts_tokens ofGrammar_obeys hd
  rw [htokens] at haccepts
  obtain ⟨stack, c, htakes, hend⟩ := exists_takes_of_keyedInto hcut haccepts
  exact htakes.parse_eq hend hd htokens

/-! ### Texts that are laid out from words -/

/-- The text is laid out from the words. -/
inductive Laid : List Word → List Char → Prop where
  /-- No words. -/
  | nil : Laid [] []
  /-- A word, and right after it what it does not go on with. -/
  | word {w : Word} {ws : List Word} {cs : List Char} (hw : w.Readable) (hends : w.kind.EndsBefore cs)
      (hs : Laid ws cs) : Laid (w :: ws) (w.chars ++ cs)
  /-- A word and a blank. -/
  | spaced {w : Word} {ws : List Word} {cs : List Char} (hw : w.Readable) (hs : Laid ws cs) :
      Laid (w :: ws) (w.chars ++ ' ' :: cs)
  /-- A key, its colon and a blank. -/
  | key {name : List Char} {ws : List Word} {cs : List Char} (hname : isNameForm name = true)
      (hs : Laid ws cs) : Laid (⟨.name, name⟩ :: Word.only .colon :: ws) (name ++ ':' :: ' ' :: cs)

/-- What is laid out from words does not start with a blank. -/
theorem Laid.head? {ws : List Word} {cs : List Char} (h : Laid ws cs) :
    ∀ c ∈ cs.head?, isSpace c = false := by
  cases h with
  | nil => nofun
  | word hw _ _ => exact hw.head?_append _
  | spaced hw _ => exact hw.head?_append _
  | key hname _ => exact isSpace_head_of_isNameForm hname _

/-- **A text that is laid out from words is cut into them**, whatever keys are spelled like. -/
theorem Laid.exists_keyedInto {ws : List Word} {cs : List Char} (h : Laid ws cs) {p : Position}
    (hp : p.line = 1) : ∃ ts, KeyedInto ⟨p, cs⟩ ts ∧ Occurrence ws (significant ts) := by
  induction h generalizing p with
  | nil => exact ⟨[], .nil p, rfl, nofun⟩
  | @word w ws cs hw hends _ ih =>
    obtain ⟨ts, hcut, hread, hlines⟩ := ih ((line_advance hw.line).trans hp)
    refine ⟨_, .word (hw.next? hends p) hcut, ?_⟩
    rw [significant_cons_of_not_ignored hw.significant]
    exact ⟨congrArg (w :: ·) hread, List.forall_mem_cons.mpr ⟨hp, hlines⟩⟩
  | @spaced w ws cs hw hs ih =>
    have hends : w.kind.EndsBefore (' ' :: cs) := w.kind.endsBefore_blank cs
    have hline : ((p.advance w.chars).advance [' ']).line = 1 :=
      (line_advance (by decide)).trans ((line_advance hw.line).trans hp)
    obtain ⟨ts, hcut, hread, hlines⟩ := ih hline
    refine ⟨_, .word (hw.next? hends p) (.word (next?_blank hs.head? _) hcut), ?_⟩
    rw [significant_cons_of_not_ignored hw.significant, significant_cons_of_ignored rfl]
    exact ⟨congrArg (w :: ·) hread, List.forall_mem_cons.mpr ⟨hp, hlines⟩⟩
  | @key name ws cs hname hs ih =>
    have hcolon : (p.advance name).line = 1 := (line_advance (not_mem_of_isNameForm hname)).trans hp
    have hline : (((p.advance name).advance [':']).advance [' ']).line = 1 :=
      (line_advance (by decide)).trans ((line_advance (by decide)).trans hcolon)
    obtain ⟨ts, hcut, hread, hlines⟩ := ih hline
    refine ⟨_, .key hname rfl rfl (.word (next?_blank hs.head? _) hcut), ?_⟩
    rw [significant_cons_of_not_ignored rfl, significant_cons_of_not_ignored rfl,
      significant_cons_of_ignored rfl]
    refine ⟨congrArg (fun ws => Word.mk .name name :: Word.only .colon :: ws) hread, ?_⟩
    exact List.forall_mem_cons.mpr ⟨hp, List.forall_mem_cons.mpr ⟨hcolon, hlines⟩⟩

/-- **A text that is laid out from the words of a script is read as the script.** -/
theorem parse_of_laid {ws : List Word} {cs : List Char} {script : Script} (h : Laid ws cs)
    (hscript : Denotes .program ws script) : parse (String.ofList cs) = .ok script := by
  obtain ⟨ts, hcut, hoccurs⟩ := h.exists_keyedInto (p := .start) rfl
  obtain ⟨d, htokens, hprefers, rfl⟩ := hscript _ hoccurs
  refine parse_of_keyedInto ?_ hprefers htokens
  rw [Cursor.ofString, String.toList_ofList]
  exact hcut

end Scriptlet.Parsing
