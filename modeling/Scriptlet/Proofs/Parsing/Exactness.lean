import Scriptlet.Proofs.Lexical.Tiling
import Scriptlet.Proofs.Parsing.Acceptance

/-!
# The reader accepts exactly the sentences of the grammar

The reader takes its words from a text as it needs them, and looks in every state only for those that
the state can do something with. Where all terminals cut a text into the words of a sentence, it finds
the same words, because the next word of a sentence is always among those it looks for.

## What is proved

* `Accepts.settle_word`, `Accepts.settle_finish`: the bound on the rules that end before a lookahead is
  never reached.
* `parseFrom_of_accepts`: what is accepted as a row of words is read as a text.
* `accepts_of_parseFrom`: what is read as a text is a row of words that is accepted.
* `parse_of_words`: what a text is read as whose words are known.
* `parse_exact`: the reader accepts exactly the sentences of the grammar, and answers with what the
  preferred derivation means.
-/

namespace Scriptlet.Grammar

open Scriptlet.Lexical

/-! ### What a state looks for -/

section Folds

variable {α : Type} {f : LookaheadSet → α → LookaheadSet} {a : Lookahead}

theorem LookaheadSet.contains_foldl (grows : ∀ s y, s.contains a → (f s y).contains a)
    {l : List α} {s : LookaheadSet} (hs : s.contains a) : (l.foldl f s).contains a := by
  induction l generalizing s with
  | nil => exact hs
  | cons y l ih => exact ih (grows s y hs)

theorem LookaheadSet.contains_foldl_of_mem (grows : ∀ s y, s.contains a → (f s y).contains a)
    {l : List α} {s : LookaheadSet} {x : α} (hx : x ∈ l) (adds : ∀ s, (f s x).contains a) :
    (l.foldl f s).contains a := by
  induction l generalizing s with
  | nil => cases hx
  | cons y l ih =>
    rw [List.foldl_cons]
    rcases List.mem_cons.mp hx with rfl | hx
    · exact contains_foldl grows (adds s)
    · exact ih hx

end Folds

namespace State

theorem contains_of_read? {s : State} {a : Lookahead} {n : Nat} (h : s.read? a = some n) :
    s.lookaheads.contains a := by
  cases a with
  | finish => cases h
  | word t =>
    obtain ⟨before, after, hedges, -⟩ := List.lookup_eq_some_iff.mp h
    refine LookaheadSet.contains_foldl (fun s y hs => by simp [hs]) ?_
    refine LookaheadSet.contains_foldl_of_mem (fun s y hs => ?_)
      (show (Symbol.word t, n) ∈ s.edges by simp [hedges]) fun s => by simp
    obtain ⟨symbol, m⟩ := y
    cases symbol with
    | word u => simp [hs]
    | phrase c => exact hs

theorem contains_of_complete? {s : State} {a : Lookahead} {r : Rule} (h : s.complete? a = some r) :
    s.lookaheads.contains a := by
  obtain ⟨⟨r', ahead⟩, hmem, hc⟩ := List.exists_of_findSome?_eq_some h
  simp only [Option.ite_none_right_eq_some] at hc
  exact LookaheadSet.contains_foldl_of_mem (fun s y hs => by simp [hs]) hmem
    fun s => by simp [hc.1]

/-- A state can do something with every lookahead that it looks for. -/
theorem ne_none_of_contains {s : State} {a : Lookahead} (h : s.lookaheads.contains a = true) :
    s.read? a ≠ none ∨ s.complete? a ≠ none := by
  revert h
  rw [lookaheads]
  refine List.foldlRecOn (motive := fun set : LookaheadSet => set.contains a = true → _) _ _ ?_ ?_
  · refine List.foldlRecOn (motive := fun set : LookaheadSet => set.contains a = true → _) _ _ ?_ ?_
    · intro h
      rw [LookaheadSet.contains_empty] at h
      cases h
    · rintro set ih ⟨symbol, n⟩ hedge h
      cases symbol with
      | phrase c => exact ih h
      | word t =>
        rw [LookaheadSet.contains_union, Bool.or_eq_true, LookaheadSet.contains_singleton] at h
        rcases h with h | rfl
        · exact ih h
        · refine .inl fun hnone => ?_
          exact bne_iff_ne.mp (List.lookup_eq_none_iff.mp hnone _ hedge) rfl
  · rintro set ih ⟨r, ahead⟩ hend h
    rw [LookaheadSet.contains_union, Bool.or_eq_true] at h
    rcases h with h | h
    · exact ih h
    · refine .inr fun hnone => ?_
      have hno : (if ahead.contains a = true then some r else none) = none :=
        List.findSome?_eq_none_iff.mp hnone _ hend
      rw [if_pos h] at hno
      cases hno

end State

end Scriptlet.Grammar

namespace Scriptlet.Parsing

open Scriptlet.Grammar Scriptlet.Lexical

variable {auto : Automaton} {table : ItemTable} {d : Sentence}

/-! ### Settling -/

/-- What is accepted has a lookahead that the state looks for. -/
theorem Accepts.contains_ahead {stack : Stack} {ts : List Token} (h : Accepts auto d stack ts) :
    (stack.state auto).lookaheads.contains (ahead ts) := by
  cases h with
  | shift hr => exact State.contains_of_read? hr
  | join _ hc => exact State.contains_of_complete? hc
  | done hc => exact State.contains_of_complete? hc

theorem Accepts.vocabulary {stack : Stack} {t : Token} {ts : List Token}
    (h : Accepts auto d stack (t :: ts)) : (stack.state auto).vocabulary t.kind := by
  have := h.contains_ahead
  rw [ahead_cons] at this
  simp [State.vocabulary, this]

/-- At the end of the words the reader settles on the sentence. -/
theorem Accepts.settle_finish (hobeys : auto.Obeys table) {stack : Stack}
    (h : Accepts auto d stack []) {fuel : Nat} (hfuel : stack.potential < fuel) :
    settle auto .finish fuel stack = .done d := by
  generalize hts : ([] : List Token) = ts at h
  induction h generalizing fuel with
  | shift => cases hts
  | join hr hc hj _ ih =>
    subst hts
    cases fuel with
    | zero => cases hfuel
    | succ fuel =>
      have hlt := Stack.potential_joinBy hobeys hj
      rw [ahead_nil] at hr hc
      rw [settle]
      simp only [hr, hc, hj]
      exact ih (by omega) rfl
  | done hc hj =>
    cases fuel with
    | zero => cases hfuel
    | succ fuel =>
      rw [settle]
      simp only [State.read?, hc, hj]

/-- Before a word the reader settles on a stack that it can put the word on. -/
theorem Accepts.settle_word (hobeys : auto.Obeys table) {stack : Stack} {t : Token}
    {ts : List Token} (h : Accepts auto d stack (t :: ts)) :
    ∃ settled n, (∀ {fuel}, stack.potential < fuel →
        settle auto (.word t.kind) fuel stack = .goOn settled n) ∧
      Accepts auto d (⟨n, .word t.kind, .leaf t⟩ :: settled) ts := by
  generalize hts : t :: ts = us at h
  induction h with
  | @shift stack t' ts' n hr h =>
    obtain ⟨rfl, rfl⟩ := List.cons.inj hts
    refine ⟨stack, n, fun hfuel => ?_, h⟩
    obtain ⟨fuel, rfl⟩ := Nat.exists_eq_succ_of_ne_zero (Nat.ne_of_gt (Nat.zero_lt_of_lt hfuel))
    rw [settle]
    simp only [hr]
  | join hr hc hj _ ih =>
    subst hts
    obtain ⟨settled, n, hsettle, hnext⟩ := ih rfl
    refine ⟨settled, n, fun hfuel => ?_, hnext⟩
    obtain ⟨fuel, rfl⟩ := Nat.exists_eq_succ_of_ne_zero (Nat.ne_of_gt (Nat.zero_lt_of_lt hfuel))
    have hlt := Stack.potential_joinBy hobeys hj
    rw [ahead_cons] at hr hc
    rw [settle]
    simp only [hr, hc, hj]
    exact hsettle (by omega)
  | done => cases hts

/-- Where the reader settles, the rules that have ended are those that acceptance joins by. -/
theorem settle_goOn {a : Lookahead} {fuel : Nat} {stack settled : Stack} {n : Nat}
    (h : settle auto a fuel stack = .goOn settled n) :
    (settled.state auto).read? a = some n ∧
      ∀ {ts}, ahead ts = a → Accepts auto d settled ts → Accepts auto d stack ts := by
  induction fuel generalizing stack with
  | zero => cases h
  | succ fuel ih =>
    rw [settle] at h
    split at h
    · rename_i m hr
      simp only [Answer.goOn.injEq] at h
      obtain ⟨rfl, rfl⟩ := h
      exact ⟨hr, fun _ hacc => hacc⟩
    · rename_i hr
      split at h
      · cases h
      · rename_i r hc
        split at h
        · rename_i joined hj
          obtain ⟨hread, hback⟩ := ih h
          exact ⟨hread, fun hts hacc => .join (hts ▸ hr) (hts ▸ hc) hj (hback hts hacc)⟩
        · cases h
        · cases h

theorem accepts_of_settle_done {fuel : Nat} {stack : Stack}
    (h : settle auto .finish fuel stack = .done d) : Accepts auto d stack [] := by
  induction fuel generalizing stack with
  | zero => cases h
  | succ fuel ih =>
    rw [settle] at h
    split at h
    · cases h
    · rename_i hr
      split at h
      · cases h
      · rename_i r hc
        split at h
        · rename_i joined hj
          exact .join hr hc hj (ih h)
        · rename_i e hj
          simp only [Answer.done.injEq] at h
          exact .done hc (h ▸ hj)
        · cases h

/-! ### Reading words -/

theorem not_isEmpty_of_next? {v : Vocabulary} {c c' : Cursor} {t : Token}
    (h : c.next? v = some (t, c')) : c.rest.isEmpty = false := by
  have hlen := Cursor.next?_length h
  cases hc : c.rest with
  | nil => rw [hc] at hlen; cases hlen
  | cons => rfl

/-- Where all terminals cut off nothing that means something, the reader finds the end. -/
theorem readFrom_of_cutInto_nil {v : Vocabulary} (hv : ∀ t : Terminal, t.isIgnored → v t)
    {c : Cursor} {ts : List Token} (h : CutInto .full c ts) (hs : significant ts = [])
    {fuel : Nat} (hfuel : c.rest.length < fuel) : readFrom v fuel c = .finish := by
  induction h generalizing fuel with
  | nil p =>
    cases fuel with
    | zero => rfl
    | succ fuel => rfl
  | @cons c c' t ts hnext hcut ih =>
    obtain ⟨fuel, rfl⟩ := Nat.exists_eq_succ_of_ne_zero (Nat.ne_of_gt (Nat.zero_lt_of_lt hfuel))
    have hlen := Cursor.next?_length hnext
    by_cases hi : t.kind.isIgnored
    · rw [significant_cons_of_ignored hi] at hs
      rw [readFrom, not_isEmpty_of_next? hnext, Cursor.next?_of_full hnext (hv _ hi)]
      simp only [hi, if_true, Bool.false_eq_true, if_false]
      exact ih hs (by omega)
    · rw [significant_cons_of_not_ignored (by simpa using hi)] at hs
      cases hs

/-- The first word that means something among those that all terminals give is found with any
vocabulary that holds its kind. -/
theorem readFrom_of_cutInto_cons {v : Vocabulary} (hv : ∀ t : Terminal, t.isIgnored → v t)
    {c : Cursor} {us ts : List Token} {t : Token} (h : CutInto .full c us)
    (hs : significant us = t :: ts) (ht : v t.kind) {fuel : Nat} (hfuel : c.rest.length < fuel) :
    ∃ c' us', readFrom v fuel c = .token t c' ∧ CutInto .full c' us' ∧ significant us' = ts ∧
      c'.rest.length < c.rest.length := by
  induction h generalizing fuel with
  | nil p => cases hs
  | @cons c c' t' us hnext hcut ih =>
    obtain ⟨fuel, rfl⟩ := Nat.exists_eq_succ_of_ne_zero (Nat.ne_of_gt (Nat.zero_lt_of_lt hfuel))
    have hlen := Cursor.next?_length hnext
    by_cases hi : t'.kind.isIgnored
    · rw [significant_cons_of_ignored hi] at hs
      have hfuel' : c'.rest.length < fuel := by omega
      obtain ⟨c'', us', hr, hcut', hs', hlen'⟩ := ih hs hfuel'
      refine ⟨c'', us', ?_, hcut', hs', by omega⟩
      rw [readFrom, not_isEmpty_of_next? hnext, Cursor.next?_of_full hnext (hv _ hi)]
      simpa only [hi, if_true, Bool.false_eq_true, if_false] using hr
    · rw [Bool.not_eq_true] at hi
      rw [significant_cons_of_not_ignored hi, List.cons.injEq] at hs
      obtain ⟨rfl, rfl⟩ := hs
      refine ⟨c', us, ?_, hcut, rfl, hlen⟩
      rw [readFrom, not_isEmpty_of_next? hnext, Cursor.next?_of_full hnext ht]
      simp only [hi, Bool.false_eq_true, if_false]

/-- What the reader passes over before it finds the end is a row of words that mean nothing. -/
theorem readInto_of_readFrom_finish {v : Vocabulary} (hv : ∀ t : Terminal, t.isIgnored → v t)
    {fuel : Nat} {c : Cursor} (hfuel : c.rest.length < fuel) (h : readFrom v fuel c = .finish) :
    ∃ us, ReadInto c us ∧ significant us = [] := by
  induction fuel generalizing c with
  | zero => cases hfuel
  | succ fuel ih =>
    rw [readFrom] at h
    split at h
    · rename_i hnil
      obtain ⟨p, cs⟩ := c
      obtain rfl : cs = [] := List.isEmpty_iff.mp hnil
      exact ⟨[], .nil p, rfl⟩
    · split at h
      · cases h
      · rename_i t c' hnext
        split at h
        · rename_i hi
          have hlen := Cursor.next?_length hnext
          obtain ⟨us, hus, hs⟩ := ih (by omega) h
          exact ⟨t :: us, .cons hv hnext hus, by rw [significant_cons_of_ignored hi, hs]⟩
        · cases h

/-- What the reader passes over before it finds a word is a row of words that mean nothing. -/
theorem readInto_of_readFrom_token {v : Vocabulary} (hv : ∀ t : Terminal, t.isIgnored → v t)
    {fuel : Nat} {c c' : Cursor} {t : Token} (h : readFrom v fuel c = .token t c') :
    c'.rest.length < c.rest.length ∧
      ∀ {us}, ReadInto c' us → ∃ vs, ReadInto c vs ∧ significant vs = t :: significant us := by
  induction fuel generalizing c with
  | zero => cases h
  | succ fuel ih =>
    rw [readFrom] at h
    split at h
    · cases h
    · split at h
      · cases h
      · rename_i t' d hnext
        have hlen := Cursor.next?_length hnext
        split at h
        · rename_i hi
          obtain ⟨hlt, hrow⟩ := ih h
          refine ⟨by omega, fun hus => ?_⟩
          obtain ⟨vs, hvs, hs⟩ := hrow hus
          exact ⟨t' :: vs, .cons hv hnext hvs, by rw [significant_cons_of_ignored hi, hs]⟩
        · rename_i hi
          simp only [Reading.token.injEq] at h
          obtain ⟨rfl, rfl⟩ := h
          refine ⟨hlen, fun {us} hus => ⟨t' :: us, .cons hv hnext hus, ?_⟩⟩
          exact significant_cons_of_not_ignored (by simpa using hi)

/-! ### Whole texts -/

theorem State.vocabulary_of_isIgnored (s : State) {t : Terminal} (h : t.isIgnored) :
    s.vocabulary t := by
  simp [State.vocabulary, h]

/-- **What is accepted as a row of words is read as a text** that all terminals cut into these
words. -/
theorem parseFrom_of_accepts (hobeys : auto.Obeys table) {stack : Stack} {ts us : List Token}
    {c : Cursor} (hcut : CutInto .full c us) (hs : significant us = ts)
    (h : Accepts auto d stack ts) {fuel : Nat} (hfuel : c.rest.length < fuel)
    (last : Text.Position) : parseFrom auto fuel stack last c = .ok d := by
  induction fuel generalizing stack ts us c last with
  | zero => cases hfuel
  | succ fuel ih =>
    have hv : ∀ t : Terminal, t.isIgnored → (stack.state auto).vocabulary t :=
      fun t => State.vocabulary_of_isIgnored _
    rw [parseFrom, read]
    cases ts with
    | nil =>
      rw [readFrom_of_cutInto_nil hv hcut hs (Nat.lt_succ_self _)]
      simp only [h.settle_finish hobeys stack.potential_lt]
    | cons t ts =>
      obtain ⟨c', us', hread, hcut', hs', hlen⟩ :=
        readFrom_of_cutInto_cons hv hcut hs h.vocabulary (Nat.lt_succ_self _)
      obtain ⟨settled, n, hsettle, hnext⟩ := h.settle_word hobeys
      rw [hread]
      simp only [hsettle stack.potential_lt]
      exact ih hcut' hs' hnext (by omega) t.start

/-- **What is read as a text is a row of words that is accepted.** -/
theorem readInto_of_parseFrom {fuel : Nat} {stack : Stack} {last : Text.Position} {c : Cursor}
    (h : parseFrom auto fuel stack last c = .ok d) :
    ∃ us, ReadInto c us ∧ Accepts auto d stack (significant us) := by
  induction fuel generalizing stack last c with
  | zero => cases h
  | succ fuel ih =>
    have hv : ∀ t : Terminal, t.isIgnored → (stack.state auto).vocabulary t :=
      fun t => State.vocabulary_of_isIgnored _
    rw [parseFrom] at h
    split at h
    · cases h
    · rename_i hread
      obtain ⟨us, hus, hs⟩ := readInto_of_readFrom_finish hv (Nat.lt_succ_self _) hread
      refine ⟨us, hus, ?_⟩
      split at h
      · rename_i e hsettle
        simp only [Except.ok.injEq] at h
        rw [hs]
        exact accepts_of_settle_done (h ▸ hsettle)
      · cases h
      · cases h
    · rename_i t c' hread
      split at h
      · rename_i settled n hsettle
        obtain ⟨us, hus, hacc⟩ := ih h
        obtain ⟨vs, hvs, hs⟩ := (readInto_of_readFrom_token hv hread).2 hus
        obtain ⟨hr, hback⟩ := settle_goOn hsettle
        refine ⟨vs, hvs, ?_⟩
        rw [hs]
        exact hback rfl (.shift hr hacc)
      · cases h
      · cases h

theorem accepts_of_parseFrom {fuel : Nat} {stack : Stack} {last : Text.Position} {c : Cursor}
    (h : parseFrom auto fuel stack last c = .ok d) :
    ∃ us, Tiled c us ∧ Accepts auto d stack (significant us) := by
  obtain ⟨us, hus, hacc⟩ := readInto_of_parseFrom h
  exact ⟨us, .of_readInto hus, hacc⟩

/-- A sentence that prefers methods is known by its words. -/
theorem eq_of_tokens {d e : Sentence} (hd : d.PrefersMethods) (he : e.PrefersMethods)
    (h : e.tokens = d.tokens) : e = d := by
  have hacc := accepts_tokens ofGrammar_obeys he
  rw [h] at hacc
  exact hacc.unique (accepts_tokens ofGrammar_obeys hd)

/-- A text is read as the script that the sentence it is stands for. -/
theorem parse_eq_ok_iff {source : String} {script : Script} :
    parse source = .ok script ↔ ∃ d, parseSentence source = .ok d ∧ d.script = script := by
  rw [parse]
  cases parseSentence source <;> simp [Except.map]

theorem parse_eq_error_iff {source : String} {cause : SyntaxError} :
    parse source = .error cause ↔ parseSentence source = .error cause := by
  rw [parse]
  cases parseSentence source <;> simp [Except.map]

/-- A text that is cut into the words of a sentence that prefers methods is read as that sentence. -/
theorem parse_of_words {source : String} {ts : List Token} {d : Sentence} (hd : d.PrefersMethods)
    (hwords : words source = (ts, none)) (htokens : d.tokens = significant ts) :
    parse source = .ok d.script := by
  have hcut : CutInto .full (Cursor.ofString source) ts := by
    simp only [words, Prod.mk.injEq, Option.map_eq_none_iff] at hwords
    exact CutInto.of_cut (by rw [← hwords.1, ← hwords.2])
  have hacc := accepts_tokens ofGrammar_obeys hd
  rw [parse, parseSentence, parseWith,
    parseFrom_of_accepts ofGrammar_obeys hcut htokens.symm hacc (Nat.lt_succ_self _)]
  rfl

/-- **The reader accepts exactly the sentences of the grammar.** If all terminals cut a text into the
words of a sentence, the reader answers with what the sentence means, derived so that methods are
preferred; there is only one such derivation. And if the reader answers, the text is a row of words that
are those of a sentence once white space and comments are left out, and the answer is what the sentence
means, derived in the same way. -/
theorem parse_exact (source : String) :
    (∀ (ts : List Token) (d : Sentence), words source = (ts, none) → d.tokens = significant ts →
      ∃ e : Sentence, e.PrefersMethods ∧ e.tokens = significant ts ∧
        parse source = .ok e.script ∧
        ∀ e' : Sentence, e'.PrefersMethods → e'.tokens = significant ts → e' = e) ∧
    (∀ script : Script, parse source = .ok script →
      ∃ (ts : List Token) (e : Sentence), Tiled (Cursor.ofString source) ts ∧
        e.PrefersMethods ∧ e.tokens = significant ts ∧ e.script = script ∧
        ∀ e' : Sentence, e'.PrefersMethods → e'.tokens = significant ts → e' = e) := by
  constructor
  · intro ts d hwords hd
    obtain ⟨e, he, hprefers⟩ := d.exists_prefersMethods
    rw [hd] at he
    exact ⟨e, hprefers, he, parse_of_words hprefers hwords he,
      fun e' he' ht => eq_of_tokens hprefers he' (ht.trans he.symm)⟩
  · intro script h
    obtain ⟨e, hparse, rfl⟩ : ∃ e, parseSentence source = .ok e ∧ e.script = script := by
      rw [parse] at h
      cases hp : parseSentence source with
      | error => rw [hp] at h; cases h
      | ok e => rw [hp] at h; exact ⟨e, rfl, Except.ok.inj h⟩
    obtain ⟨ts, hts, hacc⟩ := accepts_of_parseFrom hparse
    have htokens : e.tokens = significant ts := hacc.tokens ofGrammar_obeys .nil
    -- the preferred derivation of the same words is accepted too, so it is this one
    obtain ⟨e', he', hprefers⟩ := e.exists_prefersMethods
    have hacc' := accepts_tokens ofGrammar_obeys hprefers
    rw [he', htokens] at hacc'
    obtain rfl := hacc'.unique hacc
    exact ⟨ts, e', hts, hprefers, htokens, rfl,
      fun e'' he'' ht => eq_of_tokens hprefers he'' (ht.trans htokens.symm)⟩

/-- The derivation of `a.b();` that calls the field `b`, rather than the method. -/
def fieldCall : Sentence :=
  let word (kind : Terminal) (c : Char) (n : Nat) : Token :=
    ⟨kind, [c], ⟨n, 1, n + 1⟩, ⟨n + 1, 1, n + 2⟩⟩
  let receiver : Derivation (.phrase .chain) :=
    .node .chainPrimary (.cons (.node .primaryName (.cons (.leaf (word .name 'a' 0)) .nil)) .nil)
  let field : Derivation (.phrase .chain) :=
    .node .chainField (.cons receiver (.cons (.leaf (word .dot '.' 1))
      (.cons (.leaf (word .name 'b' 2)) .nil)))
  let call : Derivation (.phrase .chain) :=
    .node .chainCall (.cons field (.cons (.leaf (word .leftParen '(' 3))
      (.cons (.leaf (word .rightParen ')' 4)) .nil)))
  let expression : Derivation (.phrase .expression) :=
    .node .expressionSum (.cons (.node .sumProduct (.cons (.node .productChain
      (.cons call .nil)) .nil)) .nil)
  let statement : Derivation (.phrase .statement) :=
    .node .statementExpression (.cons (.node .expressionStatement
      (.cons expression (.cons (.leaf (word .semicolon ';' 5)) .nil))) .nil)
  .node .programStatements (.cons (.node .statementsOne (.cons statement .nil)) .nil)

/-- The words of `a.b();` are those of a sentence that calls a field; the reader takes it for the call
of a method. -/
theorem parse_exact_fieldCall :
    (words "a.b();" = (fieldCall.tokens, none) ∧
      fieldCall.tokens = significant fieldCall.tokens ∧ ¬ fieldCall.PrefersMethods) ∧
    ∃ e : Sentence, e.PrefersMethods ∧ e.tokens = fieldCall.tokens ∧
      parse "a.b();" = .ok e.script ∧
      ∃ ts e', Tiled (Cursor.ofString "a.b();") ts ∧ e'.PrefersMethods ∧
        e'.tokens = significant ts ∧ Sentence.script e' = e.script := by
  have hwords : words "a.b();" = (fieldCall.tokens, none) := by decide
  have hsignificant : fieldCall.tokens = significant fieldCall.tokens := by decide
  refine ⟨⟨hwords, hsignificant, ?_⟩, ?_⟩
  · -- the call is the eighth node on the way down
    intro h
    cases (h.2.1.2.1.2.1.2.1.2.1.2.1.2.1.1 rfl).1
  · obtain ⟨e, he, htokens, hparse, -⟩ :=
      (parse_exact "a.b();").1 fieldCall.tokens fieldCall hwords hsignificant
    obtain ⟨ts, e', hts, he', htokens', hscript, -⟩ := (parse_exact "a.b();").2 e.script hparse
    exact ⟨e, he, htokens.trans hsignificant.symm, hparse, ts, e', hts, he', htokens', hscript⟩

end Scriptlet.Parsing
