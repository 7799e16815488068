import Scriptlet.Proofs.Lexical.Brackets
import Scriptlet.Proofs.Parsing.Course
import Scriptlet.Proofs.Parsing.Viability

/-!
# Where a text is rejected

Rules may end before a word that turns out to be wrong, but a wrong word is never put on the stack, and a
word that could come next is never refused. So the words taken before an error begin some sentence, and
with the word that is reported they begin none.

For both a sentence is compared with the words of the text by their kinds only. If some sentence goes on
with a word of a kind, one goes on with this very word; it is accepted, and acceptance goes the way of the
reader.

## What is proved

* `Takes.begins`: the words taken begin a sentence.
* `Takes.exists_goOn`: the stack lets in, and looks for, every word that some sentence goes on with.
* `Takes.exists_done`: at the end of a text it becomes a sentence if the words are one.
* `rejected_of_parse`: every syntax error is found at the first word, or character, that is wrong.
-/

namespace Scriptlet.Grammar

open Scriptlet.Lexical

/-- The kinds of the words that mean something. -/
def kinds (ts : List Token) : List Terminal := (significant ts).map Token.kind

theorem kinds_append (ts us : List Token) : kinds (ts ++ us) = kinds ts ++ kinds us := by
  rw [kinds, significant_append, List.map_append]
  rfl

/-- Words of these kinds are a sentence. -/
def IsSentence (ks : List Terminal) : Prop := ∃ d : Sentence, d.tokens.map Token.kind = ks

/-- Words of these kinds begin a sentence. -/
def Begins (ks : List Terminal) : Prop := ∃ d : Sentence, ks <+: d.tokens.map Token.kind

mutual

/-- A symbol can be derived from any words of the same kinds. -/
theorem Derivation.exists_of_kinds {s : Symbol} (d : Derivation s) {ts : List Token}
    (h : ts.map Token.kind = d.tokens.map Token.kind) : ∃ e : Derivation s, e.tokens = ts := by
  cases d with
  | leaf token =>
    obtain ⟨t, rfl⟩ : ∃ t, ts = [t] := List.length_eq_one_iff.mp
      (by simpa [Derivation.tokens] using congrArg List.length h)
    have hkind : t.kind = token.kind := by simpa [Derivation.tokens] using h
    rw [← hkind]
    exact ⟨.leaf t, rfl⟩
  | node rule parts =>
    obtain ⟨ps, hps⟩ := parts.exists_of_kinds h
    exact ⟨.node rule ps, hps⟩

/-- Symbols can be derived from any words of the same kinds. -/
theorem Derivations.exists_of_kinds {ss : List Symbol} (ds : Derivations ss) {ts : List Token}
    (h : ts.map Token.kind = ds.tokens.map Token.kind) :
    ∃ es : Derivations ss, es.tokens = ts := by
  cases ds with
  | nil => exact ⟨.nil, (List.map_eq_nil_iff.mp h).symm⟩
  | cons first others =>
    rw [Derivations.tokens, List.map_append] at h
    obtain ⟨us, vs, rfl, hus, hvs⟩ := List.map_eq_append_iff.mp h
    obtain ⟨e, rfl⟩ := first.exists_of_kinds hus
    obtain ⟨es, rfl⟩ := others.exists_of_kinds hvs
    exact ⟨.cons e es, rfl⟩

end

/-- Words whose kinds are a sentence are those of one that prefers methods. -/
theorem IsSentence.exists_prefersMethods {ts : List Token} (h : IsSentence (ts.map Token.kind)) :
    ∃ d : Sentence, d.tokens = ts ∧ d.PrefersMethods := by
  obtain ⟨d, hd⟩ := h
  obtain ⟨e, rfl⟩ := d.exists_of_kinds hd.symm
  exact e.exists_prefersMethods

/-- Words whose kinds begin a sentence can be gone on with to a sentence. -/
theorem Begins.exists_prefersMethods {ts : List Token} (h : Begins (ts.map Token.kind)) :
    ∃ (d : Sentence) (rest : List Token), d.tokens = ts ++ rest ∧ d.PrefersMethods := by
  obtain ⟨d, others, hd⟩ := h
  obtain ⟨us, rest, hus, hkinds, -⟩ := List.map_eq_append_iff.mp hd.symm
  have hall : IsSentence ((ts ++ rest).map Token.kind) :=
    ⟨d, by rw [hus, List.map_append, List.map_append, hkinds]⟩
  obtain ⟨e, he, hprefers⟩ := hall.exists_prefersMethods
  exact ⟨e, rest, he, hprefers⟩

end Scriptlet.Grammar

namespace Scriptlet.Parsing

open Scriptlet.Grammar Scriptlet.Lexical Scriptlet.Text

variable {auto : Automaton} {table : ItemTable} {stack stack' : Stack} {c c' : Cursor}
  {ts us : List Token}

/-! ### The course of a text that is rejected -/

/-- **The words taken begin a sentence.** -/
theorem Takes.begins (hobeys : auto.Obeys table) (hgrounded : auto.Grounded table)
    (h : Takes auto [] c ts stack c') : Begins (kinds ts) := by
  obtain ⟨hvalid, htokens⟩ := h.valid .nil
  obtain ⟨d, rest, hd⟩ := hvalid.exists_sentence hobeys hgrounded
  refine ⟨d, rest.map Token.kind, ?_⟩
  rw [hd, htokens, List.map_append]
  rfl

variable {d : Cursor} {t : Token}

/-- If a sentence goes on with a word after those taken, the stack lets it in. -/
theorem Takes.exists_goOn (h : Takes .ofGrammar [] c ts stack c')
    (hbegins : Begins (kinds ts ++ [t.kind])) :
    (∃ settled n, settle .ofGrammar (.word t.kind) (settleFuel stack) stack = .goOn settled n) ∧
      stack.vocabulary .ofGrammar t.kind := by
  have hkinds : kinds ts ++ [t.kind] = (significant ts ++ [t]).map Token.kind := by
    rw [List.map_append]
    rfl
  obtain ⟨e, rest, he, hprefers⟩ := (hkinds ▸ hbegins).exists_prefersMethods
  have hacc := accepts_tokens ofGrammar_obeys hprefers
  rw [he, List.append_assoc] at hacc
  have hthere := h.accepts ofGrammar_obeys hacc
  obtain ⟨settled, n, hsettle, -⟩ := hthere.settle_word ofGrammar_obeys
  exact ⟨⟨settled, n, hsettle stack.potential_lt⟩, hthere.vocabulary⟩

/-- If the words taken are a sentence, the stack becomes one at the end of the text. -/
theorem Takes.exists_done (h : Takes .ofGrammar [] c ts stack c')
    (hsentence : IsSentence (kinds ts)) :
    ∃ e, settle .ofGrammar .finish (settleFuel stack) stack = .done e := by
  obtain ⟨e, he, hprefers⟩ := IsSentence.exists_prefersMethods hsentence
  have hacc := accepts_tokens ofGrammar_obeys hprefers
  rw [he, ← List.append_nil (significant ts)] at hacc
  exact ⟨e, (h.accepts ofGrammar_obeys hacc).settle_finish ofGrammar_obeys stack.potential_lt⟩

/-- There is a last word that means something among words of which one does. -/
theorem exists_last_of_significant (hne : significant ts ≠ []) (p : Position) :
    ∃ before last after, ts = before ++ last :: after ∧ last.kind.isIgnored = false ∧
      significant after = [] ∧ lastStart p ts = last.start := by
  induction ts generalizing p with
  | nil => exact absurd rfl hne
  | cons t ts ih =>
    by_cases hrest : significant ts = []
    · cases hi : t.kind.isIgnored with
      | true => exact absurd (hrest ▸ significant_cons_of_ignored hi) hne
      | false =>
        refine ⟨[], t, ts, rfl, hi, hrest, ?_⟩
        rw [lastStart, significant_cons_of_not_ignored hi, hrest]
        rfl
    · obtain ⟨before, last, after, rfl, hi, hafter, hstart⟩ := ih hrest t.start
      refine ⟨t :: before, last, after, rfl, hi, hafter, ?_⟩
      rw [← hstart, lastStart, lastStart]
      obtain ⟨u, hu⟩ := Option.ne_none_iff_exists'.mp (mt List.getLast?_eq_none_iff.mp hrest)
      cases hi : t.kind.isIgnored with
      | true => rw [significant_cons_of_ignored hi, hu]; rfl
      | false => rw [significant_cons_of_not_ignored hi, List.getLast?_cons, hu]; rfl

/-! ### Syntax errors -/

/-- What a syntax error says of the place where the reader has stopped, with `v` being looked for after
the words `ts` have been taken. -/
inductive Rejected (v : Vocabulary) (ts : List Token) (c : Cursor) : SyntaxError → Prop where
  /-- A word is reported that stands there, found with what is looked for or, if that finds nothing, with
  all terminals. It means something, and no sentence goes on with a word of its kind. -/
  | token {t : Token} {d : Cursor} {expected : LookaheadSet}
      (found : c.next? v = some (t, d) ∨ c.next? v = none ∧ c.next? .full = some (t, d))
      (significant : t.kind.isIgnored = false) (wrong : ¬ Begins (kinds ts ++ [t.kind])) :
      Rejected v ts c ⟨.unexpectedToken t.word expected, c.position⟩
  /-- A character is reported that stands there, and no terminal takes a word there. -/
  | character {char : Char} {rest : List Char} (stands : c.rest = char :: rest)
      (none : ∀ t : Terminal, t.split? c.rest = none) :
      Rejected v ts c ⟨.unexpectedCharacter char, c.position⟩
  /-- The end is reported, at the last word that means something: the words taken are the whole text and no
  sentence. -/
  | finish {before after : List Token} {last : Token} {expected : LookaheadSet} (ended : c.rest = [])
      (words : ts = before ++ last :: after) (significant : last.kind.isIgnored = false)
      (others : Lexical.significant after = []) (wrong : ¬ IsSentence (kinds ts)) :
      Rejected v ts c ⟨.unexpectedEnd expected, Position.start.advance (spelled before)⟩

theorem Takes.rejected_of_misfit (h : Takes .ofGrammar [] c ts stack c') (hrest : c'.rest ≠ [])
    (hnext : c'.next? (stack.vocabulary .ofGrammar) = none) :
    Rejected (stack.vocabulary .ofGrammar) ts c' (misfitError (stack.vocabulary .ofGrammar) c') := by
  rw [misfitError]
  cases hfull : c'.next? .full with
  | some found =>
    obtain ⟨t, d⟩ := found
    -- a word whose kind is looked for would have been found
    have hkind : stack.vocabulary .ofGrammar t.kind ≠ true := fun hv => by
      rw [Cursor.next?_of_full hfull hv] at hnext
      cases hnext
    refine .token (.inr ⟨hnext, hfull⟩) ?_ fun hbegins => hkind (h.exists_goOn hbegins).2
    rw [Bool.eq_false_iff]
    exact fun hi => hkind (State.vocabulary_of_isIgnored _ hi)
  | none =>
    obtain ⟨char, rest, hcons⟩ := List.exists_cons_of_ne_nil hrest
    have hhead : c'.rest.headD ' ' = char := by rw [hcons]; rfl
    dsimp only
    rw [hhead]
    rw [Cursor.next?, Option.map_eq_none_iff] at hfull
    exact .character hcons (Vocabulary.split?_eq_none_of_full hfull)

/-- **Syntax errors are found at the first possible word.** Where a text is rejected, the words taken so far
are the text up to some place, those of them that mean something are on the stack, and they begin a sentence.
The error reports the word that stands at that place, and no sentence goes on with a word of its kind; or the
character there, where no terminal takes a word; or the end of the text, and the words of the whole text are
no sentence. -/
theorem rejected_of_parse {source : String} {e : SyntaxError} (h : parse source = .error e) :
    ∃ ts stack c, Takes .ofGrammar [] (Cursor.ofString source) ts stack c ∧
      source.toList = spelled ts ++ c.rest ∧ c.position = Position.start.advance (spelled ts) ∧
      stack.tokens = significant ts ∧ Begins (kinds ts) ∧
      Rejected (stack.vocabulary .ofGrammar) ts c e := by
  obtain ⟨ts, stack, c, htakes, hstops⟩ := exists_takes_of_parseSentence source
  rw [parse_eq_error_iff.mp h] at hstops
  refine ⟨ts, stack, c, htakes, htakes.rest, htakes.position, (htakes.valid .nil).2,
    htakes.begins ofGrammar_obeys ofGrammar_grounded, ?_⟩
  cases hstops with
  | finish hrest hsettle =>
    have hwrong : ¬ IsSentence (kinds ts) := fun hsentence =>
      (htakes.exists_done hsentence).elim hsettle
    have hne : significant ts ≠ [] := fun hnil => by
      refine hwrong ⟨.node .programEmpty .nil, ?_⟩
      rw [kinds, hnil]
      rfl
    obtain ⟨before, last, after, rfl, hi, hafter, hstart⟩ := exists_last_of_significant hne .start
    rw [hstart, htakes.start_eq]
    exact .finish hrest rfl hi hafter hwrong
  | word hnext hi hsettle =>
    rw [(Cursor.stands_of_next? hnext).start]
    refine .token (.inl hnext) hi fun hbegins => ?_
    obtain ⟨⟨settled, n, hgoOn⟩, -⟩ := htakes.exists_goOn hbegins
    exact hsettle settled n hgoOn
  | misfit hrest hnext => exact htakes.rejected_of_misfit hrest hnext

/-! ### A text that is rejected behind a number -/

/-- The sentence of a number. -/
def numberSentence : Sentence :=
  let chain : Derivation (.phrase .chain) :=
    .node .chainPrimary
      (.cons (.node .primaryNumber (.cons (.leaf ⟨.number, ['1'], .start, .start⟩) .nil)) .nil)
  let sum : Derivation (.phrase .sum) :=
    .node .sumProduct (.cons (.node .productChain (.cons chain .nil)) .nil)
  let statement : Derivation (.phrase .statement) :=
    .node .statementExpression (.cons (.node .expressionStatement
      (.cons (.node .expressionSum (.cons sum .nil))
        (.cons (.leaf ⟨.semicolon, [';'], .start, .start⟩) .nil))) .nil)
  .node .programStatements (.cons (.node .statementsOne (.cons statement .nil)) .nil)

theorem begins_number : Begins [.number] := ⟨numberSentence, [.semicolon], rfl⟩

/-- The place behind a number of one digit, where a number sign stands. -/
def behindNumber : Cursor := ⟨⟨1, 1, 2⟩, ['#']⟩

/-- Nothing but the number stands in front. -/
theorem stands_number (h : t.Stands (Cursor.ofString "1#") d) :
    t.kind = .number ∧ d = behindNumber := by
  obtain ⟨position, rest⟩ := d
  have hsplit : t.kind.split? ['1', '#'] =
      if t.kind = .number then some (['1'], ['#']) else none := by cases t.kind <;> rfl
  have hword : t.kind.split? ['1', '#'] = some (t.word, rest) := h.word
  rw [hsplit, Option.ite_none_right_eq_some, Option.some.injEq, Prod.mk.injEq] at hword
  obtain ⟨hkind, hword, rfl⟩ := hword
  have hposition : position = t.stop := h.after
  rw [hposition, h.stop, ← hword]
  exact ⟨hkind, rfl⟩

/-- No word starts with a number sign. -/
theorem not_stands_behindNumber : ¬ t.Stands behindNumber d := by
  intro h
  have hsplit : t.kind.split? ['#'] = none := by cases t.kind <;> rfl
  have hword : t.kind.split? ['#'] = some (t.word, d.rest) := h.word
  rw [hsplit] at hword
  cases hword

/-- A word that is reported stands where the reader has stopped. -/
theorem stands_of_found {v : Vocabulary}
    (h : c.next? v = some (t, d) ∨ c.next? v = none ∧ c.next? .full = some (t, d)) : t.Stands c d :=
  h.elim Cursor.stands_of_next? fun h => Cursor.stands_of_next? h.2

/-- Words that are taken are the number, if there are any. -/
theorem Takes.eq_number (h : Takes auto [] (Cursor.ofString "1#") ts stack c) :
    ts = [] ∧ c = Cursor.ofString "1#" ∨ kinds ts = [.number] ∧ c = behindNumber := by
  cases h with
  | nil => exact .inl ⟨rfl, rfl⟩
  | ignored hnext hi =>
    rw [(stands_number (Cursor.stands_of_next? hnext)).1] at hi
    cases hi
  | @word _ _ _ _ _ _ t _ _ hnext hi _ htakes =>
    obtain ⟨hkind, rfl⟩ := stands_number (Cursor.stands_of_next? hnext)
    cases htakes with
    | nil =>
      rw [kinds, significant_cons_of_not_ignored hi, List.map_cons, hkind]
      exact .inr ⟨rfl, rfl⟩
    | ignored hnext | word hnext =>
      exact (not_stands_behindNumber (Cursor.stands_of_next? hnext)).elim

/-- A text that goes on with a number sign behind a number is rejected there, and the number has been taken by
then. -/
theorem rejected_of_parse_afterNumber :
    parse "1#" = .error ⟨.unexpectedCharacter '#', ⟨1, 1, 2⟩⟩ ∧
    ∃ ts stack c, (Takes .ofGrammar [] (Cursor.ofString "1#") ts stack c ∧
      "1#".toList = spelled ts ++ c.rest ∧ c.position = Position.start.advance (spelled ts) ∧
      stack.tokens = significant ts ∧ Begins (kinds ts) ∧
      Rejected (stack.vocabulary .ofGrammar) ts c ⟨.unexpectedCharacter '#', ⟨1, 1, 2⟩⟩) ∧
      kinds ts = [.number] := by
  obtain ⟨e, he⟩ : ∃ e, parse "1#" = .error e := by
    cases hp : parse "1#" with
    | error e => exact ⟨e, rfl⟩
    | ok script =>
      obtain ⟨ts, -, hts, -⟩ := (parse_exact "1#").2 script hp
      cases hts with
      | cons h hs =>
        obtain ⟨-, rfl⟩ := stands_number h
        cases hs with
        | cons h => exact (not_stands_behindNumber h).elim
  obtain ⟨ts, stack, c, hall⟩ := rejected_of_parse he
  suffices hcause : e = ⟨.unexpectedCharacter '#', ⟨1, 1, 2⟩⟩ ∧ kinds ts = [.number] by
    obtain ⟨rfl, hkinds⟩ := hcause
    exact ⟨he, ts, stack, c, hall, hkinds⟩
  obtain ⟨htakes, -, -, -, -, hrejected⟩ := hall
  rcases htakes.eq_number with ⟨rfl, rfl⟩ | ⟨hkinds, rfl⟩
  · -- a number can come first, so the text is not rejected before it
    cases hrejected with
    | token found _ wrong =>
      rw [(stands_number (stands_of_found found)).1] at wrong
      exact (wrong begins_number).elim
    | character _ none => cases none .number
    | finish ended => cases ended
  · refine ⟨?_, hkinds⟩
    cases hrejected with
    | token found => exact (not_stands_behindNumber (stands_of_found found)).elim
    | character stands =>
      obtain ⟨rfl, -⟩ := List.cons.inj stands
      rfl
    | finish ended => cases ended

end Scriptlet.Parsing
