import Scriptlet.Proofs.Parsing.Exactness

/-!
# The course of reading

Reading a text is a row of steps: a word that is ignored is left behind, and a word that means something
is put on the stack once the rules that end before it have been joined by. `Takes` says which words have
been taken on the way from one stack and place to another, and `Stops` what the reader answers where it
takes no more. The bounds on the number of steps that the reader carries are not part of either.

## What is proved

* `Takes.rest`, `Takes.position`: the words taken are the text up to the place reached.
* `Takes.unique`: a text determines its words.
* `Takes.valid`: the stack reached is one that the automaton can build, and holds the words that mean
  something.
* `exists_takes_of_parseFrom`: every answer of the reader is that of the place where its course stops.
* `Takes.parseFrom_eq`: what is accepted at the end of a course is accepted.
-/

namespace Scriptlet.Parsing

open Scriptlet.Grammar Scriptlet.Lexical Scriptlet.Text

/-- The characters of words, one word after the other. -/
def spelled (ts : List Token) : List Char := ts.flatMap Token.word

@[simp] theorem spelled_nil : spelled [] = [] := rfl

@[simp] theorem spelled_cons (t : Token) (ts : List Token) :
    spelled (t :: ts) = t.word ++ spelled ts :=
  List.flatMap_cons

@[simp] theorem spelled_append (ts us : List Token) :
    spelled (ts ++ us) = spelled ts ++ spelled us :=
  List.flatMap_append

/-- The words read up to a place are the text before it. -/
theorem rest_of_readUpTo {c e : Cursor} {ts : List Token} (h : ReadUpTo c ts e) :
    c.rest = spelled ts ++ e.rest := by
  induction h with
  | nil => rfl
  | cons _ hnext _ ih => rw [spelled_cons, List.append_assoc, ← ih, (Cursor.next?_append hnext).1]

/-- The place that words are read up to is the one after them. -/
theorem position_of_readUpTo {c e : Cursor} {ts : List Token} (h : ReadUpTo c ts e) :
    e.position = c.position.advance (spelled ts) := by
  induction h with
  | nil => rfl
  | cons _ hnext _ ih =>
    have hstands := Cursor.stands_of_next? hnext
    rw [ih, hstands.after, hstands.stop, spelled_cons, Position.advance_append]

/-- What is looked for with a stack. -/
abbrev Stack.vocabulary (auto : Automaton) (stack : Stack) : Vocabulary :=
  (stack.state auto).vocabulary

/-- From a stack and a place in the text the reader comes to another stack and place by taking words, those
that are ignored included. -/
inductive Takes (auto : Automaton) : Stack → Cursor → List Token → Stack → Cursor → Prop where
  /-- No word is taken. -/
  | nil {stack : Stack} {c : Cursor} : Takes auto stack c [] stack c
  /-- A word that is ignored is left behind. -/
  | ignored {stack stack' : Stack} {c d c' : Cursor} {t : Token} {ts : List Token}
      (hnext : c.next? (stack.vocabulary auto) = some (t, d)) (hi : t.kind.isIgnored = true)
      (h : Takes auto stack d ts stack' c') : Takes auto stack c (t :: ts) stack' c'
  /-- A word is put on the stack. -/
  | word {stack stack' settled : Stack} {c d c' : Cursor} {t : Token} {ts : List Token} {n : Nat}
      (hnext : c.next? (stack.vocabulary auto) = some (t, d)) (hi : t.kind.isIgnored = false)
      (hsettle : settle auto (.word t.kind) (settleFuel stack) stack = .goOn settled n)
      (h : Takes auto (⟨n, .word t.kind, .leaf t⟩ :: settled) d ts stack' c') :
      Takes auto stack c (t :: ts) stack' c'

/-- What the reader answers where it takes no more words, if the last word that it has put on the stack
starts at `last`. -/
inductive Stops (auto : Automaton) (stack : Stack) (last : Position) (c : Cursor) :
    Except SyntaxError Sentence → Prop where
  /-- The text ends, and the stack is a sentence. -/
  | sentence {d : Sentence} (hrest : c.rest = [])
      (hsettle : settle auto .finish (settleFuel stack) stack = .done d) :
      Stops auto stack last c (.ok d)
  /-- The text ends, and the stack is no sentence. -/
  | finish {expected : LookaheadSet} (hrest : c.rest = [])
      (hsettle : ∀ d, settle auto .finish (settleFuel stack) stack ≠ .done d) :
      Stops auto stack last c (.error ⟨.unexpectedEnd expected, last⟩)
  /-- A word stands there that cannot be put on the stack. -/
  | word {t : Token} {d : Cursor} {expected : LookaheadSet}
      (hnext : c.next? (stack.vocabulary auto) = some (t, d)) (hi : t.kind.isIgnored = false)
      (hsettle : ∀ settled n,
        settle auto (.word t.kind) (settleFuel stack) stack ≠ .goOn settled n) :
      Stops auto stack last c (.error ⟨.unexpectedToken t.word expected, t.start⟩)
  /-- Nothing that is looked for stands there. -/
  | misfit (hrest : c.rest ≠ []) (hnext : c.next? (stack.vocabulary auto) = none) :
      Stops auto stack last c (.error (misfitError (stack.vocabulary auto) c))

/-- Where the last of the words that mean something starts, or `last` if there is none. -/
def lastStart (last : Position) (ts : List Token) : Position :=
  ((significant ts).getLast?.map Token.start).getD last

theorem lastStart_cons_of_not_ignored {t : Token} (h : t.kind.isIgnored = false) (last : Position)
    (ts : List Token) : lastStart last (t :: ts) = lastStart t.start ts := by
  rw [lastStart, significant_cons_of_not_ignored h, List.getLast?_cons, lastStart]
  cases (significant ts).getLast? <;> rfl

variable {auto : Automaton} {table : ItemTable} {stack stack' stack'' : Stack}
  {c c' c'' : Cursor} {ts us : List Token} {d : Sentence}

/-! ### What has been taken -/

theorem Takes.append (h : Takes auto stack c ts stack' c') (h' : Takes auto stack' c' us stack'' c'') :
    Takes auto stack c (ts ++ us) stack'' c'' := by
  induction h with
  | nil => exact h'
  | ignored hnext hi _ ih => exact .ignored hnext hi (ih h')
  | word hnext hi hsettle _ ih => exact .word hnext hi hsettle (ih h')

/-- The words taken are cut off one after the other. -/
theorem Takes.readUpTo (h : Takes auto stack c ts stack' c') : ReadUpTo c ts c' := by
  induction h with
  | nil => exact .nil _
  | ignored hnext _ _ ih | word hnext _ _ _ ih =>
    exact .cons (fun _ => State.vocabulary_of_isIgnored _) hnext ih

/-- The words taken are cut off the text. -/
theorem Takes.rest (h : Takes auto stack c ts stack' c') : c.rest = spelled ts ++ c'.rest :=
  rest_of_readUpTo h.readUpTo

/-- The place reached is the one after the words taken. -/
theorem Takes.position (h : Takes auto stack c ts stack' c') :
    c'.position = c.position.advance (spelled ts) :=
  position_of_readUpTo h.readUpTo

theorem Takes.split (h : Takes auto stack c (ts ++ us) stack' c') :
    ∃ middle d, Takes auto stack c ts middle d ∧ Takes auto middle d us stack' c' := by
  induction ts generalizing stack c with
  | nil => exact ⟨stack, c, .nil, h⟩
  | cons t ts ih =>
    cases h with
    | ignored hnext hi h =>
      obtain ⟨middle, d, hleft, hright⟩ := ih h
      exact ⟨middle, d, .ignored hnext hi hleft, hright⟩
    | word hnext hi hsettle h =>
      obtain ⟨middle, d, hleft, hright⟩ := ih h
      exact ⟨middle, d, .word hnext hi hsettle hleft, hright⟩

theorem Takes.rest_ne_nil {t : Token} (h : Takes auto stack c (t :: ts) stack' c') : c.rest ≠ [] := by
  cases h with
  | ignored hnext | word hnext =>
    obtain ⟨hword, hne⟩ := Cursor.next?_append hnext
    exact fun hnil => hne (List.append_eq_nil_iff.mp (hword.trans hnil)).1

/-- **The words of a text are determined by it**, and so is the stack that they lead to. -/
theorem Takes.unique (h : Takes auto stack c ts stack' c') (h' : Takes auto stack c us stack'' c'')
    (hend : c'.rest = []) (hend' : c''.rest = []) : ts = us ∧ stack' = stack'' := by
  induction h generalizing us with
  | nil =>
    cases us with
    | nil => cases h'; exact ⟨rfl, rfl⟩
    | cons => exact absurd hend h'.rest_ne_nil
  | @ignored stack stack' c d c' t ts hnext hi h ih =>
    cases h' with
    | nil => exact absurd hend' (Takes.ignored hnext hi h).rest_ne_nil
    | ignored hnext' _ h' =>
      obtain ⟨rfl, rfl⟩ := Prod.mk.inj (Option.some.inj (hnext.symm.trans hnext'))
      obtain ⟨rfl, rfl⟩ := ih h' hend
      exact ⟨rfl, rfl⟩
    | word hnext' hi' =>
      obtain ⟨rfl, rfl⟩ := Prod.mk.inj (Option.some.inj (hnext.symm.trans hnext'))
      rw [hi] at hi'
      cases hi'
  | @word stack stack' settled c d c' t ts n hnext hi hsettle h ih =>
    cases h' with
    | nil => exact absurd hend' (Takes.word hnext hi hsettle h).rest_ne_nil
    | ignored hnext' hi' =>
      obtain ⟨rfl, rfl⟩ := Prod.mk.inj (Option.some.inj (hnext.symm.trans hnext'))
      rw [hi] at hi'
      cases hi'
    | word hnext' _ hsettle' h' =>
      obtain ⟨rfl, rfl⟩ := Prod.mk.inj (Option.some.inj (hnext.symm.trans hnext'))
      obtain ⟨rfl, rfl⟩ := Answer.goOn.inj (hsettle.symm.trans hsettle')
      obtain ⟨rfl, rfl⟩ := ih h' hend
      exact ⟨rfl, rfl⟩

/-- A word starts right after the words taken before it. -/
theorem Takes.start_eq {t : Token} (h : Takes auto stack c (ts ++ t :: us) stack' c') :
    t.start = c.position.advance (spelled ts) := by
  obtain ⟨middle, d, hleft, hright⟩ := h.split
  rw [← hleft.position]
  cases hright with
  | ignored hnext | word hnext => exact (Cursor.stands_of_next? hnext).start

/-- Joining by rules before a lookahead keeps the words on a stack, and leads to a stack that the automaton
can build. -/
theorem Stack.Valid.settle {a : Lookahead} {fuel : Nat} {settled : Stack} {n : Nat}
    (hv : Stack.Valid auto stack) (h : settle auto a fuel stack = .goOn settled n) :
    Stack.Valid auto settled ∧ settled.tokens = stack.tokens ∧
      (settled.state auto).read? a = some n := by
  induction fuel generalizing stack with
  | zero => cases h
  | succ fuel ih =>
    rw [Parsing.settle] at h
    split at h
    · rename_i hread
      simp only [Answer.goOn.injEq] at h
      obtain ⟨rfl, rfl⟩ := h
      exact ⟨hv, rfl, hread⟩
    · split at h
      · cases h
      · split at h
        · rename_i joined hj
          obtain ⟨parts, m, hparts, ha, rfl⟩ := Stack.joinBy_eq_stack.mp hj
          obtain ⟨hvalid, htokens, hread⟩ := ih (.cons ha (hv.drop _)) h
          refine ⟨hvalid, ?_, hread⟩
          rw [htokens, Stack.tokens_cons, Stack.tokens_of_parts hparts, Derivation.tokens]
        · cases h
        · cases h

/-- **The stack reached is one that the automaton can build**, and the words taken that mean something
are on it. -/
theorem Takes.valid (hv : Stack.Valid auto stack) (h : Takes auto stack c ts stack' c') :
    Stack.Valid auto stack' ∧ stack'.tokens = stack.tokens ++ significant ts := by
  induction h with
  | nil => exact ⟨hv, (List.append_nil _).symm⟩
  | ignored _ hi _ ih =>
    rw [significant_cons_of_ignored hi]
    exact ih hv
  | word _ hi hsettle _ ih =>
    obtain ⟨hsettled, htokens, hread⟩ := hv.settle hsettle
    obtain ⟨hvalid, hstack⟩ := ih (.cons hread hsettled)
    refine ⟨hvalid, ?_⟩
    rw [hstack, Stack.tokens_cons, htokens, significant_cons_of_not_ignored hi, List.append_assoc]
    rfl

/-- **Acceptance goes the way of the reader**: what a stack accepts that begins with the words taken, the
stack reached accepts without them. -/
theorem Takes.accepts (hobeys : auto.Obeys table) (h : Takes auto stack c ts stack' c')
    (hacc : Accepts auto d stack (significant ts ++ us)) : Accepts auto d stack' us := by
  induction h with
  | nil => exact hacc
  | ignored _ hi _ ih =>
    rw [significant_cons_of_ignored hi] at hacc
    exact ih hacc
  | @word stack stack' settled c e c' t ts n _ hi hsettle _ ih =>
    rw [significant_cons_of_not_ignored hi, List.cons_append] at hacc
    obtain ⟨settled', n', hsettle', hnext⟩ := hacc.settle_word hobeys
    rw [hsettle' stack.potential_lt, Answer.goOn.injEq] at hsettle
    obtain ⟨rfl, rfl⟩ := hsettle
    exact ih hnext

/-! ### The next word -/

/-- What comes next at a place. -/
inductive Cursor.Meets (v : Vocabulary) (c : Cursor) : Reading → Prop where
  /-- Nothing. -/
  | finish (hrest : c.rest = []) : Meets v c .finish
  /-- A word that is not ignored. -/
  | token {t : Token} {d : Cursor} (hnext : c.next? v = some (t, d))
      (hi : t.kind.isIgnored = false) : Meets v c (.token t d)
  /-- Something that is not looked for. -/
  | misfit (hrest : c.rest ≠ []) (hnext : c.next? v = none) : Meets v c (.misfit c)

/-- The reader takes what is ignored until something else comes next. -/
theorem exists_takes_of_readFrom (auto : Automaton) (stack : Stack) {fuel : Nat}
    (hfuel : c.rest.length < fuel) :
    ∃ ts c', Takes auto stack c ts stack c' ∧ significant ts = [] ∧
      Cursor.Meets (stack.vocabulary auto) c' (readFrom (stack.vocabulary auto) fuel c) := by
  induction fuel generalizing c with
  | zero => cases hfuel
  | succ fuel ih =>
    rw [readFrom]
    split
    · next hnil => exact ⟨[], c, .nil, rfl, .finish (List.isEmpty_iff.mp hnil)⟩
    · next hnil =>
      have hrest : c.rest ≠ [] := fun h => hnil (List.isEmpty_iff.mpr h)
      split
      · next hnext => exact ⟨[], c, .nil, rfl, .misfit hrest hnext⟩
      · rename_i t c₁ hnext
        have hlen := Cursor.next?_length hnext
        split
        · next hi =>
          obtain ⟨ts, c', htakes, hts, hmeets⟩ := ih (c := c₁) (by omega)
          exact ⟨t :: ts, c', .ignored hnext hi htakes, by rw [significant_cons_of_ignored hi, hts],
            hmeets⟩
        · next hi => exact ⟨[], c, .nil, rfl, .token hnext (by simpa using hi)⟩

/-- The bound on the number of words that are ignored is never reached. -/
theorem readFrom_eq_read {v : Vocabulary} {fuel : Nat} (hfuel : c.rest.length < fuel) :
    readFrom v fuel c = read v c := by
  have henough : ∀ (fuel fuel' : Nat) (c : Cursor), c.rest.length < fuel → c.rest.length < fuel' →
      readFrom v fuel c = readFrom v fuel' c := by
    intro fuel
    induction fuel with
    | zero => exact fun _ _ h => absurd h (Nat.not_lt_zero _)
    | succ fuel ih =>
      intro fuel' c hfuel hfuel'
      obtain ⟨fuel', rfl⟩ := Nat.exists_eq_succ_of_ne_zero (Nat.ne_of_gt (Nat.zero_lt_of_lt hfuel'))
      rw [readFrom, readFrom]
      cases hnext : c.next? v with
      | none => rfl
      | some found =>
        obtain ⟨t, d⟩ := found
        have hlen := Cursor.next?_length hnext
        simp only [ih fuel' d (by omega) (by omega)]
  exact henough fuel _ c hfuel (Nat.lt_succ_self _)

theorem read_of_ignored {v : Vocabulary} {t : Token} (hnext : c.next? v = some (t, c'))
    (hi : t.kind.isIgnored = true) : read v c = read v c' := by
  rw [read, readFrom, not_isEmpty_of_next? hnext, hnext]
  simp only [hi, if_true, Bool.false_eq_true, if_false]
  exact readFrom_eq_read (Cursor.next?_length hnext)

theorem read_of_significant {v : Vocabulary} {t : Token} (hnext : c.next? v = some (t, c'))
    (hi : t.kind.isIgnored = false) : read v c = .token t c' := by
  rw [read, readFrom, not_isEmpty_of_next? hnext, hnext]
  simp only [hi, Bool.false_eq_true, if_false]

/-! ### Whole texts -/

/-- **Every answer of the reader is that of the place where its course stops.** -/
theorem exists_takes_of_parseFrom {fuel : Nat} (hfuel : c.rest.length < fuel) (last : Position) :
    ∃ ts stack' c', Takes auto stack c ts stack' c' ∧
      Stops auto stack' (lastStart last ts) c' (parseFrom auto fuel stack last c) := by
  induction fuel generalizing stack c last with
  | zero => cases hfuel
  | succ fuel ih =>
    obtain ⟨ts, c₁, htakes, hts, hmeets⟩ :=
      exists_takes_of_readFrom auto stack (Nat.lt_succ_self c.rest.length)
    have hlast : lastStart last ts = last := by rw [lastStart, hts]; rfl
    obtain ⟨r, hread, hmeets⟩ : ∃ r, read (stack.vocabulary auto) c = r ∧
        Cursor.Meets (stack.vocabulary auto) c₁ r := ⟨_, rfl, hmeets⟩
    rw [parseFrom, hread]
    cases hmeets with
    | finish hrest =>
      refine ⟨ts, stack, c₁, htakes, ?_⟩
      rw [hlast]
      dsimp only
      cases hsettle : settle auto .finish (settleFuel stack) stack with
      | done d => exact .sentence hrest hsettle
      | goOn settled n => exact .finish hrest fun d hdone => by rw [hsettle] at hdone; cases hdone
      | stop expected => exact .finish hrest fun d hdone => by rw [hsettle] at hdone; cases hdone
    | misfit hrest hnext => exact ⟨ts, stack, c₁, htakes, .misfit hrest hnext⟩
    | @token t c₂ hnext hi =>
      dsimp only
      cases hsettle : settle auto (.word t.kind) (settleFuel stack) stack with
      | goOn settled n =>
        have hlen := Cursor.next?_length hnext
        have hrest : c₁.rest.length ≤ c.rest.length := by
          rw [htakes.rest, List.length_append]
          exact Nat.le_add_left _ _
        obtain ⟨us, stack', c', htakes', hstops⟩ :=
          @ih (⟨n, .word t.kind, .leaf t⟩ :: settled) c₂ (by omega) t.start
        refine ⟨ts ++ t :: us, stack', c', htakes.append (.word hnext hi hsettle htakes'), ?_⟩
        have hstart : lastStart last (ts ++ t :: us) = lastStart t.start us := by
          rw [← lastStart_cons_of_not_ignored hi last us, lastStart, significant_append, hts,
            List.nil_append, lastStart]
        rw [hstart]
        exact hstops
      | done d =>
        refine ⟨ts, stack, c₁, htakes, .word hnext hi fun settled n hgoOn => ?_⟩
        rw [hsettle] at hgoOn
        cases hgoOn
      | stop expected =>
        refine ⟨ts, stack, c₁, htakes, .word hnext hi fun settled n hgoOn => ?_⟩
        rw [hsettle] at hgoOn
        cases hgoOn

theorem exists_takes_of_parseSentence (source : String) :
    ∃ ts stack c, Takes .ofGrammar [] (Cursor.ofString source) ts stack c ∧
      Stops .ofGrammar stack (lastStart .start ts) c (parseSentence source) :=
  exists_takes_of_parseFrom (Nat.lt_succ_self _) .start

/-- **What is a sentence at the end of the course is the answer of the reader.** -/
theorem Takes.parseFrom_eq (h : Takes auto stack c ts stack' c') (hrest : c'.rest = [])
    (hsettle : settle auto .finish (settleFuel stack') stack' = .done d) {fuel : Nat}
    (hfuel : c.rest.length < fuel) (last : Position) :
    parseFrom auto fuel stack last c = .ok d := by
  obtain ⟨fuel, rfl⟩ := Nat.exists_eq_succ_of_ne_zero (Nat.ne_of_gt (Nat.zero_lt_of_lt hfuel))
  induction h generalizing fuel last with
  | @nil stack c =>
    have hread : ∀ v, read v c = .finish := fun v => by rw [read, readFrom, hrest]; rfl
    rw [parseFrom, hread]
    simp only [hsettle]
  | @ignored stack stack' c e c' t ts hnext hi _ ih =>
    have hlen := Cursor.next?_length hnext
    rw [← ih hrest hsettle last fuel (by omega), parseFrom, parseFrom, read_of_ignored hnext hi]
  | @word stack stack' settled c e c' t ts n hnext hi hsettle' _ ih =>
    have hlen := Cursor.next?_length hnext
    obtain ⟨fuel, rfl⟩ := Nat.exists_eq_succ_of_ne_zero (show fuel ≠ 0 by omega)
    rw [parseFrom, read_of_significant hnext hi]
    simp only [hsettle']
    exact ih hrest hsettle t.start fuel (by omega)

end Scriptlet.Parsing
