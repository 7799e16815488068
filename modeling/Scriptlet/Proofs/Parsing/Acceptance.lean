import Scriptlet.Parsing.Parser
import Scriptlet.Proofs.Grammar.Items

/-!
# Accepting a row of words

What the automaton does with a row of words, without regard to how the words were found in a text:
`Accepts auto d stack ts` says that reading the words `ts` from a stack leads to the sentence `d`. The
reader of texts settles with one lookahead at a time and has a bound on its steps there; acceptance
knows neither.

## What is proved

* `accepts_tokens`: a sentence that prefers methods is accepted from its words, if the automaton obeys
  a table of items.
* `Accepts.unique`, `Accepts.tokens`: a row of words leads to one sentence, and it is made of these
  words.
* `Stack.potential_lt`, `Stack.potential_joinBy`: the bound on the steps is enough.
-/

namespace Scriptlet.Grammar

/-- How many rules of one part can end one after the other above a symbol at most. -/
def Symbol.height : Symbol → Nat
  | .word _ => 10
  | .phrase .program => 0
  | .phrase .statements => 1
  | .phrase .statement => 2
  | .phrase .arguments => 3
  | .phrase .expression => 4
  | .phrase .sum => 5
  | .phrase .product => 6
  | .phrase .chain => 7
  | .phrase .primary | .phrase .fields => 8
  | .phrase _ => 9

theorem Symbol.height_le (s : Symbol) : s.height ≤ 10 := by
  cases s with
  | word t => exact Nat.le_refl _
  | phrase c => cases c <;> decide

/-- A rule of one part goes down. -/
theorem Rule.height_makes_lt {r : Rule} {s : Symbol} (h : r.parts = [s]) :
    Symbol.height (.phrase r.makes) < s.height := by
  have all : ∀ c ∈ Category.all, ∀ r ∈ Rule.making c, ∀ s ∈ r.parts, r.parts = [s] →
      Symbol.height (.phrase r.makes) < s.height := by decide
  exact all r.makes r.makes.mem_all r r.mem_making s (h ▸ List.mem_cons_self) h

end Scriptlet.Grammar

namespace Scriptlet.Parsing

open Scriptlet.Grammar Scriptlet.Lexical

/-- The lookahead at the start of a row of words. -/
def ahead : List Token → Lookahead
  | [] => .finish
  | t :: _ => .word t.kind

@[simp] theorem ahead_nil : ahead [] = .finish := rfl

@[simp] theorem ahead_cons (t : Token) (ts : List Token) : ahead (t :: ts) = .word t.kind := rfl

theorem ahead_mem_byLabel {ts : List Token} (h : ∀ t ∈ ts, t.kind.isIgnored = false) :
    ahead ts ∈ Lookahead.byLabel := by
  cases ts with
  | nil => decide
  | cons t ts => exact Lookahead.mem_byLabel (h t List.mem_cons_self)

/-- Reading the words from the stack to their end leads to the sentence `d`. -/
inductive Accepts (auto : Automaton) (d : Sentence) : Stack → List Token → Prop where
  /-- A word is put on the stack. -/
  | shift {stack : Stack} {t : Token} {ts : List Token} {n : Nat}
      (hr : (stack.state auto).read? (.word t.kind) = some n)
      (h : Accepts auto d (⟨n, .word t.kind, .leaf t⟩ :: stack) ts) : Accepts auto d stack (t :: ts)
  /-- A rule comes to its end. -/
  | join {stack joined : Stack} {ts : List Token} {r : Rule}
      (hr : (stack.state auto).read? (ahead ts) = none)
      (hc : (stack.state auto).complete? (ahead ts) = some r)
      (hj : stack.joinBy auto r = .stack joined) (h : Accepts auto d joined ts) :
      Accepts auto d stack ts
  /-- The whole text is a sentence. -/
  | done {stack : Stack} {r : Rule} (hc : (stack.state auto).complete? .finish = some r)
      (hj : stack.joinBy auto r = .sentence d) : Accepts auto d stack []

variable {auto : Automaton} {d e : Sentence}

/-- A row of words leads to one sentence at most. -/
theorem Accepts.unique {stack : Stack} {ts : List Token} (hd : Accepts auto d stack ts)
    (he : Accepts auto e stack ts) : d = e := by
  induction hd with
  | shift hr _ ih =>
    cases he with
    | shift hr' he => rw [hr, Option.some.injEq] at hr'; exact ih (hr' ▸ he)
    | join hr' => rw [ahead_cons, hr] at hr'; cases hr'
  | join hr hc hj _ ih =>
    cases he with
    | shift hr' => rw [ahead_cons, hr'] at hr; cases hr
    | join _ hc' hj' he =>
      rw [hc, Option.some.injEq] at hc'
      rw [← hc', hj, Joined.stack.injEq] at hj'
      exact ih (hj' ▸ he)
    | done hc' hj' =>
      rw [ahead_nil, hc', Option.some.injEq] at hc
      rw [← hc, hj'] at hj
      cases hj
  | done hc hj =>
    cases he with
    | join _ hc' hj' =>
      rw [ahead_nil, hc, Option.some.injEq] at hc'
      rw [← hc', hj] at hj'
      cases hj'
    | done hc' hj' =>
      rw [hc, Option.some.injEq] at hc'
      rw [← hc', hj, Joined.sentence.injEq] at hj'
      exact hj'

/-! ### Joining -/

/-- Joining by a rule puts its phrase where the automaton leads to with it. -/
theorem Stack.joinBy_eq_stack {stack joined : Stack} {r : Rule} :
    stack.joinBy auto r = .stack joined ↔
      ∃ parts n, derivationsOf r.parts (stack.take r.parts.length).reverse = some parts ∧
        (Stack.state auto (stack.drop r.parts.length)).after? (.phrase r.makes) = some n ∧
        joined = ⟨n, .phrase r.makes, .node r parts⟩ :: stack.drop r.parts.length := by
  simp only [joinBy, join]
  cases derivationsOf r.parts (stack.take r.parts.length).reverse with
  | none => simp
  | some parts =>
    simp only [Option.map_some, Option.some.injEq]
    cases (Stack.state auto (stack.drop r.parts.length)).after? (.phrase r.makes) with
    | none => cases sentence? r.makes (.node r parts) <;> simp
    | some n => simp [eq_comm]

/-- Joining by a rule makes a sentence where the automaton leads nowhere with its phrase. -/
theorem Stack.joinBy_eq_sentence {stack : Stack} {r : Rule} :
    stack.joinBy auto r = .sentence d ↔
      ∃ parts, derivationsOf r.parts (stack.take r.parts.length).reverse = some parts ∧
        (Stack.state auto (stack.drop r.parts.length)).after? (.phrase r.makes) = none ∧
        sentence? r.makes (.node r parts) = some d := by
  simp only [joinBy, join]
  cases derivationsOf r.parts (stack.take r.parts.length).reverse with
  | none => simp
  | some parts =>
    simp only [Option.map_some, Option.some.injEq]
    cases (Stack.state auto (stack.drop r.parts.length)).after? (.phrase r.makes) with
    | none => cases hs : sentence? r.makes (.node r parts) <;> simp [hs]
    | some n => simp

/-! ### The words on a stack -/

/-- The words of the derivations on a stack, in order. -/
def Stack.tokens (stack : Stack) : List Token :=
  stack.reverse.flatMap fun cell => cell.derivation.tokens

@[simp] theorem Stack.tokens_cons (cell : Cell) (stack : Stack) :
    Stack.tokens (cell :: stack) = Stack.tokens stack ++ cell.derivation.tokens := by
  simp [Stack.tokens]

theorem tokens_of_derivationsOf {ss : List Symbol} {cells : List Cell} {ds : Derivations ss}
    (h : derivationsOf ss cells = some ds) :
    ds.tokens = cells.flatMap fun cell => cell.derivation.tokens := by
  induction ss generalizing cells with
  | nil =>
    cases cells with
    | nil => simp only [derivationsOf, Option.some.injEq] at h; rw [← h]; rfl
    | cons => cases h
  | cons s ss ih =>
    cases cells with
    | nil => cases h
    | cons cell cells =>
      obtain ⟨n, symbol, derivation⟩ := cell
      rw [derivationsOf] at h
      split at h
      · rename_i hs
        obtain ⟨others, ho, rfl⟩ := Option.map_eq_some_iff.mp h
        obtain rfl : symbol = s := hs
        rw [Derivations.tokens, List.flatMap_cons, ih ho]
      · cases h

/-- The words on the top of a stack and those below it are all its words. -/
theorem Stack.tokens_of_parts {stack : Stack} {ss : List Symbol} {n : Nat} {parts : Derivations ss}
    (h : derivationsOf ss (stack.take n).reverse = some parts) :
    stack.tokens = Stack.tokens (stack.drop n) ++ parts.tokens := by
  rw [tokens_of_derivationsOf h, tokens, tokens, ← List.flatMap_append, ← List.reverse_append,
    List.take_append_drop]

/-! ### Stacks that the automaton can build -/

/-- Every cell was put where the automaton leads to with its symbol. -/
inductive Stack.Valid (auto : Automaton) : Stack → Prop where
  /-- Nothing has been read. -/
  | nil : Valid auto []
  /-- One more symbol. -/
  | cons {n : Nat} {s : Symbol} {d : Derivation s} {below : Stack}
      (h : (Stack.state auto below).after? s = some n) (hb : Valid auto below) :
      Valid auto (⟨n, s, d⟩ :: below)

theorem Stack.Valid.drop {stack : Stack} (h : Stack.Valid auto stack) (n : Nat) :
    Stack.Valid auto (stack.drop n) := by
  induction h generalizing n with
  | nil => rw [List.drop_nil]; exact .nil
  | cons ha hb ih =>
    cases n with
    | zero => exact .cons ha hb
    | succ n => exact ih n

variable {table : ItemTable}

/-- An item of a rule that makes the program has read the whole stack, and no more than its rule has
parts. -/
theorem Stack.Valid.length_eq_dot {stack : Stack} (hobeys : auto.Obeys table)
    (h : Stack.Valid auto stack) {i : Item} (hi : table.Holds stack.number i)
    (hp : i.rule.makes = .program) : stack.length = i.dot ∧ i.dot ≤ i.rule.parts.length := by
  induction h generalizing i with
  | nil =>
    have hdot := hobeys.unread hi
    exact ⟨hdot.symm, by rw [hdot]; exact Nat.zero_le _⟩
  | cons ha hb ih =>
    have hdot : i.dot ≠ 0 := by
      intro hdot
      obtain ⟨r, dot⟩ := i
      obtain rfl : dot = 0 := hdot
      exact hobeys.first ha (hobeys.root hi hp)
    obtain ⟨j, hj, rfl, ss, hss⟩ := hobeys.back ha hi hdot
    have hlt : j.dot < j.rule.parts.length := by
      by_contra hge
      rw [Item.unread, List.drop_eq_nil_of_le (Nat.le_of_not_lt hge)] at hss
      cases hss
    exact ⟨by rw [List.length_cons, (ih hj hp).1]; rfl, hlt⟩

/-- Where a rule that makes the program comes to its end, it takes the whole stack. -/
theorem Stack.Valid.length_le {stack : Stack} (hobeys : auto.Obeys table)
    (h : Stack.Valid auto stack) {a : Lookahead} {r : Rule}
    (hc : (stack.state auto).complete? a = some r) (hp : r.makes = .program) :
    stack.length ≤ r.parts.length := by
  obtain ⟨i, hi, rfl, -⟩ := hobeys.complete hc
  obtain ⟨hlen, hle⟩ := h.length_eq_dot hobeys hi hp
  exact hlen ▸ hle

/-- Only a derivation of the program is a sentence. -/
theorem eq_program_of_sentence? {c : Category} {d : Derivation (.phrase c)}
    (h : sentence? c d = some e) : c = .program ∧ e.tokens = d.tokens := by
  cases c
  case program =>
    simp only [sentence?, Option.some.injEq] at h
    exact ⟨rfl, by rw [h]⟩
  all_goals cases h

/-- **The sentence accepted is made of the words** on the stack and of those read. -/
theorem Accepts.tokens {stack : Stack} {ts : List Token} (hobeys : auto.Obeys table)
    (hv : Stack.Valid auto stack) (h : Accepts auto d stack ts) : d.tokens = stack.tokens ++ ts := by
  induction h with
  | @shift stack t ts n hr _ ih =>
    rw [ih (.cons hr hv), Stack.tokens_cons, Derivation.tokens, List.append_assoc,
      List.singleton_append]
  | join _ _ hj _ ih =>
    obtain ⟨parts, n, hparts, ha, rfl⟩ := Stack.joinBy_eq_stack.mp hj
    rw [ih (.cons ha (hv.drop _)), Stack.tokens_cons, Stack.tokens_of_parts hparts]
    rfl
  | @done stack r hc hj =>
    obtain ⟨parts, hparts, -, hd⟩ := Stack.joinBy_eq_sentence.mp hj
    obtain ⟨hp, htokens⟩ := eq_program_of_sentence? hd
    have hempty : stack.drop r.parts.length = [] :=
      List.drop_eq_nil_of_le (hv.length_le hobeys hc hp)
    rw [htokens, Stack.tokens_of_parts hparts, hempty, List.append_nil]
    rfl

/-! ### Sentences are accepted -/

theorem symbols_of_derivationsOf {ss : List Symbol} {cells : List Cell} {ds : Derivations ss}
    (h : derivationsOf ss cells = some ds) : cells.map Cell.symbol = ss := by
  induction ss generalizing cells with
  | nil =>
    cases cells with
    | nil => rfl
    | cons => cases h
  | cons s ss ih =>
    cases cells with
    | nil => cases h
    | cons cell cells =>
      rw [derivationsOf] at h
      split at h
      · rename_i hs
        obtain ⟨others, ho, -⟩ := Option.map_eq_some_iff.mp h
        rw [List.map_cons, hs, ih ho]
      · cases h

theorem length_of_derivationsOf {ss : List Symbol} {cells : List Cell} {ds : Derivations ss}
    (h : derivationsOf ss cells = some ds) : cells.length = ss.length := by
  rw [← symbols_of_derivationsOf h, List.length_map]

/-- What may follow the first of some derivations is what the others start with, or, if there are no
others, what may follow them all. -/
theorem contains_ahead {s : Symbol} {ss : List Symbol} (ds : Derivations ss) {i : Item}
    (hi : i.unread = s :: ss) (ts : List Token) :
    (startsOf ss (.singleton (ahead ts))).contains (ahead (ds.tokens ++ ts)) := by
  cases ss with
  | nil =>
    cases ds
    exact (LookaheadSet.contains_singleton _ _).mpr rfl
  | cons s' ss =>
    have hs' : s' ≠ .phrase .program := by
      rintro rfl
      refine i.rule.program_notMem_parts (List.mem_of_mem_drop (i := i.dot) ?_)
      rw [← Item.unread, hi]
      exact List.mem_cons_of_mem _ List.mem_cons_self
    obtain ⟨t, us, ht, hc⟩ := ds.exists_head_starts rfl hs'
    rw [ht]
    exact hc

mutual

/-- A phrase that an item goes on with is read. -/
theorem accepts_phrase (hobeys : auto.Obeys table) {s : Symbol} (p : Derivation s)
    (hp : p.PrefersMethods) {stack : Stack} {ts : List Token} {i : Item} {a : Lookahead}
    {ss : List Symbol} {n : Nat} (hi : table.Has stack.number i a) (hu : i.unread = s :: ss)
    (ha : (startsOf ss (.singleton a)).contains (ahead ts))
    (hmethod : p.fieldParts? ≠ none → ahead ts ≠ .word .leftParen)
    (hwords : ∀ t ∈ p.tokens ++ ts, t.kind.isIgnored = false)
    (hn : (stack.state auto).after? s = some n) (h : Accepts auto d (⟨n, s, p⟩ :: stack) ts) :
    Accepts auto d stack (p.tokens ++ ts) := by
  cases p with
  | leaf token => exact .shift hn h
  | node rule parts =>
    have hrule : table.Has stack.number ⟨rule, 0⟩ (ahead ts) := hobeys.asks hi hu ha
    refine accepts_phrases hobeys parts hp.2 hrule rfl hp.1 hwords fun cells hcells hend => ?_
    have hlen := length_of_derivationsOf hcells
    obtain ⟨hr, hc⟩ := hobeys.ends hend (List.drop_eq_nil_of_le (by simp))
      (ahead_mem_byLabel fun t ht => hwords t (List.mem_append_right _ ht)) (by
        rintro ⟨hfield, hparen⟩
        obtain rfl : rule = .chainField := hfield
        exact hmethod nofun hparen)
    have hrev : rule.parts.length = cells.reverse.length := by rw [List.length_reverse, hlen]
    refine .join hr hc (Stack.joinBy_eq_stack.mpr ⟨parts, n, ?_, ?_, rfl⟩) ?_
    · rw [hrev, List.take_left, List.reverse_reverse, hcells]
    · rw [hrev, List.drop_left]
      exact hn
    · rw [hrev, List.drop_left]
      exact h

/-- The phrases that an item goes on with are read, one after the other. -/
theorem accepts_phrases (hobeys : auto.Obeys table) {ss : List Symbol} (ps : Derivations ss)
    (hps : ps.PreferMethods) {stack : Stack} {ts : List Token} {i : Item}
    (hi : table.Has stack.number i (ahead ts)) (hu : i.unread = ss)
    (hcall : i.rule.isCall → ps.NoField)
    (hwords : ∀ t ∈ ps.tokens ++ ts, t.kind.isIgnored = false)
    (h : ∀ cells : List Cell, derivationsOf ss cells = some ps →
      table.Has (Stack.number (cells.reverse ++ stack)) ⟨i.rule, i.dot + ss.length⟩ (ahead ts) →
      Accepts auto d (cells.reverse ++ stack) ts) :
    Accepts auto d stack (ps.tokens ++ ts) := by
  cases ps with
  | nil => exact h [] rfl hi
  | @cons s ss first others =>
    obtain ⟨n, hn, hnext⟩ := hobeys.reads hi hu
    have hfollow := contains_ahead others hu ts
    rw [Derivations.tokens, List.append_assoc] at hwords ⊢
    refine accepts_phrase hobeys first hps.1 hi hu hfollow ?_ hwords hn ?_
    · -- only a chain can be a field, and only a call goes on with a parenthesis after a chain
      intro hfield hparen
      have hs : s = .phrase .chain := by
        by_contra hs
        exact hfield (first.fieldParts?_eq_none hs)
      subst hs
      rw [hparen] at hfollow
      exact hfield (hcall (hobeys.calls hi hu hfollow)).1
    · have hu' : i.advance.unread = ss := by
        rw [Item.unread, Item.advance, ← List.drop_drop, ← Item.unread, hu, List.drop_one,
          List.tail_cons]
      refine accepts_phrases hobeys others hps.2 hnext hu' (fun hc => (hcall hc).2)
        (fun t ht => hwords t (List.mem_append_right _ ht)) fun cells hcells hend => ?_
      have hrev : (⟨n, s, first⟩ :: cells : List Cell).reverse ++ stack =
          cells.reverse ++ ⟨n, s, first⟩ :: stack := by simp
      rw [← hrev] at hend ⊢
      refine h _ (by simp [derivationsOf, hcells]) ?_
      rw [List.length_cons, Nat.add_comm ss.length, ← Nat.add_assoc]
      exact hend

end

theorem sentence?_of_heq {c : Category} {p : Derivation (.phrase c)} (hc : c = .program)
    (h : p ≍ d) : sentence? c p = some d := by
  subst hc
  rw [eq_of_heq h]
  rfl

theorem accepts_program (hobeys : auto.Obeys table) {s : Symbol} (p : Derivation s)
    (hs : s = .phrase .program) (hd : p ≍ d) (hp : p.PrefersMethods)
    (hwords : ∀ t ∈ p.tokens, t.kind.isIgnored = false) : Accepts auto d [] p.tokens := by
  cases p with
  | leaf token => cases hs
  | node rule parts =>
    have hmakes : rule.makes = .program := Symbol.phrase.inj hs
    rw [← List.append_nil (Derivation.tokens _)] at hwords ⊢
    refine accepts_phrases hobeys parts hp.2 (hobeys.start hmakes) rfl hp.1 hwords
      fun cells hcells hend => ?_
    have hlen := length_of_derivationsOf hcells
    have hfield : rule ≠ .chainField := by rintro rfl; cases hmakes
    obtain ⟨-, hc⟩ := hobeys.ends hend (List.drop_eq_nil_of_le (by simp)) (by decide)
      (fun h => hfield h.1)
    refine .done hc (Stack.joinBy_eq_sentence.mpr ⟨parts, ?_, ?_, sentence?_of_heq hmakes hd⟩)
    · rw [List.append_nil, List.take_of_length_le (by simp [hlen]), List.reverse_reverse, hcells]
    · rw [hmakes]
      exact hobeys.program _

/-- **A sentence that prefers methods is accepted** from its words. -/
theorem accepts_tokens (hobeys : auto.Obeys table) (hd : d.PrefersMethods) :
    Accepts auto d [] d.tokens :=
  accepts_program hobeys d rfl .rfl hd d.not_isIgnored_of_mem_tokens

/-! ### Settling -/

/-- A bound on the number of rules that can still end on a stack. -/
def Stack.potential : Stack → Nat
  | [] => 0
  | cell :: below => 16 * (below.length + 1) + cell.symbol.height

theorem Stack.potential_lt (stack : Stack) : stack.potential < settleFuel stack := by
  cases stack with
  | nil => decide
  | cons cell below =>
    have := cell.symbol.height_le
    simp only [potential, settleFuel, List.length_cons]
    omega

/-- Every rule that ends brings the bound down. -/
theorem Stack.potential_joinBy (hobeys : auto.Obeys table) {stack joined : Stack} {r : Rule}
    (hj : stack.joinBy auto r = .stack joined) : joined.potential < stack.potential := by
  obtain ⟨parts, n, hparts, hn, rfl⟩ := joinBy_eq_stack.mp hj
  have hlen := length_of_derivationsOf hparts
  rw [List.length_reverse, List.length_take] at hlen
  cases stack with
  | nil =>
    have hr : r.parts = [] := List.eq_nil_of_length_eq_zero (by simpa using hlen.symm)
    rw [Rule.makes_of_parts_nil hr, state, hobeys.program] at hn
    cases hn
  | cons cell below =>
    rw [List.length_cons] at hlen
    have hheight := Symbol.height_le (.phrase r.makes)
    simp only [potential, List.length_drop, List.length_cons]
    match hr : r.parts with
    | [] =>
      rw [Rule.makes_of_parts_nil hr, state, hobeys.program] at hn
      cases hn
    | [s] =>
      -- a rule of one part leaves the stack as high as it was
      have hs : cell.symbol = s := by
        have hsymbols := symbols_of_derivationsOf hparts
        rw [hr] at hsymbols
        simpa using hsymbols
      have := Rule.height_makes_lt hr
      simp only [List.length_singleton]
      rw [hs]
      omega
    | s :: s' :: ss =>
      rw [hr] at hlen
      simp only [List.length_cons] at hlen ⊢
      omega

end Scriptlet.Parsing
