import Mathlib.Tactic.ByContra
import Scriptlet.Grammar.Automaton
import Scriptlet.Grammar.Derivation
import Scriptlet.Proofs.Grammar.Preference

/-!
# What the items of the states promise

The survey of the grammar keeps the items of every state, and the automaton only what follows from
them. An automaton obeys a table of items if the items are closed: what an item can go on with leads to
a state with the item after it, a phrase that an item asks for brings in all rules that make it, and an
item that has come to its end ends its rule. The one exception is the end of a field access before an
opening parenthesis.

That the automaton of the grammar obeys the items of its survey is computed, once, for all states.

## What is proved

* `Derivation.exists_head_starts`: a phrase is never empty and starts with a word that it can start
  with.
* `ofGrammar_obeys`: the automaton of the grammar obeys the items of the survey.
-/

namespace Scriptlet.Grammar

open Scriptlet.Lexical

/-! ### Sets of lookaheads -/

theorem Lookahead.bit_injective {a b : Lookahead} (h : a.bit = b.bit) : a = b := by
  cases a with
  | finish =>
    cases b with
    | finish => rfl
    | word u => simp [bit] at h
  | word t =>
    cases b with
    | finish => simp [bit] at h
    | word u =>
      have hi : t.ctorIdx = u.ctorIdx := Nat.succ.inj h
      rw [← Terminal.ofNat_ctorIdx t, hi, Terminal.ofNat_ctorIdx u]

namespace LookaheadSet

@[simp] theorem contains_singleton (a b : Lookahead) : (singleton a).contains b ↔ a = b := by
  rw [contains, singleton, Nat.one_shiftLeft, Nat.testBit_two_pow, decide_eq_true_eq]
  exact ⟨Lookahead.bit_injective, congrArg Lookahead.bit⟩

/-- All lookaheads of the set are in the other one. -/
def subset (s t : LookaheadSet) : Bool := s.union t = t

theorem contains_of_subset {s t : LookaheadSet} {a : Lookahead} (h : s.subset t)
    (ha : s.contains a) : t.contains a := by
  rw [subset, decide_eq_true_eq] at h
  rw [← h, contains_union, ha, Bool.true_or]

end LookaheadSet

/-! ### What phrases start with -/

/-- The lookaheads that a phrase can start with hold those that the first parts of its rules can start
with, and no rule but that of the empty program is without parts. The program is part of no rule. -/
def startsClosed : Bool :=
  Category.all.all fun c => (Rule.making c).all fun r =>
    !r.parts.contains (.phrase .program) &&
      match r.parts with
      | [] => c = .program
      | s :: _ => (startsOfSymbol starts s).subset (starts.get c)

theorem startsClosed_eq_true : startsClosed = true := by decide +kernel

private theorem startsClosed_at (r : Rule) :
    (!r.parts.contains (.phrase .program) &&
      match r.parts with
      | [] => r.makes = .program
      | s :: _ => (startsOfSymbol starts s).subset (starts.get r.makes)) = true := by
  have h := startsClosed_eq_true
  rw [startsClosed, List.all_eq_true] at h
  exact List.all_eq_true.mp (h r.makes r.makes.mem_all) r r.mem_making

/-- The program is part of no rule. -/
theorem Rule.program_notMem_parts (r : Rule) : .phrase .program ∉ r.parts := by
  have h := startsClosed_at r
  rw [Bool.and_eq_true] at h
  simpa using h.1

/-- Only the program can be empty. -/
theorem Rule.makes_of_parts_nil {r : Rule} (h : r.parts = []) : r.makes = .program := by
  have hr := startsClosed_at r
  rw [h, Bool.and_eq_true] at hr
  simpa using hr.2

/-- A phrase can start with what the first part of its rule can start with. -/
theorem Rule.subset_starts {r : Rule} {s : Symbol} {ss : List Symbol} (h : r.parts = s :: ss) :
    (startsOfSymbol starts s).subset (starts.get r.makes) := by
  have hr := startsClosed_at r
  rw [h, Bool.and_eq_true] at hr
  exact hr.2

mutual

/-- A phrase that is not the program has a first word, and can start with it. -/
theorem Derivation.exists_head_starts {s : Symbol} (d : Derivation s) (hs : s ≠ .phrase .program) :
    ∃ t ts, d.tokens = t :: ts ∧ (startsOfSymbol starts s).contains (.word t.kind) := by
  cases d with
  | leaf token => exact ⟨token, [], rfl, by simp [startsOfSymbol]⟩
  | node rule parts =>
    cases hr : rule.parts with
    | nil => exact absurd (congrArg Symbol.phrase (Rule.makes_of_parts_nil hr)) hs
    | cons first others =>
      have hfirst : first ≠ .phrase .program := fun e =>
        rule.program_notMem_parts (by rw [hr, e]; exact List.mem_cons_self)
      obtain ⟨t, ts, ht, hc⟩ := parts.exists_head_starts hr hfirst
      exact ⟨t, ts, ht, LookaheadSet.contains_of_subset (Rule.subset_starts hr) hc⟩

/-- Derivations of symbols that do not start with the program have a first word, and the first symbol
can start with it. -/
theorem Derivations.exists_head_starts {ss : List Symbol} (ds : Derivations ss) {s : Symbol}
    {others : List Symbol} (hss : ss = s :: others) (hs : s ≠ .phrase .program) :
    ∃ t ts, ds.tokens = t :: ts ∧ (startsOfSymbol starts s).contains (.word t.kind) := by
  cases ds with
  | nil => cases hss
  | cons first rest =>
    obtain ⟨rfl, rfl⟩ := List.cons.inj hss
    obtain ⟨t, ts, ht, hc⟩ := first.exists_head_starts hs
    exact ⟨t, ts ++ rest.tokens, by rw [Derivations.tokens, ht, List.cons_append], hc⟩

end

/-- A phrase that is not the program has words. -/
theorem Derivation.tokens_ne_nil {s : Symbol} (d : Derivation s) (hs : s ≠ .phrase .program) :
    d.tokens ≠ [] := by
  obtain ⟨t, ts, htokens, -⟩ := d.exists_head_starts hs
  rw [htokens]
  exact List.cons_ne_nil t ts

/-! ### Tables of items -/

/-- The items of the states, by the numbers of the states. -/
abbrev ItemTable := Nat → List Prospect

/-- A state has an item that the lookahead may follow. -/
def ItemTable.Has (table : ItemTable) (n : Nat) (i : Item) (a : Lookahead) : Prop :=
  ∃ p ∈ table n, p.item = i ∧ p.ahead.contains a

/-- A state has an item, whatever may follow it. -/
def ItemTable.Holds (table : ItemTable) (n : Nat) (i : Item) : Prop := ∃ p ∈ table n, p.item = i

/-- The end of a field access before an opening parenthesis, where reading on is preferred. -/
def Item.Deferred (i : Item) (a : Lookahead) : Prop :=
  i.rule = .chainField ∧ a = .word .leftParen

instance (i : Item) (a : Lookahead) : Decidable (i.Deferred a) :=
  inferInstanceAs (Decidable (_ ∧ _))

/-- The automaton does what the items of its states promise. -/
structure Automaton.Obeys (auto : Automaton) (table : ItemTable) : Prop where
  /-- The first state asks for a program that ends with the text. -/
  start : ∀ {r : Rule}, r.makes = .program → table.Has 0 ⟨r, 0⟩ .finish
  /-- What an item can go on with leads to a state with the item after it. -/
  reads : ∀ {n i a s ss}, table.Has n i a → i.unread = s :: ss →
    ∃ m, (auto.state n).after? s = some m ∧ table.Has m i.advance a
  /-- A phrase that an item asks for brings in the rules that make it. -/
  asks : ∀ {n i a r ss b}, table.Has n i a → i.unread = .phrase r.makes :: ss →
    (startsOf ss (.singleton a)).contains b → table.Has n ⟨r, 0⟩ b
  /-- An item that has come to its end ends its rule, unless that is deferred. -/
  ends : ∀ {n i a}, table.Has n i a → i.unread = [] → a ∈ Lookahead.byLabel → ¬ i.Deferred a →
    (auto.state n).read? a = none ∧ (auto.state n).complete? a = some i.rule
  /-- A chain that an opening parenthesis may follow is what a call calls. -/
  calls : ∀ {n i a ss}, table.Has n i a → i.unread = .phrase .chain :: ss →
    (startsOf ss (.singleton a)).contains (.word .leftParen) → i.rule.isCall
  /-- The program leads nowhere. -/
  program : ∀ n, (auto.state n).after? (.phrase .program) = none
  /-- A rule ends only where one of its items does. -/
  complete : ∀ {n a r}, (auto.state n).complete? a = some r →
    ∃ i, table.Holds n i ∧ i.rule = r ∧ i.unread = []
  /-- An item whose dot has moved comes from one in every state that leads here. -/
  back : ∀ {m n s i}, (auto.state m).after? s = some n → table.Holds n i → i.dot ≠ 0 →
    ∃ j, table.Holds m j ∧ j.advance = i ∧ ∃ ss, j.unread = s :: ss
  /-- Nothing leads to the first state. -/
  first : ∀ {m s n}, (auto.state m).after? s = some n → n ≠ 0
  /-- In the first state nothing has been read. -/
  unread : ∀ {i}, table.Holds 0 i → i.dot = 0
  /-- Only the first state asks for a program. -/
  root : ∀ {n r}, table.Holds n ⟨r, 0⟩ → r.makes = .program → n = 0

/-! ### The items of a survey -/

namespace Survey

/-- The items of the states found in a survey. -/
def table (v : Survey) : ItemTable := fun n => (v.found.map fun (_, k) => k.items).getD n []

/-- An item is among those given, and so are the lookaheads that may follow it. -/
def covers (items : List Prospect) (i : Item) (ahead : LookaheadSet) : Bool :=
  items.any fun q => q.item = i && ahead.subset q.ahead

/-- A state ends the rule of an item before the lookaheads that may follow it. -/
def endsRule (state : State) (p : Prospect) : Bool :=
  Lookahead.byLabel.all fun a =>
    !p.ahead.contains a || p.item.Deferred a ||
      (state.read? a = none && state.complete? a = some p.item.rule)

/-- What an item of a state promises is kept: what it can go on with, what it asks for, and what it
ends. -/
def keeps (table : ItemTable) (state : State) (items : List Prospect) (p : Prospect) : Bool :=
  match p.item.unread with
  | [] => endsRule state p
  | s :: ss =>
    (match state.after? s with
      | none => false
      | some m => covers (table m) p.item.advance p.ahead) &&
    match s with
    | .word _ => true
    | .phrase c =>
      (Rule.making c).all (fun r => covers items ⟨r, 0⟩ (startsOf ss p.ahead)) &&
        (c ≠ .chain || !(startsOf ss p.ahead).contains (.word .leftParen) || p.item.rule.isCall)

/-- The items of a state whose dot has moved over a symbol come from the items given. -/
def comesFrom (items : List Prospect) (s : Symbol) (target : List Prospect) : Bool :=
  target.all fun q =>
    q.item.dot = 0 || items.any fun p => p.item.advance = q.item && p.item.unread.head? = some s

/-- What the items of a state promise is kept, and the state leads only to items that its own items
lead to. -/
def keepsAt (v : Survey) (auto : Automaton) (n : Nat) : Bool :=
  (auto.state n).after? (.phrase .program) = none &&
    (v.table n).all (keeps v.table (auto.state n) (v.table n)) &&
    (auto.state n).edges.all (fun (s, m) => m ≠ 0 && comesFrom (v.table n) s (v.table m)) &&
    (n = 0 || (v.table n).all fun p => p.item.dot ≠ 0 || p.item.rule.makes ≠ .program)

/-- What the items of all states promise is kept. -/
def isClosed (v : Survey) : Bool :=
  (Rule.making .program).all (fun r => covers (v.table 0) ⟨r, 0⟩ (.singleton .finish)) &&
    (v.table 0).all (fun p => p.item.dot = 0) &&
    (List.range v.found.length).all (v.keepsAt (.ofSurvey v))

end Survey

/-! ### Closed surveys are obeyed -/

theorem startsOf_mono {ss : List Symbol} {ahead : LookaheadSet} {a b : Lookahead}
    (ha : ahead.contains a) (hb : (startsOf ss (.singleton a)).contains b) :
    (startsOf ss ahead).contains b := by
  cases ss with
  | nil =>
    obtain rfl := (LookaheadSet.contains_singleton a b).mp hb
    exact ha
  | cons s ss => exact hb

namespace Survey

variable {v : Survey}

theorem exists_of_covers {items : List Prospect} {i : Item} {ahead : LookaheadSet} {a : Lookahead}
    (h : covers items i ahead) (ha : ahead.contains a) :
    ∃ q ∈ items, q.item = i ∧ q.ahead.contains a := by
  obtain ⟨q, hq, h⟩ := List.any_eq_true.mp h
  rw [Bool.and_eq_true, decide_eq_true_eq] at h
  exact ⟨q, hq, h.1, LookaheadSet.contains_of_subset h.2 ha⟩

theorem keepsAt_of_isClosed {n : Nat} (h : v.isClosed) (hn : n < v.found.length) :
    v.keepsAt (.ofSurvey v) n := by
  rw [isClosed, Bool.and_eq_true] at h
  exact List.all_eq_true.mp h.2 n (List.mem_range.mpr hn)

/-- There are items only where there is a state. -/
theorem lt_of_mem_table {n : Nat} {p : Prospect} (h : p ∈ v.table n) : n < v.found.length := by
  by_contra hn
  rw [table, List.getD_eq_getElem?_getD, List.getElem?_eq_none (by simpa using hn)] at h
  cases h

/-- Where no state has been found, the automaton has one that leads nowhere. -/
theorem state_ofSurvey_of_le {n : Nat} (h : v.found.length ≤ n) :
    (Automaton.ofSurvey v).state n = ⟨[], []⟩ := by
  rw [Automaton.state, Automaton.ofSurvey, Array.getD_eq_getD_getElem?,
    Array.getElem?_eq_none (by simpa using h)]
  rfl

/-- Where a state has been found, the automaton has that of its kernel. -/
theorem state_ofSurvey_of_lt {n : Nat} (h : n < v.found.length) :
    (Automaton.ofSurvey v).state n =
      State.ofKernel (fun s k => (v.number? s k).getD 0) v.found[n].2 := by
  rw [Automaton.state, Automaton.ofSurvey, Array.getD_eq_getD_getElem?,
    List.getElem?_toArray, List.getElem?_map, List.getElem?_eq_getElem h]
  rfl

/-- Where a state has been found, its items are those of its kernel. -/
theorem table_of_lt {n : Nat} (h : n < v.found.length) : v.table n = v.found[n].2.items := by
  rw [table, List.getD_eq_getElem?_getD, List.getElem?_map, List.getElem?_eq_getElem h]
  rfl

theorem keeps_of_mem_table {n : Nat} {p : Prospect} (h : v.isClosed) (hp : p ∈ v.table n) :
    keeps v.table ((Automaton.ofSurvey v).state n) (v.table n) p := by
  have hk := keepsAt_of_isClosed h (lt_of_mem_table hp)
  simp only [keepsAt, Bool.and_eq_true] at hk
  exact List.all_eq_true.mp hk.1.1.2 p hp

/-- What a state leads to comes from its items. -/
theorem comesFrom_of_after? {m n : Nat} {s : Symbol} (h : v.isClosed)
    (ha : ((Automaton.ofSurvey v).state m).after? s = some n) :
    n ≠ 0 ∧ comesFrom (v.table m) s (v.table n) := by
  by_cases hm : m < v.found.length
  · have hk := keepsAt_of_isClosed h hm
    simp only [keepsAt, Bool.and_eq_true] at hk
    obtain ⟨before, after, hedges, -⟩ := List.lookup_eq_some_iff.mp ha
    have he := List.all_eq_true.mp hk.1.2 (s, n) (by simp [hedges])
    simpa using he
  · rw [state_ofSurvey_of_le (Nat.le_of_not_lt hm)] at ha
    cases ha

/-- **An automaton obeys the items of its survey**, if what these promise is kept. -/
theorem obeys_of_isClosed (h : v.isClosed) : (Automaton.ofSurvey v).Obeys v.table where
  start := by
    intro r hr
    simp only [isClosed, Bool.and_eq_true] at h
    have hc := List.all_eq_true.mp h.1.1 r (hr ▸ r.mem_making)
    exact exists_of_covers hc (by simp)
  reads := by
    rintro n i a s ss ⟨p, hp, rfl, ha⟩ hs
    have hk := keeps_of_mem_table h hp
    rw [keeps, hs] at hk
    simp only [Bool.and_eq_true] at hk
    cases hm : ((Automaton.ofSurvey v).state n).after? s with
    | none => simp [hm] at hk
    | some m =>
      simp only [hm] at hk
      exact ⟨m, rfl, exists_of_covers hk.1 ha⟩
  asks := by
    rintro n i a r ss b ⟨p, hp, rfl, ha⟩ hs hb
    have hk := keeps_of_mem_table h hp
    rw [keeps, hs] at hk
    simp only [Bool.and_eq_true] at hk
    have hr := List.all_eq_true.mp hk.2.1 r r.mem_making
    exact exists_of_covers hr (startsOf_mono ha hb)
  ends := by
    rintro n i a ⟨p, hp, rfl, ha⟩ hs hmem hdefer
    have hk := keeps_of_mem_table h hp
    rw [keeps, hs] at hk
    have he := List.all_eq_true.mp hk a hmem
    simpa [ha, hdefer] using he
  calls := by
    rintro n i a ss ⟨p, hp, rfl, ha⟩ hs hparen
    have hk := keeps_of_mem_table h hp
    rw [keeps, hs] at hk
    simp only [Bool.and_eq_true] at hk
    simpa [startsOf_mono ha hparen] using hk.2.2
  program := by
    intro n
    by_cases hn : n < v.found.length
    · have hk := keepsAt_of_isClosed h hn
      simp only [keepsAt, Bool.and_eq_true, decide_eq_true_eq] at hk
      exact hk.1.1.1
    · rw [state_ofSurvey_of_le (Nat.le_of_not_lt hn)]
      rfl
  complete := by
    intro n a r hc
    by_cases hn : n < v.found.length
    · rw [state_ofSurvey_of_lt hn, State.complete?] at hc
      obtain ⟨⟨r', ahead⟩, hmem, hc⟩ := List.exists_of_findSome?_eq_some hc
      rw [State.ofKernel, List.mem_filterMap] at hmem
      obtain ⟨p, hp, hend⟩ := hmem
      simp only [Option.ite_none_right_eq_some, Option.some.injEq, Prod.mk.injEq] at hend hc
      obtain ⟨hend, rfl, rfl⟩ := hend
      exact ⟨p.item, ⟨p, table_of_lt hn ▸ hp, rfl⟩, hc.2, List.isEmpty_iff.mp hend⟩
    · rw [state_ofSurvey_of_le (Nat.le_of_not_lt hn)] at hc
      cases hc
  back := by
    rintro m n s i ha ⟨q, hq, rfl⟩ hdot
    have hc := List.all_eq_true.mp (comesFrom_of_after? h ha).2 q hq
    simp only [hdot, decide_false, Bool.false_or] at hc
    obtain ⟨p, hp, hpq⟩ := List.any_eq_true.mp hc
    simp only [Bool.and_eq_true, decide_eq_true_eq, List.head?_eq_some_iff] at hpq
    exact ⟨p.item, ⟨p, hp, rfl⟩, hpq⟩
  first := fun ha => (comesFrom_of_after? h ha).1
  unread := by
    rintro i ⟨p, hp, rfl⟩
    simp only [isClosed, Bool.and_eq_true] at h
    simpa using List.all_eq_true.mp h.1.2 p hp
  root := by
    rintro n r ⟨p, hp, hr⟩ hmakes
    have hk := keepsAt_of_isClosed h (lt_of_mem_table hp)
    simp only [keepsAt, Bool.and_eq_true, Bool.or_eq_true, decide_eq_true_eq] at hk
    rcases hk.2 with hn | hall
    · exact hn
    · have hp' := List.all_eq_true.mp hall p hp
      simp [hr, hmakes] at hp'

end Survey

/-! ### The automaton of the grammar -/

/-- What the items of the states of the grammar promise is kept. -/
theorem isClosed_survey : survey.isClosed = true := by decide +kernel

/-- **The automaton of the grammar obeys the items of its states.** -/
theorem ofGrammar_obeys : Automaton.ofGrammar.Obeys survey.table :=
  Survey.obeys_of_isClosed isClosed_survey

end Scriptlet.Grammar
