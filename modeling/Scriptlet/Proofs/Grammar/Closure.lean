import Mathlib.Data.List.Nodup
import Mathlib.Logic.Relation
import Scriptlet.Proofs.Grammar.Items

/-!
# Why an item is in its state

The items of a state are those whose dot has just moved and the rules of the phrases that these ask
for, directly or because a phrase asked for starts with another one. So no item is there without a
reason: a rule of which nothing has been read makes a phrase that an item with a moved dot asks for, or,
in the first state, the program.

## What is proved

* `Follow.corners_within`: the phrases asked for beside a phrase are those that it can start with.
* `Kernel.mem_items`: an item of a state is one that it starts out with, or has a reason there.
* `ofGrammar_grounded`: every item of the automaton of the grammar has a reason.
-/

namespace Scriptlet.Grammar

open Relation

/-! ### The phrases asked for -/

/-- A rule of the first kind of phrase starts with a phrase of the second kind. -/
def Category.Heads (c d : Category) : Prop :=
  ∃ r : Rule, r.makes = c ∧ ∃ ss, r.parts = .phrase d :: ss

/-- A phrase of the first kind can start with one of the second kind, itself included. -/
abbrev Category.LeadsTo : Category → Category → Prop := ReflTransGen Category.Heads

theorem LookaheadSet.isEmpty_iff {s : LookaheadSet} : s.isEmpty = true ↔ s = .empty := by
  obtain ⟨bits⟩ := s
  simp [isEmpty, empty]

theorem LookaheadSet.isEmpty_union {s t : LookaheadSet} :
    (s.union t).isEmpty = (s.isEmpty && t.isEmpty) := by
  rw [Bool.eq_iff_iff]
  simp [isEmpty, union, Nat.or_eq_zero_iff]

/-- In the list of all kinds of phrase each one stands at its own number only. -/
theorem Category.number_of_getElem? {n : Nat} {c : Category} (h : all[n]? = some c) :
    c.number = n := by
  have hnodup : all.Nodup := by decide
  obtain ⟨hn, hget⟩ := List.getElem?_eq_some_iff.mp h
  obtain ⟨hc, hget'⟩ := List.getElem?_eq_some_iff.mp (getElem?_number c)
  exact hnodup.getElem_inj_iff.mp (hget'.trans hget.symm)

theorem Category.number_injective {c d : Category} (h : c.number = d.number) : c = d :=
  Option.some.inj ((getElem?_number c).symm.trans (h ▸ getElem?_number d))

namespace Follow

variable {f g : Follow} {p : Category → Prop}

/-- Only phrases of the kinds given have lookaheads. -/
def Within (p : Category → Prop) (f : Follow) : Prop :=
  ∀ c, (f.get c).isEmpty = false → p c

theorem get_eq_getElem? (c : Category) : f.get c = f.sets[c.number]?.getD .empty :=
  List.getD_eq_getElem?_getD

theorem within_empty : Within p empty := by
  intro c hc
  have : empty.get c = .empty := by
    rw [get_eq_getElem?, empty, List.getElem?_map]
    cases Category.all[c.number]? <;> rfl
  rw [this] at hc
  cases hc

theorem Within.add {c : Category} {s : LookaheadSet} (h : Within p f) (hc : p c) :
    Within p (f.add c s) := by
  intro d hd
  by_cases hcd : c = d
  · exact hcd ▸ hc
  · have hget : (f.add c s).get d = f.get d := by
      rw [get_eq_getElem?, get_eq_getElem?, Follow.add,
        List.getElem?_modify_ne _ _ fun hn => hcd (Category.number_injective hn)]
    exact h d (hget ▸ hd)

theorem Within.union (hf : Within p f) (hg : Within p g) : Within p (f.union g) := by
  intro c hc
  rw [get_eq_getElem?, Follow.union, List.getElem?_zipWith] at hc
  have hf := hf c
  have hg := hg c
  rw [get_eq_getElem?] at hf hg
  cases hs : f.sets[c.number]? with
  | none => rw [hs] at hc; cases hc
  | some s =>
    cases ht : g.sets[c.number]? with
    | none => rw [hs, ht] at hc; cases hc
    | some t =>
      simp only [hs, ht, Option.getD_some, LookaheadSet.isEmpty_union, Bool.and_eq_false_iff] at *
      exact hc.elim hf hg

theorem get_instead (s : LookaheadSet) (c : Category) :
    (f.instead s).get c = (f.get c).instead s := by
  rw [get_eq_getElem?, get_eq_getElem?, Follow.instead, List.getElem?_map]
  cases f.sets[c.number]? with
  | none =>
    show LookaheadSet.empty = if LookaheadSet.empty.contains .finish then _ else .empty
    rw [LookaheadSet.contains_empty, if_neg Bool.false_ne_true]
  | some t => rfl

theorem Within.instead {s : LookaheadSet} (h : Within p f) : Within p (f.instead s) := by
  intro c hc
  refine h c ?_
  rw [Bool.eq_false_iff]
  intro hempty
  rw [get_instead, LookaheadSet.isEmpty_iff.mp hempty, LookaheadSet.instead,
    LookaheadSet.contains_empty, if_neg Bool.false_ne_true] at hc
  cases hc

theorem Within.growDemand {c : Category} (h : Within c.LeadsTo f) :
    Within c.LeadsTo (growDemand f) := by
  rw [Grammar.growDemand]
  refine List.foldlRecOn (motive := Within c.LeadsTo) _ _ h fun f hf d _ => ?_
  split
  · exact hf
  · next hd =>
    have hasked : c.LeadsTo d := hf d (Bool.not_eq_true _ ▸ hd)
    refine List.foldlRecOn (motive := Within c.LeadsTo) _ _ hf fun g hg r hr => ?_
    split
    · next e others hparts =>
      exact hg.add (hasked.tail ⟨r, Rule.makes_of_mem_making hr, others, hparts⟩)
    · exact hg

end Follow

/-- What one application keeps, applying until nothing changes keeps. -/
theorem untilStable_induction {α : Type} [DecidableEq α] {f : α → α} {P : α → Prop}
    (h : ∀ a, P a → P (f a)) (fuel : Nat) {a : α} (ha : P a) : P (untilStable f fuel a) := by
  induction fuel generalizing a with
  | zero => exact ha
  | succ fuel ih =>
    rw [untilStable]
    split
    · exact ha
    · exact ih (h a ha)

/-- **The phrases asked for beside a phrase are those that it can start with.** -/
theorem Follow.corners_within (c : Category) : Follow.Within c.LeadsTo (corners c) := by
  unfold corners
  exact untilStable_induction (P := Follow.Within c.LeadsTo) (fun _ => Follow.Within.growDemand) _
    (Follow.within_empty.add ReflTransGen.refl)

/-! ### The items of a state -/

/-- The phrases that the items of a kernel ask for, and those that these can start with. The kernel of
the first state asks for the program. -/
def Kernel.AsksFor (k : Kernel) (d : Category) : Prop :=
  (k = [] ∧ Category.program.LeadsTo d) ∨
    ∃ q ∈ k, ∃ c ss, q.item.unread = .phrase c :: ss ∧ c.LeadsTo d

theorem Prospect.demand_within (p : Prospect) :
    Follow.Within (fun d => ∃ c ss, p.item.unread = .phrase c :: ss ∧ c.LeadsTo d) p.demand := by
  rw [demand]
  split
  · rename_i c others hunread
    exact Follow.Within.instead fun d hd => ⟨c, others, hunread, Follow.corners_within c d hd⟩
  · exact Follow.within_empty

namespace Kernel

theorem demand_within (k : Kernel) : Follow.Within k.AsksFor k.demand := by
  rw [demand]
  split
  · next hk =>
    exact fun d hd => .inl ⟨List.isEmpty_iff.mp hk, Follow.corners_within .program d hd⟩
  · have hfold : ∀ (l : List Prospect) (f : Follow), (∀ q ∈ l, q ∈ k) →
        Follow.Within k.AsksFor f →
        Follow.Within k.AsksFor (l.foldl (fun f q => f.union q.demand) f) := by
      intro l
      induction l with
      | nil => exact fun _ _ h => h
      | cons q l ih =>
        intro f hl hf
        obtain ⟨hq, hl⟩ := List.forall_mem_cons.mp hl
        exact ih _ hl (hf.union fun d hd => .inr ⟨q, hq, q.demand_within d hd⟩)
    exact hfold k _ (fun _ hq => hq) Follow.within_empty

/-- **An item of a state is one that it starts out with, or a rule of a phrase that these ask for.** -/
theorem mem_items {k : Kernel} {p : Prospect} (h : p ∈ k.items) :
    p ∈ k ∨ p.item.dot = 0 ∧ k.AsksFor p.item.rule.makes := by
  rw [items, List.mem_append, List.mem_flatMap] at h
  refine h.imp_right ?_
  rintro ⟨⟨c, ahead⟩, hzip, hp⟩
  dsimp only at hp
  split at hp
  · exact absurd hp List.not_mem_nil
  · next hahead =>
    obtain ⟨r, hr, rfl⟩ := List.mem_map.mp hp
    refine ⟨rfl, ?_⟩
    obtain ⟨n, hn⟩ := List.mem_iff_getElem?.mp hzip
    rw [List.getElem?_zip_eq_some] at hn
    have hget : k.demand.get c = ahead := by
      rw [Follow.get_eq_getElem?, Category.number_of_getElem? hn.1, hn.2, Option.getD_some]
    rw [Rule.makes_of_mem_making hr]
    exact k.demand_within c (hget ▸ Bool.not_eq_true _ ▸ hahead)

theorem subset_items (k : Kernel) : k ⊆ k.items := List.subset_append_left _ _

/-- Kernels with the same items. -/
theorem exists_of_sameItems {k l : Kernel} (h : k.sameItems l = true) :
    (∀ p ∈ k, ∃ q ∈ l, p.item = q.item) ∧ ∀ q ∈ l, ∃ p ∈ k, p.item = q.item := by
  simpa only [sameItems, Bool.and_eq_true, List.all_eq_true, List.any_eq_true,
    decide_eq_true_eq] using h

end Kernel

/-! ### The states that a state leads to -/

/-- None of the kernels is empty, and they hold items whose dot has moved. -/
def Moved (found : List (Symbol × Kernel)) : Prop :=
  ∀ e ∈ found, e.2 ≠ [] ∧ ∀ q ∈ e.2, q.item.dot ≠ 0

theorem Moved.addProspect {found : List (Symbol × Kernel)} {q : Prospect} (h : Moved found)
    (s : Symbol) (hq : q.item.dot ≠ 0) : Moved (addProspect s q found) := by
  induction found with
  | nil =>
    have hone : ∀ p ∈ [q], p.item.dot ≠ 0 := List.forall_mem_singleton.mpr hq
    exact List.forall_mem_singleton.mpr ⟨List.cons_ne_nil _ _, hone⟩
  | cons e found ih =>
    obtain ⟨t, k⟩ := e
    obtain ⟨he, hfound⟩ := List.forall_mem_cons.mp h
    rw [Grammar.addProspect]
    split
    · refine List.forall_mem_cons.mpr ⟨⟨by simp, ?_⟩, hfound⟩
      exact List.forall_mem_append.mpr ⟨he.2, List.forall_mem_singleton.mpr hq⟩
    · exact List.forall_mem_cons.mpr ⟨he, ih hfound⟩

theorem moved_successors (items : List Prospect) : Moved (successors items) := by
  rw [successors]
  refine List.foldlRecOn items _ (List.forall_mem_nil _) fun found hfound p _ => ?_
  split
  · exact hfound
  · exact hfound.addProspect _ (Nat.succ_ne_zero _)

/-- A state leads to the kernels that its items lead to. -/
theorem State.exists_successor {number : Symbol → Kernel → Nat} {k : Kernel} {s : Symbol} {n : Nat}
    (h : (State.ofKernel number k).after? s = some n) :
    ∃ l, (s, l) ∈ successors k.items ∧ number s l = n := by
  obtain ⟨before, after, hedges, -⟩ := List.lookup_eq_some_iff.mp h
  have hmem : (s, n) ∈ (State.ofKernel number k).edges := by
    rw [hedges]
    exact List.mem_append_right _ List.mem_cons_self
  obtain ⟨⟨s', l⟩, hl, hedge⟩ := List.mem_map.mp hmem
  obtain ⟨rfl, hln⟩ := Prod.mk.inj hedge
  exact ⟨l, hl, hln⟩

/-! ### The survey -/

namespace Survey

/-- The first state found is the one before any symbol. -/
def StartsEmpty (v : Survey) : Prop := v.found.head? = some (none, [])

theorem StartsEmpty.note {v : Survey} (h : v.StartsEmpty) (s : Symbol) (k : Kernel) :
    (v.note s k).StartsEmpty := by
  obtain ⟨found, todo⟩ := v
  obtain ⟨later, rfl⟩ : ∃ later, found = (none, []) :: later := by
    cases found with
    | nil => cases h
    | cons e later => exact ⟨later, by rw [Option.some.inj h]⟩
  rw [Survey.note]
  split
  · rfl
  · rename_i n hn
    -- no symbol leads to the first state, so it is another one that gets new lookaheads
    obtain ⟨m, rfl⟩ : ∃ m, n = m + 1 := by
      refine Nat.exists_eq_succ_of_ne_zero ?_
      rintro rfl
      rw [number?, List.findIdx?_cons] at hn
      simp at hn
    dsimp only
    split
    · rfl
    · rfl

theorem StartsEmpty.run {v : Survey} (h : v.StartsEmpty) (fuel : Nat) :
    (Survey.run fuel v).StartsEmpty := by
  induction fuel generalizing v with
  | zero => exact h
  | succ fuel ih =>
    rw [Survey.run]
    split
    · exact h
    · exact ih (List.foldlRecOn (motive := StartsEmpty) _ _ h fun v hv e _ => hv.note e.1 e.2)

theorem startsEmpty_survey : survey.StartsEmpty :=
  StartsEmpty.run (v := ⟨[(none, [])], [0]⟩) rfl surveySteps

variable {v : Survey} {m n : Nat} {s : Symbol}

/-- A symbol leads to a state that was found with the symbol, for items whose dot has moved over it. -/
theorem exists_found_of_after? (h : v.isClosed)
    (ha : ((Automaton.ofSurvey v).state m).after? s = some n) :
    ∃ k l, v.found[n]? = some (some s, k) ∧ k.sameItems l = true ∧ l ≠ [] ∧
      ∀ q ∈ l, q.item.dot ≠ 0 := by
  have hn := (comesFrom_of_after? h ha).1
  by_cases hm : m < v.found.length
  · rw [state_ofSurvey_of_lt hm] at ha
    obtain ⟨l, hl, hln⟩ := State.exists_successor ha
    obtain ⟨hne, hmoved⟩ := moved_successors _ _ hl
    cases hnumber : v.number? s l with
    | none => rw [hnumber] at hln; exact absurd hln.symm hn
    | some n' =>
      rw [hnumber] at hln
      obtain rfl : n' = n := hln
      obtain ⟨hlt, hfound, -⟩ := List.findIdx?_eq_some_iff_getElem.mp hnumber
      rw [Bool.and_eq_true, decide_eq_true_eq] at hfound
      refine ⟨v.found[n'].2, l, ?_, hfound.2, hne, hmoved⟩
      rw [List.getElem?_eq_getElem hlt, ← hfound.1]
  · rw [state_ofSurvey_of_le (Nat.le_of_not_lt hm)] at ha
    cases ha

/-- The kernel of a state that a symbol leads to holds items whose dot has moved. -/
theorem exists_kernel_of_after? (h : v.isClosed)
    (ha : ((Automaton.ofSurvey v).state m).after? s = some n) :
    ∃ k, v.table n = Kernel.items k ∧ k ≠ [] ∧ ∀ q ∈ k, q.item.dot ≠ 0 := by
  obtain ⟨k, l, hfound, hsame, hne, hmoved⟩ := exists_found_of_after? h ha
  obtain ⟨hkl, hlk⟩ := Kernel.exists_of_sameItems hsame
  refine ⟨k, ?_, fun hnil => ?_, fun q hq => ?_⟩
  · rw [table, List.getD_eq_getElem?_getD, List.getElem?_map, hfound]
    rfl
  · obtain ⟨q, l', rfl⟩ := List.exists_cons_of_ne_nil hne
    obtain ⟨p, hp, -⟩ := hlk q List.mem_cons_self
    rw [hnil] at hp
    cases hp
  · obtain ⟨q', hq', hitem⟩ := hkl q hq
    exact hitem ▸ hmoved q' hq'

end Survey

/-- Every item of a state has a reason to be there. -/
structure Automaton.Grounded (auto : Automaton) (table : ItemTable) : Prop where
  /-- A state that a symbol leads to has items. -/
  reached : ∀ {m n s}, (auto.state m).after? s = some n → ∃ i, table.Holds n i
  /-- A rule of which nothing has been read makes a phrase that an item asks for whose dot has
  moved. -/
  asked : ∀ {m n s i}, (auto.state m).after? s = some n → table.Holds n i → i.dot = 0 →
    ∃ j c ss, table.Holds n j ∧ j.dot ≠ 0 ∧ j.unread = .phrase c :: ss ∧ c.LeadsTo i.rule.makes
  /-- In the first state the program asks for all rules. -/
  rooted : ∀ {i}, table.Holds 0 i → Category.program.LeadsTo i.rule.makes

/-- In a closed survey every item has a reason. -/
theorem Survey.grounded_of_isClosed {v : Survey} (h : v.isClosed) (hstart : v.StartsEmpty) :
    (Automaton.ofSurvey v).Grounded v.table where
  reached := by
    intro m n s ha
    obtain ⟨k, hk, hne, -⟩ := exists_kernel_of_after? h ha
    obtain ⟨q, k', rfl⟩ := List.exists_cons_of_ne_nil hne
    exact ⟨q.item, q, hk ▸ Kernel.subset_items _ List.mem_cons_self, rfl⟩
  asked := by
    rintro m n s i ha ⟨p, hp, rfl⟩ hdot
    obtain ⟨k, hk, hne, hmoved⟩ := exists_kernel_of_after? h ha
    rw [hk] at hp
    rcases Kernel.mem_items hp with hp | ⟨-, hasks⟩
    · exact absurd hdot (hmoved p hp)
    · rcases hasks with ⟨hnil, -⟩ | ⟨q, hq, c, ss, hunread, hlead⟩
      · exact absurd hnil hne
      · exact ⟨q.item, c, ss, ⟨q, hk ▸ Kernel.subset_items _ hq, rfl⟩, hmoved q hq, hunread, hlead⟩
  rooted := by
    rintro i ⟨p, hp, rfl⟩
    have hk : v.table 0 = Kernel.items [] := by
      rw [table, List.getD_eq_getElem?_getD, List.getElem?_map, ← List.head?_eq_getElem?, hstart]
      rfl
    rw [hk] at hp
    rcases Kernel.mem_items hp with hp | ⟨-, ⟨-, hlead⟩ | ⟨q, hq, -⟩⟩
    · cases hp
    · exact hlead
    · cases hq

/-- **Every item of the automaton of the grammar has a reason.** -/
theorem ofGrammar_grounded : Automaton.ofGrammar.Grounded survey.table :=
  Survey.grounded_of_isClosed isClosed_survey Survey.startsEmpty_survey

end Scriptlet.Grammar
