import Scriptlet.Proofs.Evaluation.Discipline

/-!
# Scopes are encapsulated

The global scope is a value, since it is bound in itself. The scope of a call is not: nothing that a
script can do puts it into a slot or yields it. It is only ever the parent of other scopes, or the
scope that a function was made in; and since both come later than the scope, the scopes around an
object end at the global one.

## What is proved

* `Heap.encapsulated_initial`: scopes are encapsulated on the first heap.
* `Heap.Encapsulated.push`, `Heap.Encapsulated.bind`, `Heap.Encapsulated.enter`: what a construct does
  to the heap keeps them so.
* `encapsulation`: evaluation keeps them so, and writes to no scope but its own and the global one.
-/

namespace Scriptlet

namespace Heap

variable {h h' : Heap} {place : Loc}

/-! ### Scopes and values -/

/-- There is a scope at a place. -/
def IsScope (h : Heap) (place : Loc) : Prop := ∃ parent, (h.get place).nature = .scope parent

theorem IsScope.lt (hs : h.IsScope place) : place < h.next := by
  by_contra hp
  obtain ⟨parent, hs⟩ := hs
  rw [get_of_next_le (Nat.le_of_not_lt hp)] at hs
  cases hs

theorem Extends.isScope (he : h.Extends h') (hs : h.IsScope place) : h'.IsScope place := by
  have hp := hs.lt
  obtain ⟨parent, hn⟩ := hs
  exact ⟨parent, (he.nature place hp).trans hn⟩

theorem Extends.isScope_of_lt (he : h.Extends h') (hp : place < h.next) (hs : h'.IsScope place) :
    h.IsScope place := by
  obtain ⟨parent, hn⟩ := hs
  exact ⟨parent, (he.nature place hp).symm.trans hn⟩

/-- A value that a script may have: an object that is there, and not the scope of a call. -/
def Public (h : Heap) (v : Value) : Prop :=
  ∀ place, v = .ref place → place < h.next ∧ (h.IsScope place → place = globals)

theorem Public.mono {v : Value} (hv : h.Public v) (he : h.Extends h') : h'.Public v := by
  intro place heq
  obtain ⟨hp, hs⟩ := hv place heq
  exact ⟨Nat.lt_of_lt_of_le hp he.next_le, fun hs' => hs (he.isScope_of_lt hp hs')⟩

/-! ### The invariant -/

/-- What scopes and functions of a heap are like. -/
structure Encapsulated (h : Heap) : Prop where
  /-- The global scope has no parent. -/
  root : (h.get globals).nature = .scope none
  /-- It is the only one. -/
  globals_of_none : ∀ place, (h.get place).nature = .scope none → place = globals
  /-- The parent of a scope is a scope, and comes before it. -/
  parent : ∀ place parent, (h.get place).nature = .scope (some parent) →
    parent < place ∧ h.IsScope parent
  /-- A function was made in a scope. -/
  captured : h.Closures fun _ _ scope => h.IsScope scope
  /-- Only values that a script may have are bound. -/
  stored : ∀ place, ∀ slot ∈ (h.get place).slots, h.Public slot.2

/-- An object may be put on a heap. -/
structure Fits (h : Heap) (o : Object) : Prop where
  /-- If it is a scope, its parent is one. -/
  parent : ∀ parent, o.nature = .scope parent → ∃ place, parent = some place ∧ h.IsScope place
  /-- If it is a function of the script, it is made in a scope. -/
  captured : ∀ name params body scope,
    o.nature = .function name (.closure params body scope) → h.IsScope scope
  /-- It has only values that a script may have. -/
  stored : ∀ slot ∈ o.slots, h.Public slot.2

theorem Encapsulated.push {o : Object} (hi : h.Encapsulated) (ho : h.Fits o) :
    (h.push o).Encapsulated := by
  have he := extends_push h o
  have hroot : globals < h.next := IsScope.lt ⟨none, hi.root⟩
  constructor
  case root => rw [get_push_of_lt o hroot, hi.root]
  case globals_of_none =>
    intro place hn
    by_cases hp : place = h.next
    · rw [hp, get_push_self] at hn
      obtain ⟨parent, hparent, -⟩ := ho.parent none hn
      cases hparent
    · rw [get_push_of_ne o hp] at hn
      exact hi.globals_of_none place hn
  case parent =>
    intro place parent hn
    by_cases hp : place = h.next
    · rw [hp, get_push_self] at hn
      obtain ⟨parent', hparent, hs⟩ := ho.parent _ hn
      cases hparent
      exact ⟨hp ▸ hs.lt, he.isScope hs⟩
    · rw [get_push_of_ne o hp] at hn
      exact ⟨(hi.parent place parent hn).1, he.isScope (hi.parent place parent hn).2⟩
  case captured =>
    exact (hi.captured.push ho.captured).mono fun _ _ _ hs => he.isScope hs
  case stored =>
    intro place slot hm
    by_cases hp : place = h.next
    · rw [hp, get_push_self] at hm
      exact (ho.stored slot hm).mono he
    · rw [get_push_of_ne o hp] at hm
      exact (hi.stored place slot hm).mono he

theorem Encapsulated.bind {name : String} {v : Value} (hi : h.Encapsulated) (place : Loc)
    (hv : h.Public v) : (h.bind place name v).Encapsulated := by
  have he := extends_bind h place name v
  constructor
  case root => rw [nature_bind, hi.root]
  case globals_of_none =>
    intro other hn
    rw [nature_bind] at hn
    exact hi.globals_of_none other hn
  case parent =>
    intro other parent hn
    rw [nature_bind] at hn
    exact ⟨(hi.parent other parent hn).1, he.isScope (hi.parent other parent hn).2⟩
  case captured =>
    exact (hi.captured.bind place name v).mono fun _ _ _ hs => he.isScope hs
  case stored =>
    intro other slot hm
    rcases eq_or_mem_of_mem_bind hm with rfl | hm
    · exact hv.mono he
    · exact (hi.stored other slot hm).mono he

theorem Encapsulated.bindAll {bindings : List (String × Value)} (hi : h.Encapsulated)
    (place : Loc) (hb : ∀ binding ∈ bindings, h.Public binding.2) :
    (h.bindAll place bindings).Encapsulated := by
  induction bindings generalizing h with
  | nil => exact hi
  | cons binding bindings ih =>
    obtain ⟨hv, hb⟩ := List.forall_mem_cons.mp hb
    exact ih (hi.bind place hv) fun b hm => (hb b hm).mono (extends_bind h place _ _)

/-! ### The first heap -/

/-- What is where on the first heap. -/
theorem get_initial_cases (place : Loc) :
    (place = globals ∧ initial.get place = ⟨.scope none, globalSlots⟩) ∨
      ∃ o : Object, initial.get place = o ∧ o.slots = [] ∧
        (o.nature = .plain ∨ ∃ b : Builtin, o.nature = .function b.name (.builtin b)) := by
  cases place with
  | zero => exact .inl ⟨rfl, rfl⟩
  | succ i =>
    refine .inr ⟨_, rfl, ?_⟩
    have hget : initial.get (i + 1) = ((Builtin.all.map builtinObject)[i]?).getD .empty := by
      simp [initial, globalObjects, get]
    rw [hget, List.getElem?_map]
    cases Builtin.all[i]? with
    | none => exact ⟨rfl, .inl rfl⟩
    | some b => exact ⟨rfl, .inr ⟨b, rfl⟩⟩

theorem isScope_initial : initial.IsScope place ↔ place = globals := by
  constructor
  · rintro ⟨parent, hn⟩
    rcases get_initial_cases place with ⟨hp, -⟩ | ⟨o, rfl, -, ho | ⟨b, ho⟩⟩
    · exact hp
    · rw [ho] at hn; cases hn
    · rw [ho] at hn; cases hn
  · rintro rfl
    exact ⟨none, rfl⟩

/-- The first heap has no functions of a script. -/
theorem closures_initial (P : List String → Block → Loc → Prop) : initial.Closures P := by
  intro place name params body scope hn
  rcases get_initial_cases place with ⟨-, ho⟩ | ⟨o, rfl, -, ho | ⟨b, ho⟩⟩
  all_goals rw [ho] at hn; cases hn

theorem encapsulated_initial : initial.Encapsulated := by
  constructor
  case root => rfl
  case globals_of_none => exact fun place hn => isScope_initial.mp ⟨none, hn⟩
  case parent =>
    intro place parent hn
    obtain rfl := isScope_initial.mp ⟨_, hn⟩
    cases hn
  case captured => exact closures_initial _
  case stored =>
    intro place slot hm
    rcases get_initial_cases place with ⟨-, ho⟩ | ⟨o, ho, hslots, -⟩
    · rw [ho] at hm
      have hbound : ∀ slot ∈ globalSlots, ∃ target < initial.next, slot.2 = .ref target := by
        decide
      obtain ⟨target, hlt, hv⟩ := hbound slot hm
      rw [hv]
      rintro _ ⟨⟩
      exact ⟨hlt, isScope_initial.mp⟩
    · rw [ho, hslots] at hm
      cases hm

/-! ### Evaluation -/

/-- A scope that is neither a given one nor the global one. -/
def Foreign (scope : Loc) (h : Heap) (place : Loc) : Prop :=
  h.IsScope place ∧ place ≠ scope ∧ place ≠ globals

theorem persists_foreign (scope : Loc) : Persists (Foreign scope) := by
  rintro h h' place he - ⟨hs, hne, hne'⟩
  exact ⟨he.isScope hs, hne, hne'⟩

theorem not_foreign_self (scope : Loc) (h : Heap) : ¬ Foreign scope h scope := by
  intro hf
  exact hf.2.1 rfl

theorem public_undefined (h : Heap) : h.Public .undefined := fun _ => Value.noConfusion

theorem public_next {o : Object} (ho : ∀ parent, o.nature ≠ .scope parent) :
    (h.push o).Public (.ref h.next) := by
  rintro _ ⟨⟩
  refine ⟨by simp, fun hs => ?_⟩
  obtain ⟨parent, hs⟩ := hs
  rw [get_push_self] at hs
  cases ho parent hs

theorem Encapsulated.public_lookup {name : String} {v : Value} (hi : h.Encapsulated)
    (hl : h.lookup? place name = some v) : h.Public v := by
  obtain ⟨other, hm⟩ := exists_mem_of_lookupFrom hl
  exact hi.stored other _ hm

theorem Encapsulated.enter {captured : Loc} {receiver : Value} {args : List Value}
    (hi : h.Encapsulated) (hs : h.IsScope captured) (params : List String)
    (hreceiver : h.Public receiver) (hargs : ∀ v ∈ args, h.Public v) :
    (h.enter params captured receiver args).Encapsulated := by
  have hfits : h.Fits ⟨.scope (some captured), []⟩ := by
    refine ⟨?_, fun _ _ _ _ => Nature.noConfusion, List.forall_mem_nil _⟩
    rintro _ ⟨⟩
    exact ⟨captured, rfl, hs⟩
  have hpush := extends_push h ⟨.scope (some captured), []⟩
  refine ((hi.push hfits).bind _ (hreceiver.mono hpush)).bindAll _ fun binding hm => ?_
  exact ((hargs _ (List.of_mem_zip hm).2).mono hpush).mono (extends_bind _ _ _ _)

end Heap

open Heap in
/-- Evaluation in a scope keeps scopes encapsulated, and changes no other scope but the global one. -/
def encapsulation : Discipline where
  inv := Encapsulated
  value := Public
  code h scope _ := h.IsScope scope
  runs h scope _ := h.IsScope scope
  change scope := Frame (Foreign scope)
  fault _ := True
  change_refl scope := Frame.refl (Foreign scope)
  change_trans := Frame.trans (persists_foreign _)
  value_change hf hv := hv.mono hf.toExtends
  code_change hf hs := hf.toExtends.isScope hs
  runs_change hf hs := hf.toExtends.isScope hs
  value_plain hv place heq := absurd heq (hv place)
  value_lookup := Encapsulated.public_lookup
  fault_other _ := trivial
  fault_name _ _ _ _ := trivial
  code_operand hs _ := hs
  runs_branches hs := ⟨hs, hs⟩
  runs_nested hs _ := hs
  code_statement hs _ _ := hs
  declare {h scope body} hi hs := by
    have hframe : Frame (Foreign scope) h (h.declare scope body) :=
      frame_bindAll (not_foreign_self scope h) _
    refine ⟨hi.bindAll scope fun binding hm => ?_, hframe, hframe.toExtends.isScope hs⟩
    obtain ⟨name, -, rfl⟩ := List.mem_map.mp hm
    exact public_undefined h
  bind {h scope _ name v} hi _ _ hv :=
    ⟨hi.bind scope hv, frame_bind (not_foreign_self scope h) name v⟩
  make {h scope name params _ body _} hi hs := by
    refine ⟨hi.push ⟨fun _ => Nature.noConfusion, ?_, List.forall_mem_nil _⟩, frame_push _ h _,
      public_next fun _ => Nature.noConfusion⟩
    rintro _ _ _ _ ⟨⟩
    exact hs
  collect {h scope slots} hi _ hslots := by
    have hfits : h.Fits ⟨.plain, slots⟩ :=
      ⟨fun _ => Nature.noConfusion, fun _ _ _ _ => Nature.noConfusion, hslots⟩
    exact ⟨hi.push hfits, frame_push _ h _, public_next fun _ => Nature.noConfusion⟩
  setField {h scope place _ _ name _ v} hi _ hplace hv := by
    refine ⟨hi.bind place hv, frame_bind ?_ name v⟩
    rintro ⟨hs, -, hne⟩
    exact hne ((hplace place rfl).2 hs)
  enter {h scope place captured name params body receiver args} hi hn hreceiver hargs _ := by
    have hcaptured := hi.captured _ _ _ _ _ hn
    have hs : (h.enter params captured receiver args).IsScope h.next := ⟨_, nature_enter ..⟩
    refine ⟨hi.enter hcaptured params hreceiver hargs, hs, fun h' hf => ?_⟩
    have hframe := (frame_enter h params captured receiver args _).trans (persists_foreign _) hf
    -- the scope of the call is not among those that were there before
    exact hframe.mono fun other hp hforeign => ⟨hforeign.1, Nat.ne_of_lt hp, hforeign.2.2⟩

end Scriptlet
