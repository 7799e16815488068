import Scriptlet.Evaluation.Eval
import Scriptlet.Proofs.Script.Renaming
import Scriptlet.Proofs.Store.Rendering

/-!
# Heaps in another guise

The same objects can lie further back on a heap, behind others that have nothing to do with them, and the
variables bound in them can have other names. A guise says how: it shifts every place by the number of
objects in front, and renames variables, in scopes and in the code of functions. Names that can be seen
when an object is shown have to stay as they are.

## What is proved

* `Guise.get_heap`, `Guise.heap_push`, `Guise.heap_bind`: a heap in another guise holds the same objects in
  that guise, and can be changed in the same ways.
* `Guise.lookup?_heap`: names lead to the same values.
* `Guise.display_value`, `Guise.describe_value`: values look the same.
* `Guise.createGlobals_heap`: a fresh global scope is the same in every guise.
-/

namespace Scriptlet

/-- The names that every script finds bound somewhere: that of the receiver of a call, that of the global
scope and those of the built-in functions. -/
def givenNames : List String :=
  Eval.receiverName :: Heap.globalName :: Builtin.all.map Builtin.name

/-- Heaps with the same objects are the same. -/
theorem Heap.eq_of_get {h h' : Heap} (hnext : h.next = h'.next) (hget : ∀ p, h.get p = h'.get p) :
    h = h' := by
  obtain ⟨objects⟩ := h
  obtain ⟨objects'⟩ := h'
  refine congrArg Heap.mk (Array.ext hnext fun p hp hp' => ?_)
  have heq := hget p
  simpa [Heap.get, hp, hp'] using heq

/-- How a heap is the same as another one in a different guise. -/
structure Guise where
  /-- The name that a variable gets. -/
  name : String → String
  /-- The variable may be used. -/
  isVariable : String → Bool
  /-- The objects in front of all others. -/
  front : Array Object
  /-- Different variables get different names. -/
  injective {a b : String} : isVariable a = true → isVariable b = true → name a = name b → a = b
  /-- The names that every script finds bound may be used, and stay as they are. -/
  given : ∀ n ∈ givenNames, isVariable n = true ∧ name n = n

namespace Guise

variable (G : Guise)

/-- The name may be used and stays as it is. -/
def isLabel (n : String) : Bool := G.isVariable n && G.name n == n

/-- The place where an object lies. -/
def place (p : Loc) : Loc := p + G.front.size

/-- A value; objects are known by their places. -/
def value : Value → Value
  | .ref p => .ref (G.place p)
  | v => v

/-- Bindings. -/
def slots (s : Slots) : Slots := s.map fun slot => (G.name slot.1, G.value slot.2)

/-- What a function does. -/
def code : Code → Code
  | .builtin b => .builtin b
  | .closure params body scope => .closure (params.map G.name) (body.rename G.name) (G.place scope)

/-- A kind of object. -/
def nature : Nature → Nature
  | .plain => .plain
  | .scope parent => .scope (parent.map G.place)
  | .function n c => .function n (G.code c)

/-- An object. -/
def object (o : Object) : Object := ⟨G.nature o.nature, G.slots o.slots⟩

/-- A heap. -/
def heap (h : Heap) : Heap := ⟨G.front ++ h.objects.map G.object⟩

variable {G} {h : Heap} {p : Loc} {n : String} {v : Value} {s : Slots}

theorem isLabel_iff : G.isLabel n = true ↔ G.isVariable n = true ∧ G.name n = n := by
  rw [isLabel, Bool.and_eq_true, beq_iff_eq]

theorem isLabel_of_given (hn : n ∈ givenNames) : G.isLabel n = true := isLabel_iff.mpr (G.given n hn)

theorem name_builtin (b : Builtin) : G.name b.name = b.name :=
  (G.given _ (List.mem_cons_of_mem _ (List.mem_cons_of_mem _
    (List.mem_map_of_mem (Builtin.mem_all b))))).2

theorem name_globalName : G.name Heap.globalName = Heap.globalName :=
  (G.given _ (List.mem_cons_of_mem _ List.mem_cons_self)).2

/-! ### Values -/

theorem place_injective {p q : Loc} (hpq : G.place p = G.place q) : p = q := Nat.add_right_cancel hpq

theorem value_injective {a b : Value} (hab : G.value a = G.value b) : a = b := by
  cases a with
  | ref p =>
    cases b with
    | ref q => rw [place_injective (Value.ref.inj hab)]
    | _ => cases hab
  | _ =>
    cases b with
    | ref q => cases hab
    | _ => exact hab

theorem equals_value (a b : Value) : (G.value a).equals (G.value b) = a.equals b :=
  decide_eq_decide.mpr ⟨value_injective, congrArg G.value⟩

theorem order?_value (a b : Value) : (G.value a).order? (G.value b) = a.order? b := by
  cases a <;> cases b <;> rfl

theorem truth?_value (v : Value) : (G.value v).truth? = v.truth? := by
  cases v <;> rfl

/-! ### Bindings -/

theorem slots_cons (m : String) (v : Value) (s : Slots) :
    G.slots ((m, v) :: s) = (G.name m, G.value v) :: G.slots s := rfl

theorem get?_slots (hs : ∀ m ∈ s.names, G.isVariable m = true) (hn : G.isVariable n = true) :
    (G.slots s).get? (G.name n) = (s.get? n).map G.value := by
  induction s with
  | nil => rfl
  | cons slot s ih =>
    obtain ⟨m, v⟩ := slot
    obtain ⟨hm, hs⟩ := List.forall_mem_cons.mp hs
    rw [slots_cons, Slots.get?, Slots.get?]
    by_cases hmn : m = n
    · rw [if_pos hmn, if_pos (congrArg G.name hmn), Option.map_some]
    · have hne : G.name m ≠ G.name n := fun heq => hmn (G.injective hm hn heq)
      rw [if_neg hmn, if_neg hne, ih hs]

theorem set_slots (hs : ∀ m ∈ s.names, G.isVariable m = true) (hn : G.isVariable n = true)
    (v : Value) : (G.slots s).set (G.name n) (G.value v) = G.slots (s.set n v) := by
  induction s with
  | nil => rfl
  | cons slot s ih =>
    obtain ⟨m, w⟩ := slot
    obtain ⟨hm, hs⟩ := List.forall_mem_cons.mp hs
    rw [slots_cons, Slots.set, Slots.set]
    by_cases hmn : m = n
    · rw [if_pos hmn, if_pos (congrArg G.name hmn), slots_cons]
    · have hne : G.name m ≠ G.name n := fun heq => hmn (G.injective hm hn heq)
      rw [if_neg hmn, if_neg hne, slots_cons, ih hs]

/-! ### Objects -/

theorem parent?_object (o : Object) : (G.object o).parent? = o.parent?.map G.place := by
  obtain ⟨nature, slots⟩ := o
  cases nature <;> rfl

theorem isFunction_object (o : Object) : (G.object o).isFunction = o.isFunction := by
  obtain ⟨nature, slots⟩ := o
  cases nature <;> rfl

/-- The heap has the object in its guise. -/
theorem get_heap (h : Heap) (p : Loc) : (G.heap h).get (G.place p) = G.object (h.get p) := by
  have hle : G.front.size ≤ G.place p := Nat.le_add_left _ _
  have hsub : G.place p - G.front.size = p := Nat.add_sub_cancel _ _
  simp only [Heap.get, heap, Array.getD_eq_getD_getElem?]
  rw [Array.getElem?_append_right hle, hsub, Array.getElem?_map]
  cases h.objects[p]? <;> rfl

@[simp] theorem nature_heap (h : Heap) (p : Loc) :
    ((G.heap h).get (G.place p)).nature = G.nature (h.get p).nature := by
  rw [get_heap, object]

@[simp] theorem slots_heap (h : Heap) (p : Loc) :
    ((G.heap h).get (G.place p)).slots = G.slots (h.get p).slots := by
  rw [get_heap, object]

theorem next_heap (h : Heap) : (G.heap h).next = G.place h.next := by
  simp only [Heap.next, heap, Array.size_append, Array.size_map, place]
  exact Nat.add_comm _ _

/-- Further in front it has other objects, which are the same whatever heap it is. -/
theorem get_heap_of_lt (h h' : Heap) (hp : p < G.front.size) :
    (G.heap h).get p = (G.heap h').get p := by
  simp only [Heap.get, heap, Array.getD_eq_getD_getElem?]
  rw [Array.getElem?_append_left hp, Array.getElem?_append_left hp]

/-- Every place is further in front, or that of an object in its guise. -/
theorem lt_or_eq_place (G : Guise) (p : Loc) : p < G.front.size ∨ ∃ q, p = G.place q := by
  rcases Nat.lt_or_ge p G.front.size with hlt | hle
  · exact .inl hlt
  · exact .inr ⟨p - G.front.size, (Nat.sub_add_cancel hle).symm⟩

theorem heap_push (h : Heap) (o : Object) : (G.heap h).push (G.object o) = G.heap (h.push o) := by
  simp only [Heap.push, heap, Array.map_push, Array.append_push]

/-- Only variables that may be used are bound on a heap. -/
def Named (G : Guise) (h : Heap) : Prop :=
  ∀ p, ∀ n ∈ (h.get p).slots.names, G.isVariable n = true

theorem heap_bind (hnamed : G.Named h) (hn : G.isVariable n = true) (p : Loc) (v : Value) :
    (G.heap h).bind (G.place p) (G.name n) (G.value v) = G.heap (h.bind p n v) := by
  refine Heap.eq_of_get ?_ fun q => ?_
  · rw [Heap.next_bind, next_heap, next_heap, Heap.next_bind]
  · rcases G.lt_or_eq_place q with hq | ⟨q, rfl⟩
    · have hne : q ≠ G.place p := Nat.ne_of_lt (Nat.lt_of_lt_of_le hq (Nat.le_add_left _ _))
      rw [Heap.get_bind_of_ne _ _ hne]
      exact get_heap_of_lt _ _ hq
    · rw [get_heap]
      by_cases hqp : q = p
      · subst hqp
        by_cases hlt : q < h.next
        · have hlt' : G.place q < (G.heap h).next := by
            rw [next_heap]
            exact Nat.add_lt_add_right hlt _
          rw [Heap.get_bind_self _ _ hlt, Heap.get_bind_self _ _ hlt', get_heap, object, Object.bind,
            object, Object.bind, set_slots (hnamed q) hn]
        · have hle := Nat.le_of_not_lt hlt
          have hle' : (G.heap h).next ≤ G.place q := by
            rw [next_heap]
            exact Nat.add_le_add_right hle _
          rw [Heap.get_of_next_le (by rwa [Heap.next_bind]), Heap.get_of_next_le (by rwa [Heap.next_bind])]
          rfl
      · have hne : G.place q ≠ G.place p := fun heq => hqp (place_injective heq)
        rw [Heap.get_bind_of_ne _ _ hne, get_heap, Heap.get_bind_of_ne _ _ hqp]

theorem Named.bind (hnamed : G.Named h) (hn : G.isVariable n = true) (p : Loc) (v : Value) :
    G.Named (h.bind p n v) := by
  intro q m hm
  obtain ⟨slot, hslot, rfl⟩ := List.mem_map.mp hm
  rcases Heap.eq_or_mem_of_mem_bind hslot with rfl | hslot
  · exact hn
  · exact hnamed q _ (List.mem_map_of_mem hslot)

theorem Named.push {o : Object} (hnamed : G.Named h)
    (ho : ∀ n ∈ o.slots.names, G.isVariable n = true) : G.Named (h.push o) := by
  intro q
  by_cases hq : q = h.next
  · rw [hq, Heap.get_push_self]
    exact ho
  · rw [Heap.get_push_of_ne o hq]
    exact hnamed q

theorem heap_bindAll {bindings : Slots} (hnamed : G.Named h)
    (hb : ∀ n ∈ bindings.names, G.isVariable n = true) (p : Loc) :
    (G.heap h).bindAll (G.place p) (G.slots bindings) = G.heap (h.bindAll p bindings) := by
  induction bindings generalizing h with
  | nil => rfl
  | cons binding bindings ih =>
    obtain ⟨hn, hb⟩ := List.forall_mem_cons.mp hb
    rw [slots_cons, Heap.bindAll_cons, Heap.bindAll_cons, heap_bind hnamed hn,
      ih (hnamed.bind hn p binding.2) hb]

/-! ### Names -/

theorem lookupFrom_heap (hnamed : G.Named h) (hn : G.isVariable n = true) (fuel : Nat) (p : Loc) :
    (G.heap h).lookupFrom (G.name n) fuel (G.place p) = (h.lookupFrom n fuel p).map G.value := by
  induction fuel generalizing p with
  | zero => rfl
  | succ fuel ih =>
    have hslots : (G.slots (h.get p).slots).get? (G.name n) =
        ((h.get p).slots.get? n).map G.value := get?_slots (hnamed p) hn
    rw [Heap.lookupFrom_succ, Heap.lookupFrom_succ, slots_heap, hslots, get_heap, parent?_object]
    cases (h.get p).slots.get? n with
    | some v => rfl
    | none =>
      cases (h.get p).parent? with
      | none => rfl
      | some parent => exact ih parent

end Guise

namespace Heap

variable {h : Heap} {name : String}

/-- Every parent lies in front of the scope that it is around. -/
def Ordered (h : Heap) : Prop := ∀ place parent, (h.get place).parent? = some parent → parent < place

/-- More fuel than there are places in front does not matter. -/
theorem lookupFrom_of_lt (ho : h.Ordered) {fuel : Nat} {place : Loc} (hlt : place < fuel) :
    h.lookupFrom name fuel place = h.lookup? place name := by
  have hfuel : ∀ fuel fuel' place, place < fuel → place < fuel' →
      h.lookupFrom name fuel place = h.lookupFrom name fuel' place := by
    intro fuel
    induction fuel with
    | zero => exact fun _ place hlt => absurd hlt (Nat.not_lt_zero place)
    | succ fuel ih =>
      intro fuel' place hlt hlt'
      obtain ⟨fuel', rfl⟩ := Nat.exists_eq_add_one.mpr (Nat.lt_of_le_of_lt (Nat.zero_le _) hlt')
      rw [lookupFrom_succ, lookupFrom_succ]
      cases hp : (h.get place).parent? with
      | none => rfl
      | some parent =>
        have hparent := ho place parent hp
        have heq := ih fuel' parent (Nat.lt_of_lt_of_le hparent (Nat.le_of_lt_succ hlt))
          (Nat.lt_of_lt_of_le hparent (Nat.le_of_lt_succ hlt'))
        rw [Option.bind_some, Option.bind_some, heq]
  exact hfuel fuel (place + 1) place hlt (Nat.lt_succ_self place)

end Heap

namespace Guise

variable {G : Guise} {h : Heap} {p : Loc} {n : String} {v : Value}

theorem lookup?_heap (hnamed : G.Named h) (ho : h.Ordered) (hn : G.isVariable n = true) (p : Loc) :
    (G.heap h).lookup? (G.place p) (G.name n) = (h.lookup? p n).map G.value := by
  have hlt : p < G.place p + 1 := Nat.lt_succ_of_le (Nat.le_add_right _ _)
  rw [Heap.lookup?, lookupFrom_heap hnamed hn, Heap.lookupFrom_of_lt ho hlt]

/-! ### How values are shown -/

/-- The names in plain objects stay as they are. -/
def Visible (G : Guise) (h : Heap) : Prop :=
  ∀ p, (h.get p).nature = .plain → ∀ n ∈ (h.get p).slots.names, G.name n = n

theorem renderFrom_heap (hvisible : G.Visible h) (fuel : Nat) (path : List Loc) (p : Loc) :
    (G.heap h).renderFrom fuel (path.map G.place) (G.place p) = h.renderFrom fuel path p := by
  induction fuel generalizing path p with
  | zero => rfl
  | succ fuel ih =>
    simp only [Heap.renderFrom, nature_heap]
    cases hn : (h.get p).nature with
    | scope parent => rfl
    | function name code => rfl
    | plain =>
      have hcontains : (path.map G.place).contains (G.place p) = path.contains p := by
        rw [Bool.eq_iff_iff, List.contains_iff_mem, List.contains_iff_mem, List.mem_map]
        refine ⟨?_, fun hm => ⟨p, hm, rfl⟩⟩
        rintro ⟨q, hm, hq⟩
        exact place_injective hq ▸ hm
      dsimp only [nature]
      rw [hcontains, slots_heap, slots, List.map_map]
      congr 4
      refine List.map_congr_left fun slot hm => ?_
      obtain ⟨n, v⟩ := slot
      have hname : G.name n = n := hvisible p hn n (List.mem_map_of_mem hm)
      cases v with
      | ref q => simp only [Function.comp_apply, hname, value, ← ih (p :: path) q, List.map_cons]
      | _ => simp only [Function.comp_apply, hname, value]

theorem render_heap (hvisible : G.Visible h) (p : Loc) : (G.heap h).render (G.place p) = h.render p := by
  have hfuel : h.objects.size < (G.heap h).objects.size + 1 := by
    simp only [heap, Array.size_append, Array.size_map]
    omega
  rw [Heap.render, ← Heap.renderFrom_eq_render hfuel]
  exact renderFrom_heap hvisible _ [] p

theorem display_value (hvisible : G.Visible h) (v : Value) :
    (G.heap h).display (G.value v) = h.display v := by
  cases v with
  | ref p => exact render_heap hvisible p
  | _ => rfl

theorem displayQuoted_value (hvisible : G.Visible h) (v : Value) :
    (G.heap h).displayQuoted (G.value v) = h.displayQuoted v := by
  cases v with
  | ref p => exact render_heap hvisible p
  | _ => rfl

theorem isFunction_value (h : Heap) (v : Value) : (G.heap h).isFunction (G.value v) = h.isFunction v := by
  cases v with
  | ref p => rw [value, Heap.isFunction, get_heap, isFunction_object, Heap.isFunction]
  | _ => rfl

theorem displayTyped_value (hvisible : G.Visible h) (v : Value) :
    (G.heap h).displayTyped (G.value v) = h.displayTyped v := by
  have htype : (G.heap h).typeName (G.value v) = h.typeName v := by
    cases v with
    | ref p => rw [value, Heap.typeName, get_heap, isFunction_object, Heap.typeName]
    | _ => rfl
  rw [Heap.displayTyped, htype, display_value hvisible, Heap.displayTyped]

theorem describe_value (hvisible : G.Visible h) (v : Value) :
    (G.heap h).describe (G.value v) = h.describe v := by
  cases v with
  | ref p =>
    simp only [value, Heap.describe, nature_heap, render_heap hvisible]
    cases (h.get p).nature <;> rfl
  | _ => rfl

/-! ### Fresh global scopes -/

theorem globalObjects_map (root : Loc) :
    (Heap.globalObjects root).map G.object = Heap.globalObjects (G.place root) := by
  have hbuiltins : (Builtin.all.map Heap.builtinObject).map G.object =
      Builtin.all.map Heap.builtinObject := by
    rw [List.map_map]
    rfl
  have hslots : G.slots (Heap.globalSlotsAt root) = Heap.globalSlotsAt (G.place root) := by
    rw [Heap.globalSlotsAt, slots_cons, Heap.globalSlotsAt, name_globalName, slots, List.map_map]
    refine congrArg _ (List.map_congr_left fun entry _ => ?_)
    simp only [Function.comp_apply, name_builtin, value, place, Nat.add_assoc]
  rw [Heap.globalObjects, List.map_cons, hbuiltins, object, hslots, Heap.globalObjects]
  rfl

theorem createGlobals_heap (h : Heap) :
    (G.heap h).createGlobals = (G.place h.createGlobals.1, G.heap h.createGlobals.2) := by
  have hobjects : (Heap.globalObjects (G.heap h).next).toArray =
      (Heap.globalObjects h.next).toArray.map G.object := by
    rw [next_heap, ← globalObjects_map, List.map_toArray]
  simp only [Heap.createGlobals, next_heap]
  rw [← next_heap, hobjects]
  simp only [heap, Array.map_append, Array.append_assoc]

end Guise

end Scriptlet
