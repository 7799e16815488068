import Scriptlet.Store.Heap
import Mathlib.Data.List.Basic
import Mathlib.Tactic.Common

/-!
# Objects on the heap

What putting an object on the heap and binding names do to the objects that are there. Putting one on
the heap changes none, and binding changes the values in one object and never what kind of object it
is. So from one heap to a later one, objects stay what they are and keep the names bound in them, in
their order; `Heap.Extends` says so.

## What is proved

* `Heap.slots_bind`, `Heap.nature_bind`: binding changes one object, and no kind.
* `Heap.bind_eq_self`: binding a name to what it is bound to changes nothing.
* `Heap.get?_bind`, `Heap.get?_bindAll_undefined`: what names are bound to afterwards.
* `Heap.Closures`: a property of all functions of the script, and what keeps it.
* `Heap.Extends`: a preorder that contains every change of a heap.
* `Heap.Frame`: changes that leave the bindings of some objects alone.
* `Heap.Extends.isSome_lookup?`: a name that is found from an object is found ever after.
* `Heap.lookupFrom_succ`: looking in more objects than needed finds the same.
-/

namespace Scriptlet

/-! ### Bindings -/

namespace Slots

variable {slots : Slots} {name : String} {value : Value}

theorem isSome_get? : (slots.get? name).isSome ↔ name ∈ slots.names := by
  induction slots with
  | nil => simp [get?, names]
  | cons slot slots ih =>
    obtain ⟨n, v⟩ := slot
    by_cases h : n = name
    · simp [get?, names, h]
    · simpa [get?, names, h, Ne.symm h] using ih

theorem get?_eq_none_iff : slots.get? name = none ↔ name ∉ slots.names := by
  rw [← isSome_get?, Option.not_isSome_iff_eq_none]

theorem mem_of_get? (h : slots.get? name = some value) : (name, value) ∈ slots := by
  induction slots with
  | nil => cases h
  | cons slot slots ih =>
    obtain ⟨n, v⟩ := slot
    by_cases hn : n = name
    · simp only [get?, if_pos hn, Option.some.injEq] at h
      rw [hn, h]
      exact List.mem_cons_self
    · rw [get?, if_neg hn] at h
      exact List.mem_cons_of_mem _ (ih h)

/-- Binding a name puts nothing else into an object. -/
theorem eq_or_mem_of_mem_set {slot : String × Value} (h : slot ∈ slots.set name value) :
    slot = (name, value) ∨ slot ∈ slots := by
  induction slots with
  | nil => exact .inl (List.mem_singleton.mp h)
  | cons head slots ih =>
    obtain ⟨n, v⟩ := head
    by_cases hn : n = name
    · rw [set, if_pos hn, hn, List.mem_cons] at h
      exact h.imp_right (List.mem_cons_of_mem _)
    · rw [set, if_neg hn, List.mem_cons] at h
      rcases h with rfl | h
      · exact .inr List.mem_cons_self
      · exact (ih h).imp_right (List.mem_cons_of_mem _)

theorem names_prefix_set (slots : Slots) (name : String) (value : Value) :
    slots.names <+: (slots.set name value).names := by
  rw [names_set]
  split
  · exact List.prefix_rfl
  · exact List.prefix_append _ _

theorem mem_names_set (slots : Slots) (name : String) (value : Value) :
    name ∈ (slots.set name value).names := by
  rw [names_set]
  split
  · assumption
  · exact List.mem_append_right _ List.mem_cons_self

theorem nodup_names_set (h : slots.names.Nodup) : (slots.set name value).names.Nodup := by
  rw [names_set]
  split
  · exact h
  · next hn =>
    refine List.nodup_append.mpr ⟨h, List.nodup_cons.mpr ⟨List.not_mem_nil, List.nodup_nil⟩, ?_⟩
    rintro n hm m hm' rfl
    exact hn (List.mem_singleton.mp hm' ▸ hm)

theorem set_eq_self (h : slots.get? name = some value) : slots.set name value = slots := by
  induction slots with
  | nil => cases h
  | cons slot slots ih =>
    obtain ⟨n, v⟩ := slot
    by_cases hn : n = name
    · rw [get?, if_pos hn] at h
      rw [set, if_pos hn, Option.some.inj h]
    · rw [get?, if_neg hn] at h
      rw [set, if_neg hn, ih h]

/-- Binding a name leaves the bindings of others in their places. -/
theorem getElem?_set {other : String} {value' : Value} {i : Nat}
    (h : slots[i]? = some (other, value')) (hne : other ≠ name) :
    (slots.set name value)[i]? = some (other, value') := by
  induction slots generalizing i with
  | nil => cases h
  | cons slot slots ih =>
    obtain ⟨n, v⟩ := slot
    by_cases hn : n = name
    · rw [set, if_pos hn]
      cases i with
      | zero =>
        obtain ⟨rfl, -⟩ := Prod.mk.inj (Option.some.inj h)
        exact absurd hn hne
      | succ i => exact h
    · rw [set, if_neg hn]
      cases i with
      | zero => exact h
      | succ i => exact ih h

end Slots

theorem Object.parent?_congr {o o' : Object} (h : o.nature = o'.nature) :
    o.parent? = o'.parent? := by
  rw [Object.parent?, Object.parent?, h]

namespace Heap

variable {h h' : Heap} {place other : Loc} {name : String} {value : Value}

/-! ### One more object -/

@[simp] theorem next_push (h : Heap) (o : Object) : (h.push o).next = h.next + 1 :=
  Array.size_push o

theorem get_of_next_le (hp : h.next ≤ place) : h.get place = .empty := by
  simp only [get, Array.getD_eq_getD_getElem?]
  rw [Array.getElem?_eq_none hp]
  rfl

@[simp] theorem get_push_self (h : Heap) (o : Object) : (h.push o).get h.next = o := by
  simp [get, push, next]

theorem get_push_of_ne (o : Object) (hp : place ≠ h.next) : (h.push o).get place = h.get place := by
  have hp' : place ≠ h.objects.size := hp
  simp only [get, push, Array.getD_eq_getD_getElem?]
  rw [Array.getElem?_push, if_neg hp']

theorem get_push_of_lt (o : Object) (hp : place < h.next) : (h.push o).get place = h.get place :=
  get_push_of_ne o (Nat.ne_of_lt hp)

/-! ### One more binding -/

@[simp] theorem next_bind (h : Heap) (place : Loc) (name : String) (value : Value) :
    (h.bind place name value).next = h.next :=
  Array.size_modify

theorem get_bind_self (name : String) (value : Value) (hp : place < h.next) :
    (h.bind place name value).get place = (h.get place).bind name value := by
  have hp' : place < h.objects.size := hp
  simp only [get, bind, Array.getD_eq_getD_getElem?]
  rw [Array.getElem?_modify, if_pos rfl, Array.getElem?_eq_getElem hp']
  rfl

theorem get_bind_of_ne (name : String) (value : Value) (hp : other ≠ place) :
    (h.bind place name value).get other = h.get other := by
  simp [get, bind, Array.getElem?_modify, Ne.symm hp]

@[simp] theorem nature_bind (h : Heap) (place : Loc) (name : String) (value : Value) (other : Loc) :
    ((h.bind place name value).get other).nature = (h.get other).nature := by
  by_cases hp : other = place
  · subst hp
    by_cases hlt : other < h.next
    · rw [get_bind_self name value hlt]
      rfl
    · rw [get_of_next_le (by simpa using hlt), get_of_next_le (by simpa using hlt)]
  · rw [get_bind_of_ne name value hp]

theorem slots_bind (name : String) (value : Value) (hp : place < h.next) :
    ((h.bind place name value).get other).slots =
      if other = place then (h.get place).slots.set name value else (h.get other).slots := by
  split
  · next heq => rw [heq, get_bind_self name value hp]; rfl
  · next hne => rw [get_bind_of_ne name value hne]

/-- What stands in an object after a binding was bound, or stood there before. -/
theorem eq_or_mem_of_mem_bind {slot : String × Value}
    (hs : slot ∈ ((h.bind place name value).get other).slots) :
    slot = (name, value) ∨ slot ∈ (h.get other).slots := by
  by_cases hp : other = place
  · subst hp
    by_cases hlt : other < h.next
    · rw [slots_bind name value hlt, if_pos rfl] at hs
      exact Slots.eq_or_mem_of_mem_set hs
    · rw [get_of_next_le (by simpa using hlt)] at hs
      cases hs
  · rw [get_bind_of_ne name value hp] at hs
    exact .inr hs

/-- Where objects are the same, they are with one more binding. -/
theorem get_bind_congr (hn : h'.next = h.next) (ho : h'.get other = h.get other) (place : Loc)
    (name : String) (value : Value) :
    (h'.bind place name value).get other = (h.bind place name value).get other := by
  by_cases hp : other = place
  · subst hp
    by_cases hlt : other < h.next
    · rw [get_bind_self name value hlt, get_bind_self name value (hn ▸ hlt), ho]
    · rw [get_of_next_le (by simpa [hn] using hlt), get_of_next_le (by simpa using hlt)]
  · rw [get_bind_of_ne name value hp, get_bind_of_ne name value hp, ho]

/-- Binding a name to what it is bound to changes nothing. -/
theorem bind_eq_self (hb : (h.get place).slots.get? name = some value) :
    h.bind place name value = h := by
  have hlt : place < h.objects.size := by
    by_contra hp
    rw [get_of_next_le (Nat.le_of_not_lt hp)] at hb
    cases hb
  have hobject : (h.get place).bind name value = h.get place := by
    rw [Object.bind, Slots.set_eq_self hb]
  rw [get, Array.getD_eq_getD_getElem?, Array.getElem?_eq_getElem hlt, Option.getD_some] at hobject
  obtain ⟨objects⟩ := h
  rw [bind, Heap.mk.injEq]
  refine Array.ext (Array.size_modify) fun i hi hi' => ?_
  rw [Array.getElem_modify]
  split
  · next heq => subst heq; exact hobject
  · rfl

/-! ### More bindings -/

@[simp] theorem bindAll_cons (h : Heap) (place : Loc) (binding : String × Value)
    (bindings : List (String × Value)) :
    h.bindAll place (binding :: bindings) =
      (h.bind place binding.1 binding.2).bindAll place bindings := rfl

theorem bindAll_append (h : Heap) (place : Loc) (bindings bindings' : List (String × Value)) :
    h.bindAll place (bindings ++ bindings') = (h.bindAll place bindings).bindAll place bindings' :=
  List.foldl_append

section BindAll

variable {bindings : List (String × Value)}

@[simp] theorem next_bindAll (h : Heap) (place : Loc) (bindings : List (String × Value)) :
    (h.bindAll place bindings).next = h.next := by
  induction bindings generalizing h with
  | nil => rfl
  | cons binding bindings ih => rw [bindAll_cons, ih, next_bind]

theorem get_bindAll_of_ne (hp : other ≠ place) :
    (h.bindAll place bindings).get other = h.get other := by
  induction bindings generalizing h with
  | nil => rfl
  | cons binding bindings ih => rw [bindAll_cons, ih, get_bind_of_ne _ _ hp]

@[simp] theorem nature_bindAll (h : Heap) (place : Loc) (bindings : List (String × Value))
    (other : Loc) : ((h.bindAll place bindings).get other).nature = (h.get other).nature := by
  induction bindings generalizing h with
  | nil => rfl
  | cons binding bindings ih => rw [bindAll_cons, ih, nature_bind]

end BindAll

/-! ### Bindings of one object -/

theorem get?_bind (value : Value) (hp : place < h.next) (other : String) :
    ((h.bind place name value).get place).slots.get? other =
      if name = other then some value else (h.get place).slots.get? other := by
  rw [slots_bind name value hp, if_pos rfl, Slots.get?_set]

/-- Names that are bound without a value have none, and others keep theirs. -/
theorem get?_bindAll_undefined (names : List String) (hp : place < h.next) (name : String) :
    ((h.bindAll place (names.map fun name => (name, .undefined))).get place).slots.get? name =
      if name ∈ names then some .undefined else (h.get place).slots.get? name := by
  induction names generalizing h with
  | nil => rw [if_neg List.not_mem_nil]; rfl
  | cons n names ih =>
    rw [List.map_cons, bindAll_cons, ih (by rwa [next_bind]), get?_bind _ hp]
    by_cases hn : n = name
    · rw [if_pos hn, if_pos (List.mem_cons.mpr (.inl hn.symm)), ite_self]
    · rw [if_neg hn]
      simp only [List.mem_cons, Ne.symm hn, false_or]

/-! ### Functions of the script -/

/-- A property holds of the parameters, the body and the scope of every function of the script. -/
def Closures (h : Heap) (P : List String → Block → Loc → Prop) : Prop :=
  ∀ place name params body scope,
    (h.get place).nature = .function name (.closure params body scope) → P params body scope

section Closures

variable {P Q : List String → Block → Loc → Prop}

theorem Closures.mono (hi : h.Closures P)
    (hpq : ∀ params body scope, P params body scope → Q params body scope) : h.Closures Q := by
  intro place name params body scope hn
  exact hpq params body scope (hi place name params body scope hn)

theorem Closures.push {o : Object} (hi : h.Closures P)
    (ho : ∀ name params body scope, o.nature = .function name (.closure params body scope) →
      P params body scope) : (h.push o).Closures P := by
  intro place name params body scope hn
  by_cases hp : place = h.next
  · rw [hp, get_push_self] at hn
    exact ho name params body scope hn
  · rw [get_push_of_ne o hp] at hn
    exact hi place name params body scope hn

theorem Closures.bind (hi : h.Closures P) (place : Loc) (name : String) (value : Value) :
    (h.bind place name value).Closures P := by
  intro other name' params body scope hn
  rw [nature_bind] at hn
  exact hi other name' params body scope hn

theorem Closures.bindAll (hi : h.Closures P) (place : Loc) (bindings : List (String × Value)) :
    (h.bindAll place bindings).Closures P := by
  intro other name params body scope hn
  rw [nature_bindAll] at hn
  exact hi other name params body scope hn

end Closures

/-! ### Later heaps -/

/-- A later heap: objects stay what they are, and keep the names bound in them, in their order. -/
structure Extends (h h' : Heap) : Prop where
  /-- No object goes. -/
  next_le : h.next ≤ h'.next
  /-- No object changes its kind. -/
  nature : ∀ place < h.next, (h'.get place).nature = (h.get place).nature
  /-- No name goes, and new ones come last. -/
  names : ∀ place < h.next, (h.get place).slots.names <+: (h'.get place).slots.names

theorem Extends.refl (h : Heap) : h.Extends h :=
  ⟨Nat.le_refl _, fun _ _ => rfl, fun _ _ => List.prefix_rfl⟩

theorem Extends.trans {h h' h'' : Heap} (a : h.Extends h') (b : h'.Extends h'') : h.Extends h'' where
  next_le := Nat.le_trans a.next_le b.next_le
  nature place hp :=
    (b.nature place (Nat.lt_of_lt_of_le hp a.next_le)).trans (a.nature place hp)
  names place hp := (a.names place hp).trans (b.names place (Nat.lt_of_lt_of_le hp a.next_le))

theorem extends_push (h : Heap) (o : Object) : h.Extends (h.push o) where
  next_le := by simp
  nature place hp := by rw [get_push_of_lt o hp]
  names place hp := by simp only [get_push_of_lt o hp, List.prefix_rfl]

theorem extends_bind (h : Heap) (place : Loc) (name : String) (value : Value) :
    h.Extends (h.bind place name value) where
  next_le := by simp
  nature other _ := nature_bind h place name value other
  names other hp := by
    by_cases heq : other = place
    · subst heq
      rw [get_bind_self name value hp]
      exact Slots.names_prefix_set _ _ _
    · simp only [get_bind_of_ne name value heq, List.prefix_rfl]

theorem extends_bindAll (h : Heap) (place : Loc) (bindings : List (String × Value)) :
    h.Extends (h.bindAll place bindings) := by
  induction bindings generalizing h with
  | nil => exact .refl h
  | cons binding bindings ih => exact (extends_bind h place _ _).trans (ih _)

/-! ### What a change leaves alone -/

/-- A later heap on which objects of some sort keep their bindings. -/
structure Frame (kept : Heap → Loc → Prop) (h h' : Heap) : Prop extends Extends h h' where
  /-- Their bindings are the same. -/
  slots : ∀ place < h.next, kept h place → (h'.get place).slots = (h.get place).slots

/-- An object of the sort is one on all later heaps. -/
def Persists (kept : Heap → Loc → Prop) : Prop :=
  ∀ h h' place, h.Extends h' → place < h.next → kept h place → kept h' place

section Frame

variable {kept kept' : Heap → Loc → Prop}

theorem Frame.refl (kept : Heap → Loc → Prop) (h : Heap) : Frame kept h h :=
  ⟨.refl h, fun _ _ _ => rfl⟩

theorem Frame.trans (hk : Persists kept) {h h' h'' : Heap} (a : Frame kept h h')
    (b : Frame kept h' h'') : Frame kept h h'' where
  toExtends := a.toExtends.trans b.toExtends
  slots place hp hkept := by
    have hkept' := hk h h' place a.toExtends hp hkept
    rw [b.slots place (Nat.lt_of_lt_of_le hp a.next_le) hkept', a.slots place hp hkept]

/-- What leaves more objects alone also leaves fewer alone. -/
theorem Frame.mono (hf : Frame kept h h')
    (hsub : ∀ place < h.next, kept' h place → kept h place) : Frame kept' h h' where
  toExtends := hf.toExtends
  slots place hp hkept := hf.slots place hp (hsub place hp hkept)

theorem frame_push (kept : Heap → Loc → Prop) (h : Heap) (o : Object) :
    Frame kept h (h.push o) where
  toExtends := extends_push h o
  slots place hp _ := by rw [get_push_of_lt o hp]

theorem frame_bind (hp : ¬ kept h place) (name : String) (value : Value) :
    Frame kept h (h.bind place name value) where
  toExtends := extends_bind h place name value
  slots other _ hkept := by
    have hne : other ≠ place := by
      rintro rfl
      exact hp hkept
    rw [get_bind_of_ne name value hne]

theorem frame_bindAll (hp : ¬ kept h place) (bindings : List (String × Value)) :
    Frame kept h (h.bindAll place bindings) where
  toExtends := extends_bindAll h place bindings
  slots other _ hkept := by
    have hne : other ≠ place := by
      rintro rfl
      exact hp hkept
    rw [get_bindAll_of_ne hne]

end Frame

/-! ### Looking for names -/

/-- Names are bound that were to be bound. -/
theorem mem_names_bindAll {bindings : List (String × Value)} (hp : place < h.next)
    (hn : name ∈ bindings.map Prod.fst) :
    name ∈ ((h.bindAll place bindings).get place).slots.names := by
  induction bindings generalizing h with
  | nil => cases hn
  | cons binding bindings ih =>
    rw [bindAll_cons]
    rcases List.mem_cons.mp hn with rfl | hn
    · refine ((extends_bindAll _ place bindings).names place (by simpa using hp)).subset ?_
      rw [get_bind_self _ _ hp]
      exact Slots.mem_names_set _ _ _
    · exact ih (by simpa using hp) hn

theorem lookupFrom_succ (h : Heap) (name : String) (fuel : Nat) (place : Loc) :
    h.lookupFrom name (fuel + 1) place =
      ((h.get place).slots.get? name).or
        ((h.get place).parent?.bind (h.lookupFrom name fuel)) := by
  rw [lookupFrom]
  cases (h.get place).slots.get? name with
  | some value => rfl
  | none => cases (h.get place).parent? <;> rfl

theorem lookupFrom_of_mem {fuel : Nat} (hf : 0 < fuel)
    (hn : name ∈ (h.get place).slots.names) : (h.lookupFrom name fuel place).isSome := by
  obtain ⟨fuel, rfl⟩ := Nat.exists_eq_add_one.mpr hf
  rw [lookupFrom_succ, Option.isSome_or, Slots.isSome_get?.mpr hn, Bool.true_or]

/-- A name that is found stays found, from the same object and with no less fuel. -/
theorem Extends.isSome_lookupFrom (he : h.Extends h') {fuel fuel' : Nat} (hf : fuel ≤ fuel')
    (hs : (h.lookupFrom name fuel place).isSome) : (h'.lookupFrom name fuel' place).isSome := by
  induction fuel generalizing fuel' place with
  | zero => cases hs
  | succ fuel ih =>
    obtain ⟨fuel', rfl⟩ := Nat.exists_eq_add_one.mpr (Nat.lt_of_lt_of_le (Nat.succ_pos fuel) hf)
    have hp : place < h.next := by
      by_contra hp
      rw [lookupFrom_succ, get_of_next_le (Nat.le_of_not_lt hp)] at hs
      cases hs
    rw [lookupFrom_succ, Option.isSome_or, Bool.or_eq_true] at hs ⊢
    rcases hs with hs | hs
    · exact .inl (Slots.isSome_get?.mpr ((he.names place hp).subset (Slots.isSome_get?.mp hs)))
    · right
      rw [Object.parent?_congr (he.nature place hp)]
      cases hq : (h.get place).parent? with
      | none => rw [hq] at hs; cases hs
      | some parent =>
        rw [hq] at hs
        exact ih (Nat.succ_le_succ_iff.mp hf) hs

/-- An object in which a name is found is there. -/
theorem lt_of_isSome_lookup? (hs : (h.lookup? place name).isSome) : place < h.next := by
  by_contra hp
  rw [lookup?, lookupFrom_succ, get_of_next_le (Nat.le_of_not_lt hp)] at hs
  cases hs

theorem Extends.isSome_lookup? (he : h.Extends h') (hs : (h.lookup? place name).isSome) :
    (h'.lookup? place name).isSome :=
  he.isSome_lookupFrom (Nat.le_refl _) hs

theorem isSome_lookup?_of_mem (hn : name ∈ (h.get place).slots.names) :
    (h.lookup? place name).isSome :=
  lookupFrom_of_mem (Nat.succ_pos place) hn

/-- What is found from the parent of a scope is found from the scope. -/
theorem isSome_lookup?_of_parent {parent : Loc} (hp : (h.get place).parent? = some parent)
    (hlt : parent < place) (hs : (h.lookup? parent name).isSome) :
    (h.lookup? place name).isSome := by
  rw [lookup?, lookupFrom_succ, hp, Option.isSome_or, Option.bind_some,
    (Extends.refl h).isSome_lookupFrom hlt hs, Bool.or_true]

/-- What is found is bound in some object. -/
theorem exists_mem_of_lookupFrom {fuel : Nat} (hs : h.lookupFrom name fuel place = some value) :
    ∃ other, (name, value) ∈ (h.get other).slots := by
  induction fuel generalizing place with
  | zero => cases hs
  | succ fuel ih =>
    rw [lookupFrom_succ, Option.or_eq_some_iff] at hs
    rcases hs with hs | ⟨-, hs⟩
    · exact ⟨place, Slots.mem_of_get? hs⟩
    · obtain ⟨parent, -, hs⟩ := Option.bind_eq_some_iff.mp hs
      exact ih hs

end Heap

end Scriptlet
