import Scriptlet.Proofs.Evaluation.Discipline
import Scriptlet.Proofs.Script.Declarations

/-!
# Binding what a construct declares

Before a block runs, all names that it declares are bound without a value in the scope that it runs in.
What that does to the machine can be said exactly. Names that are bound already lose their values and stay
where they are, those that are not come behind the others, in the order in which they are declared first,
and nothing else changes, in the scope or anywhere.

## What is proved

* `Slots.exists_areNew`: which names come behind the others, and in which order.
* `Slots.getElem?_declare`: where other bindings are.
* `Heap.bindAll_undefined_eq_self`: names without a value can be declared again.
* `Machine.declares_exactly`: what declaring does, that doing it again does nothing, and that the order in
  which two constructs are declared shows in the order of new names only.
-/

namespace Scriptlet

/-! ### New names -/

/-- The names of a list that are not bound yet, in the order in which they come up there first. -/
structure AreNew (bound names fresh : List String) : Prop where
  /-- Each of them comes once. -/
  nodup : fresh.Nodup
  /-- They are in the list and not bound. -/
  mem : ∀ name, name ∈ fresh ↔ name ∈ names ∧ name ∉ bound
  /-- They are in order. -/
  inOrder : fresh.Pairwise fun name other => names.idxOf name < names.idxOf other

section AreNew

variable {bound names fresh : List String} {name : String}

theorem AreNew.nil (bound : List String) : AreNew bound [] [] where
  nodup := List.nodup_nil
  mem name := by simp
  inOrder := .nil

/-- Behind one more name, names come up one place later. -/
theorem idxOf_cons_lt {a b : String} (ha : a ≠ name) (hb : b ≠ name)
    (h : names.idxOf a < names.idxOf b) : (name :: names).idxOf a < (name :: names).idxOf b := by
  rw [List.idxOf_cons_ne _ ha.symm, List.idxOf_cons_ne _ hb.symm]
  exact Nat.succ_lt_succ h

/-- A name that is bound makes no difference. -/
theorem AreNew.cons_of_mem (h : AreNew bound names fresh) (hname : name ∈ bound) :
    AreNew bound (name :: names) fresh where
  nodup := h.nodup
  mem other := by
    rw [h.mem, List.mem_cons]
    constructor
    · exact fun ⟨hin, hnew⟩ => ⟨.inr hin, hnew⟩
    · rintro ⟨rfl | hin, hnew⟩
      · exact absurd hname hnew
      · exact ⟨hin, hnew⟩
  inOrder := by
    have hne : ∀ a ∈ fresh, a ≠ name := by
      rintro a ha rfl
      exact ((h.mem a).mp ha).2 hname
    exact h.inOrder.imp_of_mem fun ha hb => idxOf_cons_lt (hne _ ha) (hne _ hb)

/-- A name that is not bound is the first of those that come up. -/
theorem AreNew.cons_of_notMem (h : AreNew (bound ++ [name]) names fresh) (hname : name ∉ bound) :
    AreNew bound (name :: names) (name :: fresh) := by
  have hne : ∀ a ∈ fresh, a ≠ name := by
    rintro a ha rfl
    exact ((h.mem a).mp ha).2 (List.mem_append_right _ (List.mem_singleton_self a))
  refine ⟨List.nodup_cons.mpr ⟨fun hin => hne name hin rfl, h.nodup⟩, fun other => ?_, ?_⟩
  · rw [List.mem_cons, List.mem_cons, h.mem, List.mem_append, List.mem_singleton]
    by_cases heq : other = name
    · subst heq
      simp [hname]
    · simp [heq]
  · refine List.pairwise_cons.mpr ⟨fun other hin => ?_, ?_⟩
    · rw [List.idxOf_cons_self, List.idxOf_cons_ne _ (hne other hin).symm]
      exact Nat.succ_pos _
    · exact h.inOrder.imp_of_mem fun ha hb => idxOf_cons_lt (hne _ ha) (hne _ hb)

end AreNew

/-! ### Bindings -/

namespace Slots

/-- The bindings with names bound without a value, one after the other. -/
def declare (slots : Slots) : List String → Slots
  | [] => slots
  | name :: names => (slots.set name .undefined).declare names

variable {slots : Slots} {names : List String} {name : String} {value : Value}

/-- The names that declaring adds come behind the others. -/
theorem exists_areNew (slots : Slots) (names : List String) :
    ∃ fresh, (slots.declare names).names = slots.names ++ fresh ∧
      AreNew slots.names names fresh := by
  induction names generalizing slots with
  | nil => exact ⟨[], (List.append_nil _).symm, .nil _⟩
  | cons name names ih =>
    obtain ⟨fresh, hnames, hnew⟩ := ih (slots.set name .undefined)
    rw [names_set] at hnames hnew
    by_cases hname : name ∈ slots.names
    · rw [if_pos hname] at hnames hnew
      exact ⟨fresh, hnames, hnew.cons_of_mem hname⟩
    · rw [if_neg hname] at hnames hnew
      refine ⟨name :: fresh, ?_, hnew.cons_of_notMem hname⟩
      rw [declare, hnames, List.append_assoc, List.singleton_append]

/-- What is not declared stays where it is. -/
theorem getElem?_declare {i : Nat} (h : slots[i]? = some (name, value)) (hnot : name ∉ names) :
    (slots.declare names)[i]? = some (name, value) := by
  induction names generalizing slots with
  | nil => exact h
  | cons other names ih =>
    rw [List.mem_cons, not_or] at hnot
    exact ih (getElem?_set h hnot.1) hnot.2

end Slots

/-! ### The heap -/

namespace Heap

variable {h : Heap} {place : Loc} {names : List String}

/-- Declaring names on the heap declares them in one object. -/
theorem slots_bindAll_undefined (hp : place < h.next) :
    ((h.bindAll place (names.map fun name => (name, .undefined))).get place).slots =
      (h.get place).slots.declare names := by
  induction names generalizing h with
  | nil => rfl
  | cons name names ih =>
    rw [List.map_cons, bindAll_cons, ih (by rwa [next_bind]), slots_bind _ _ hp, if_pos rfl]
    rfl

/-- Names that have no value already can be declared once more. -/
theorem bindAll_undefined_eq_self
    (hget : ∀ name ∈ names, (h.get place).slots.get? name = some .undefined) :
    h.bindAll place (names.map fun name => (name, .undefined)) = h := by
  induction names with
  | nil => rfl
  | cons name names ih =>
    rw [List.map_cons, bindAll_cons, bind_eq_self (hget name List.mem_cons_self)]
    exact ih fun other hin => hget other (List.mem_cons_of_mem _ hin)

end Heap

/-! ### The machine -/

namespace Machine

/-- The machine with names declared in a scope. -/
def declareNames (m : Machine) (scope : Loc) (names : List String) : Machine :=
  { m with heap := m.heap.bindAll scope (names.map fun name => (name, .undefined)) }

/-- What is bound in a scope. -/
def bindings (m : Machine) (scope : Loc) : Slots := (m.heap.get scope).slots

/-- One machine is another one with something bound in a scope. -/
structure DiffersIn (scope : Loc) (m m' : Machine) : Prop where
  /-- Nothing but the heap is different. -/
  heapOnly : m' = { m with heap := m'.heap }
  /-- The same objects are on the heap. -/
  next : m'.heap.next = m.heap.next
  /-- The scope is what it was. -/
  nature : (m'.heap.get scope).nature = (m.heap.get scope).nature
  /-- All other objects are what they were and have the same bindings. -/
  others : ∀ place, place ≠ scope → m'.heap.get place = m.heap.get place

/-- One machine is another one with the names that a construct declares bound in a scope. -/
structure Declared (e : Expr) (scope : Loc) (m m' : Machine) : Prop extends DiffersIn scope m m' where
  /-- The names declared are bound without a value. -/
  undefined : ∀ name, e.Declares name → (m'.bindings scope).get? name = some .undefined
  /-- All other names keep their values and their places. -/
  kept : ∀ (i : Nat) (name : String) (value : Value), ¬ e.Declares name →
    (m.bindings scope)[i]? = some (name, value) → (m'.bindings scope)[i]? = some (name, value)
  /-- Names that were bound stay where they are, and behind them come those that are declared and were
  not bound, each once and in the order of their first declarations. -/
  names : ∃ fresh, (m'.bindings scope).names = (m.bindings scope).names ++ fresh ∧ fresh.Nodup ∧
    (∀ name, name ∈ fresh ↔ e.Declares name ∧ name ∉ (m.bindings scope).names) ∧
    fresh.Pairwise e.DeclaresBefore

/-- Two machines with the same bindings, but for the order of names that are not bound in a third one. -/
structure AgreeButForOrder (scope : Loc) (m m₁ m₂ : Machine) : Prop extends DiffersIn scope m₁ m₂ where
  /-- Names have the same values. -/
  values : ∀ name, (m₂.bindings scope).get? name = (m₁.bindings scope).get? name
  /-- The names bound before are in their places, and the new ones are the same. -/
  names : ∃ fresh₁ fresh₂, (m₁.bindings scope).names = (m.bindings scope).names ++ fresh₁ ∧
    (m₂.bindings scope).names = (m.bindings scope).names ++ fresh₂ ∧ fresh₁.Perm fresh₂

variable {m : Machine} {scope : Loc} {e e' : Expr} {names names' : List String}

theorem run_declare (m : Machine) (scope : Loc) (names : List String) :
    Eval.declare scope names m = .ok () (m.declareNames scope names) := rfl

theorem declareNames_append (m : Machine) (scope : Loc) (names names' : List String) :
    m.declareNames scope (names ++ names') =
      (m.declareNames scope names).declareNames scope names' := by
  rw [declareNames, List.map_append, Heap.bindAll_append]
  rfl

theorem get?_declareNames (hscope : scope < m.heap.next) (names : List String) (name : String) :
    ((m.declareNames scope names).bindings scope).get? name =
      if name ∈ names then some .undefined else (m.bindings scope).get? name :=
  Heap.get?_bindAll_undefined names hscope name

theorem bindings_declareNames (hscope : scope < m.heap.next) (names : List String) :
    (m.declareNames scope names).bindings scope = (m.bindings scope).declare names :=
  Heap.slots_bindAll_undefined hscope

/-- Declaring names in a scope makes a difference there only, whichever names are compared. -/
theorem differsIn_declareNames (m : Machine) (scope : Loc) (names names' : List String) :
    DiffersIn scope (m.declareNames scope names) (m.declareNames scope names') where
  heapOnly := rfl
  next := (Heap.next_bindAll _ _ _).trans (Heap.next_bindAll _ _ _).symm
  nature := (Heap.nature_bindAll _ _ _ _).trans (Heap.nature_bindAll _ _ _ _).symm
  others _ hp := (Heap.get_bindAll_of_ne hp).trans (Heap.get_bindAll_of_ne hp).symm

/-- Declaring what a construct declares does what it should. -/
theorem declared_declareNames (hscope : scope < m.heap.next) (e : Expr) :
    Declared e scope m (m.declareNames scope e.declared) where
  toDiffersIn := differsIn_declareNames m scope [] e.declared
  undefined name hname := by
    rw [get?_declareNames hscope, if_pos (Expr.mem_declared_iff.mpr hname)]
  kept i name value hname hi := by
    rw [bindings_declareNames hscope]
    exact Slots.getElem?_declare hi fun hin => hname (Expr.mem_declared_iff.mp hin)
  names := by
    obtain ⟨fresh, hnames, hnew⟩ := (m.bindings scope).exists_areNew e.declared
    refine ⟨fresh, ?_, hnew.nodup, fun name => ?_, ?_⟩
    · rw [bindings_declareNames hscope, hnames]
    · rw [hnew.mem, Expr.mem_declared_iff]
    · exact hnew.inOrder.imp Expr.declaresBefore_of_idxOf_lt

/-- Declaring names once more changes nothing. -/
theorem declareNames_declareNames (hscope : scope < m.heap.next) (names : List String) :
    (m.declareNames scope names).declareNames scope names = m.declareNames scope names := by
  have hget : ∀ name ∈ names,
      (((m.declareNames scope names).heap.get scope).slots).get? name = some .undefined :=
    fun name hname => (get?_declareNames hscope names name).trans (if_pos hname)
  exact congrArg (fun heap => { m with heap }) (Heap.bindAll_undefined_eq_self hget)

/-- The order in which names are declared shows in the order of new names only. -/
theorem agree_declareNames_append (hscope : scope < m.heap.next) (names names' : List String) :
    AgreeButForOrder scope m (m.declareNames scope (names ++ names'))
      (m.declareNames scope (names' ++ names)) where
  toDiffersIn := differsIn_declareNames m scope _ _
  values name := by
    simp only [get?_declareNames hscope, List.mem_append, or_comm]
  names := by
    obtain ⟨fresh₁, hnames₁, hnew₁⟩ := (m.bindings scope).exists_areNew (names ++ names')
    obtain ⟨fresh₂, hnames₂, hnew₂⟩ := (m.bindings scope).exists_areNew (names' ++ names)
    refine ⟨fresh₁, fresh₂, ?_, ?_, (List.perm_ext_iff_of_nodup hnew₁.nodup hnew₂.nodup).mpr ?_⟩
    · rw [bindings_declareNames hscope, hnames₁]
    · rw [bindings_declareNames hscope, hnames₂]
    · intro name
      rw [hnew₁.mem, hnew₂.mem, List.mem_append, List.mem_append, or_comm]

/-- **Declaring binds exactly the names that a construct declares**: without a value, in one scope, the new
ones last and in the order of their first declarations. Doing it again changes nothing, and two constructs
can be declared in either order, which shows in the order of new names only. -/
theorem declares_exactly (hscope : scope < m.heap.next) (e : Expr) :
    ∃ m', Eval.declare scope e.declared m = .ok () m' ∧ Declared e scope m m' ∧
      Eval.declare scope e.declared m' = .ok () m' ∧
      ∀ e' : Expr, ∃ m₁ m₂,
        (do Eval.declare scope e.declared; Eval.declare scope e'.declared) m = .ok () m₁ ∧
        (do Eval.declare scope e'.declared; Eval.declare scope e.declared) m = .ok () m₂ ∧
        AgreeButForOrder scope m m₁ m₂ := by
  refine ⟨m.declareNames scope e.declared, rfl, declared_declareNames hscope e, ?_, fun e' => ?_⟩
  · rw [run_declare, declareNames_declareNames hscope]
  · refine ⟨_, _, rfl, rfl, ?_⟩
    show AgreeButForOrder scope m ((m.declareNames scope e.declared).declareNames scope e'.declared)
      ((m.declareNames scope e'.declared).declareNames scope e.declared)
    rw [← declareNames_append, ← declareNames_append]
    exact agree_declareNames_append hscope _ _

/-- A block in which one branch declares `b` and the other one `a`, and a statement behind them `b` again;
a function in it declares `c` for itself. -/
def branching : Expr :=
  .block ⟨[.choose (.literal (.int 1) 1)
      ⟨[.assign "b" (.literal .undefined 1) true 1], 1⟩
      ⟨[.assign "a" (.literal .undefined 1) true 1], 1⟩ 1,
    .assign "b" (.literal .undefined 2) true 2,
    .function "f" [] true ⟨[.assign "c" (.literal .undefined 3) true 3], 3⟩ 3], 1⟩

/-- In a fresh global scope, `b` comes before `a`, and there is no `c`. -/
theorem declares_exactly_branching :
    Heap.globals < (start false).heap.next ∧
    ∃ m', Eval.declare Heap.globals branching.declared (start false) = .ok () m' ∧
      Declared branching Heap.globals (start false) m' ∧
      (m'.bindings Heap.globals).names = Heap.globalSlots.names ++ ["b", "a"] := by
  have hscope : Heap.globals < (start false).heap.next := by decide
  obtain ⟨m', hrun, hdeclared, -⟩ := declares_exactly hscope branching
  refine ⟨hscope, m', hrun, hdeclared, ?_⟩
  cases hrun
  rfl

end Machine

end Scriptlet
