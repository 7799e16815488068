import Scriptlet.Proofs.Evaluation.Congruence
import Scriptlet.Proofs.Evaluation.Interruption
import Scriptlet.Proofs.Evaluation.Tame
import Scriptlet.Proofs.Store.Rendering

/-!
# What is bound stays bound

Binding a name never takes another one away, and never moves one. So from any moment of a run to any later
one, every object keeps its names where they are, and new ones come behind them, however the run ends and
wherever it is looked at. The moments of a run are the machines on which it is cut short: of two ways to cut
it short, the one that stops no earlier leaves the later machine.

## What is proved

* `Heap.Retains`: a preorder of heaps that contains every change of a heap, fresh global scopes included.
* `retention`: evaluation of anything leads to a heap that retains the one before.
* `isCut_evalUntil`: a run that is cut short stops on a heap from which a run that stops later goes on.
* `Heap.render_plain`: an object shows what is bound in it, in order.
* `names_evalFields`: the fields of a new object are in the order in which they come up first.
-/

namespace Scriptlet

/-! ### Heaps -/

/-- If names come first among those of some bindings, then their bindings do among these. -/
theorem Slots.exists_append_of_prefix {slots : Slots} {names : List String}
    (h : names <+: slots.names) : ∃ kept added : Slots, slots = kept ++ added ∧ kept.names = names := by
  obtain ⟨others, hothers⟩ := h
  obtain ⟨kept, added, hslots, hkept, -⟩ := List.map_eq_append_iff.mp hothers.symm
  exact ⟨kept, added, hslots, hkept⟩

namespace Heap

variable {h h' : Heap} {place : Loc}

/-- A later heap, on which objects whose names were different still have different names. -/
structure Retains (h h' : Heap) : Prop extends Extends h h' where
  /-- The names in an object are still different. -/
  nodup : ∀ place, (h.get place).slots.names.Nodup → (h'.get place).slots.names.Nodup

theorem Retains.refl (h : Heap) : h.Retains h := ⟨.refl h, fun _ hd => hd⟩

theorem Retains.trans {h h' h'' : Heap} (a : h.Retains h') (b : h'.Retains h'') : h.Retains h'' :=
  ⟨a.toExtends.trans b.toExtends, fun place hd => b.nodup place (a.nodup place hd)⟩

theorem retains_push (h : Heap) {o : Object} (ho : o.slots.names.Nodup) : h.Retains (h.push o) where
  toExtends := extends_push h o
  nodup place hd := by
    by_cases hp : place = h.next
    · rw [hp, get_push_self]
      exact ho
    · rwa [get_push_of_ne o hp]

theorem retains_bind (h : Heap) (place : Loc) (name : String) (value : Value) :
    h.Retains (h.bind place name value) where
  toExtends := extends_bind h place name value
  nodup other hd := by
    by_cases hp : other = place
    · subst hp
      by_cases hlt : other < h.next
      · rw [get_bind_self name value hlt]
        exact Slots.nodup_names_set hd
      · rw [get_of_next_le (by simpa using hlt)]
        exact List.nodup_nil
    · rwa [get_bind_of_ne name value hp]

theorem retains_bindAll (h : Heap) (place : Loc) (bindings : List (String × Value)) :
    h.Retains (h.bindAll place bindings) := by
  induction bindings generalizing h with
  | nil => exact .refl h
  | cons binding bindings ih => exact (retains_bind h place _ _).trans (ih _)

theorem retains_enter (h : Heap) (params : List String) (scope : Loc) (receiver : Value)
    (args : List Value) : h.Retains (h.enter params scope receiver args) :=
  ((retains_push h (o := ⟨.scope (some scope), []⟩) List.nodup_nil).trans
    (retains_bind _ _ _ _)).trans (retains_bindAll _ _ _)

theorem nodup_globalObjects {root : Loc} {o : Object} (ho : o ∈ globalObjects root) :
    o.slots.names.Nodup := by
  rcases List.mem_cons.mp ho with rfl | ho
  · show (globalSlotsAt root).names.Nodup
    rw [names_globalSlotsAt]
    decide
  · obtain ⟨b, -, rfl⟩ := List.mem_map.mp ho
    exact List.nodup_nil

/-- A fresh global scope leaves all that there is alone. -/
theorem retains_createGlobals (h : Heap) : h.Retains h.createGlobals.2 := by
  rw [createGlobals_eq]
  exact List.foldlRecOn (motive := (h.Retains ·)) _ _ (.refl h) fun _ hr _ ho =>
    hr.trans (retains_push _ (nodup_globalObjects ho))

/-- Names in an object come first among its names later on. -/
theorem Extends.names_prefix (he : h.Extends h') (place : Loc) :
    (h.get place).slots.names <+: (h'.get place).slots.names := by
  by_cases hp : place < h.next
  · exact he.names place hp
  · rw [get_of_next_le (Nat.le_of_not_lt hp)]
    exact List.nil_prefix

/-- Names that are different later on were different before. -/
theorem Extends.nodup_of_nodup (he : h.Extends h') (hd : (h'.get place).slots.names.Nodup) :
    (h.get place).slots.names.Nodup :=
  (he.names_prefix place).sublist.nodup hd

/-! ### Objects are shown in the order of their names -/

/-- How a binding of an object is shown in it. -/
def fieldText (h : Heap) (place : Loc) (slot : String × Value) : String :=
  slot.1 ++ ": " ++
    match slot.2 with
    | .undefined => "undefined"
    | .int n => toString n
    | .str s => "\"" ++ s ++ "\""
    | .ref inner => h.renderFrom h.objects.size [place] inner

/-- An object shows what is bound in it, in order. -/
theorem render_plain (hn : (h.get place).nature = .plain) :
    h.render place =
      "\x7b" ++ String.intercalate ", " ((h.get place).slots.map (h.fieldText place)) ++ "\x7d" := by
  rw [render, renderFrom, hn]
  rfl

end Heap

/-! ### Evaluation -/

open Heap in
/-- Evaluation of anything leads to a heap that retains the one before. -/
def retention : Discipline where
  inv _ := True
  value _ _ := True
  code _ _ _ := True
  runs _ _ _ := True
  change _ := Retains
  fault _ := True
  change_refl _ := Retains.refl
  change_trans := Retains.trans
  value_change _ _ := trivial
  code_change _ _ := trivial
  runs_change _ _ := trivial
  value_plain _ := trivial
  value_lookup _ _ := trivial
  fault_other _ := trivial
  fault_name _ _ _ _ := trivial
  code_operand _ _ := trivial
  runs_branches _ := ⟨trivial, trivial⟩
  runs_nested _ _ := trivial
  code_statement _ _ _ := trivial
  declare {h scope _} _ _ := ⟨trivial, retains_bindAll h scope _, trivial⟩
  bind {h scope _ name v} _ _ _ _ := ⟨trivial, retains_bind h scope name v⟩
  make {h _ _ _ _ _ _} _ _ := ⟨trivial, retains_push h List.nodup_nil, trivial⟩
  collect {h _ _} _ hd _ := ⟨trivial, retains_push h hd, trivial⟩
  setField {h _ place _ _ name _ v} _ _ _ _ := ⟨trivial, retains_bind h place name v⟩
  enter {h _ _ captured _ params _ receiver args} _ _ _ _ _ :=
    ⟨trivial, trivial, fun _ hr => (retains_enter h params captured receiver args).trans hr⟩

/-! ### Runs that are cut short -/

section Cut

variable {α β : Type}

theorem Eval.after_bind_of_ok {x : Eval α} {f : α → Eval β} {m m' : Machine} {a : α}
    (h : x m = .ok a m') : Eval.after (x >>= f) m = Eval.after (f a) m' := by
  rw [Eval.after, Eval.after, Eval.bind_of_ok h]

theorem Eval.after_bind_of_error {x : Eval α} {f : α → Eval β} {m m' : Machine} {abrupt : Abrupt}
    (h : x m = .error abrupt m') : Eval.after (x >>= f) m = m' := by
  rw [Eval.after, Eval.bind_of_error h]

theorem Eval.after_locate (line : Int) (x : Eval α) (m : Machine) :
    Eval.after (Eval.locate line x) m = Eval.after x m := by
  unfold Eval.after Eval.locate
  cases x m with
  | ok a m' => rfl
  | error abrupt m' => cases abrupt <;> rfl

theorem Eval.after_functionBody (x : Eval Unit) (m : Machine) :
    Eval.after (Eval.functionBody x) m = Eval.after x m := by
  unfold Eval.after Eval.functionBody
  cases x m with
  | ok a m' => rfl
  | error abrupt m' => cases abrupt <;> rfl

theorem Eval.after_stopIf (stop : Machine → Bool) (m : Machine) :
    Eval.after (Eval.stopIf stop) m = m := by
  unfold Eval.after Eval.stopIf
  cases stop m <;> rfl

theorem Eval.heap_after_print (args : List Value) (m : Machine) :
    (Eval.after (Eval.print args) m).heap = m.heap := by
  rw [Eval.after, Eval.print_eq]
  obtain ⟨heap, written, tracing, root⟩ := m
  cases tracing <;> rfl

/-- The second computation leads to a later heap, on every machine. The first one does the same, or is cut
short on a heap from which the second one has gone on. -/
def IsCut (x y : Eval α) : Prop :=
  ∀ m : Machine, m.heap.Extends (Eval.after y m).heap ∧
    (x m = y m ∨
      ∃ m₁, x m = .error .tooDeep m₁ ∧ m₁.heap.Extends (Eval.after y m).heap)

namespace IsCut

/-- What only adds to the heap is a cut of itself. -/
theorem refl {x : Eval α} (hx : ∀ m : Machine, m.heap.Extends (Eval.after x m).heap) : IsCut x x :=
  fun m => ⟨hx m, .inl rfl⟩

theorem extends_after {x y : Eval α} (h : IsCut x y) (m : Machine) :
    (Eval.after x m).heap.Extends (Eval.after y m).heap := by
  rcases (h m).2 with heq | ⟨m₁, hstop, he⟩
  · rw [Eval.after, Eval.after, heq]
    exact .refl _
  · rw [Eval.after, hstop]
    exact he

theorem bind {x y : Eval α} {f g : α → Eval β} (hx : IsCut x y) (hf : ∀ a, IsCut (f a) (g a)) :
    IsCut (x >>= f) (y >>= g) := by
  intro m
  obtain ⟨hgrows, hcut⟩ := hx m
  cases hy : y m with
  | ok a m' =>
    have hm' : Eval.after y m = m' := by rw [Eval.after, hy]
    rw [hm', hy] at hcut
    rw [hm'] at hgrows
    rw [Eval.after_bind_of_ok hy, Eval.bind_of_ok hy]
    obtain ⟨hgrows', hcut'⟩ := hf a m'
    refine ⟨hgrows.trans hgrows', ?_⟩
    rcases hcut with hx | ⟨m₁, hstop, he⟩
    · rw [Eval.bind_of_ok hx]
      exact hcut'
    · exact .inr ⟨m₁, Eval.bind_of_error hstop, he.trans hgrows'⟩
  | error abrupt m' =>
    have hm' : Eval.after y m = m' := by rw [Eval.after, hy]
    rw [hm', hy] at hcut
    rw [hm'] at hgrows
    rw [Eval.after_bind_of_error hy, Eval.bind_of_error hy]
    refine ⟨hgrows, ?_⟩
    rcases hcut with hx | ⟨m₁, hstop, he⟩
    · exact .inl (Eval.bind_of_error hx)
    · exact .inr ⟨m₁, Eval.bind_of_error hstop, he⟩

theorem locate {x y : Eval α} (hx : IsCut x y) (line : Int) :
    IsCut (Eval.locate line x) (Eval.locate line y) := by
  intro m
  obtain ⟨hgrows, hcut⟩ := hx m
  rw [Eval.after_locate]
  refine ⟨hgrows, ?_⟩
  rcases hcut with heq | ⟨m₁, hstop, he⟩
  · exact .inl (Eval.locate_congr line heq)
  · refine .inr ⟨m₁, ?_, he⟩
    rw [Eval.locate, hstop]

theorem functionBody {x y : Eval Unit} (hx : IsCut x y) :
    IsCut (Eval.functionBody x) (Eval.functionBody y) := by
  intro m
  obtain ⟨hgrows, hcut⟩ := hx m
  rw [Eval.after_functionBody]
  refine ⟨hgrows, ?_⟩
  rcases hcut with heq | ⟨m₁, hstop, he⟩
  · left
    rw [Eval.functionBody, Eval.functionBody, heq]
  · refine .inr ⟨m₁, ?_, he⟩
    rw [Eval.functionBody, hstop]

end IsCut

open Heap in
/-- Evaluation respects where runs are cut short. -/
def cutting : Congruence where
  rel := IsCut
  pure _ := .refl fun m => .refl m.heap
  throw _ := .refl fun m => .refl m.heap
  bind := IsCut.bind
  locate line hx := hx.locate line
  functionBody := IsCut.functionBody
  heap := .refl fun m => .refl m.heap
  bindAll place bindings := .refl fun m => extends_bindAll m.heap place bindings
  allocate o := .refl fun m => extends_push m.heap o
  print args := .refl fun m => by
    rw [Eval.heap_after_print]
    exact .refl m.heap

/-- What stops later goes on from where the other one stops. -/
theorem isCut_stopIf {stop stop' : Machine → Bool} (h : ∀ m, stop' m = true → stop m = true) :
    IsCut (Eval.stopIf stop) (Eval.stopIf stop') := by
  intro m
  rw [Eval.after_stopIf]
  refine ⟨.refl m.heap, ?_⟩
  unfold Eval.stopIf
  by_cases hstop : stop m = true
  · exact .inr ⟨m, if_pos hstop, .refl m.heap⟩
  · rw [if_neg hstop, if_neg (fun hstop' => hstop (h m hstop'))]
    exact .inl rfl

/-- **A run that is cut short stops on a heap from which a run that stops later goes on.** -/
theorem isCut_evalUntil {stop stop' : Loc → Expr → Machine → Bool}
    (h : ∀ scope e m, stop' scope e m = true → stop scope e m = true) (depth : Nat) (scope : Loc)
    (e : Expr) : IsCut (evalUntil stop depth scope e) (evalUntil stop' depth scope e) := by
  induction depth generalizing scope e with
  | zero => exact .refl fun m => .refl m.heap
  | succ depth ih =>
    refine (isCut_stopIf (h scope e)).bind fun _ => ?_
    refine ((cutting.step ih scope e).locate e.line).bind fun v => ?_
    exact (isCut_stopIf (h scope e)).bind fun _ => cutting.pure v

end Cut

/-! ### New objects -/

/-- The fields of a new object are in the order in which they come up first. -/
theorem names_evalFields {run : Expr → Eval Value} {fields : List (String × Expr)}
    {slots slots' : Slots} {seen : List String} {m m' : Machine}
    (hslots : slots.names = seen.eraseDups)
    (h : Eval.evalFields run slots fields m = .ok slots' m') :
    slots'.names = (seen ++ fields.map Prod.fst).eraseDups := by
  induction fields generalizing slots seen m with
  | nil =>
    cases h
    rw [List.map_nil, List.append_nil, hslots]
  | cons field fields ih =>
    obtain ⟨v, m₁, -, hrest⟩ := Eval.bind_eq_ok_iff.mp h
    have hset : (slots.set field.1 v).names = (seen ++ [field.1]).eraseDups := by
      rw [Slots.names_set, hslots, List.eraseDups_append]
      by_cases hm : field.1 ∈ seen
      · simp [List.removeAll, hm]
      · simp [List.removeAll, hm, List.eraseDups_cons]
    rw [ih hset hrest, List.map_cons, List.append_assoc, List.singleton_append]

end Scriptlet
