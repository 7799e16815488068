import Scriptlet.Proofs.Evaluation.Encapsulation

/-!
# Reachable heaps

The heaps that evaluation can lead to: from the first one, any constructs are evaluated one after the
other, each in some scope that is there, to whatever end they come. They need not be constructs that
the reader of source text makes.

## What is proved

* `Heap.Encapsulated.exists_chain`: from every object, parents lead through different scopes to the end
  in finitely many steps, and looking for a name goes exactly this way.
* `Heap.Reachable.scopes_encapsulated`: no scope of a call is a value, and all scopes are inside the
  global one.
* `Heap.Reachable.writes_only_own_scope`: evaluation in a scope binds names in no other scope but the
  global one, and in no other object at all where no field is assigned to.
-/

namespace Scriptlet

namespace Heap

variable {h : Heap}

/-! ### The scopes around an object -/

/-- From an object, parents lead through the objects of the path, and the last one has none. -/
inductive Chain (h : Heap) : Loc → List Loc → Prop where
  /-- An object without a parent. -/
  | last {place : Loc} : (h.get place).parent? = none → Chain h place [place]
  /-- An object with a parent. -/
  | inner {place parent : Loc} {path : List Loc} :
    (h.get place).parent? = some parent → Chain h parent path → Chain h place (place :: path)

theorem parent?_eq_some {place parent : Loc} :
    (h.get place).parent? = some parent ↔ (h.get place).nature = .scope (some parent) := by
  unfold Object.parent?
  cases (h.get place).nature with
  | plain => simp
  | function => simp
  | scope parent' => simp

/-- Every chain goes back on the heap. -/
theorem Encapsulated.exists_chain (hi : h.Encapsulated) (place : Loc) :
    ∃ path, h.Chain place path ∧ path.Pairwise (· > ·) ∧ (∀ other ∈ path, other ≤ place) ∧
      path.length ≤ place + 1 ∧ (h.IsScope place → path.getLast? = some globals) := by
  induction place using Nat.strongRecOn with
  | _ place ih =>
    cases hp : (h.get place).parent? with
    | none =>
      refine ⟨[place], .last hp, List.pairwise_singleton _ _, ?_, Nat.le_add_left _ _, ?_⟩
      · intro other hm
        exact Nat.le_of_eq (List.mem_singleton.mp hm)
      · rintro ⟨parent, hn⟩
        obtain rfl : parent = none := by rw [Object.parent?, hn] at hp; exact hp
        rw [hi.globals_of_none place hn]
        rfl
    | some parent =>
      obtain ⟨hlt, hs⟩ := hi.parent place parent (parent?_eq_some.mp hp)
      obtain ⟨path, hchain, hpath, hle, hlength, hlast⟩ := ih parent hlt
      refine ⟨place :: path, .inner hp hchain, List.pairwise_cons.mpr ⟨?_, hpath⟩, ?_, ?_, ?_⟩
      · exact fun other hm => Nat.lt_of_le_of_lt (hle other hm) hlt
      · exact List.forall_mem_cons.mpr
          ⟨Nat.le_refl _, fun other hm => Nat.le_of_lt (Nat.lt_of_le_of_lt (hle other hm) hlt)⟩
      · exact Nat.succ_le_succ (Nat.le_trans hlength hlt)
      · intro _
        rw [List.getLast?_cons, hlast hs]
        rfl

/-- Looking for a name goes along the chain. -/
theorem Chain.lookupFrom_eq {place : Loc} {path : List Loc} (hc : h.Chain place path)
    (name : String) : ∀ {fuel : Nat}, path.length ≤ fuel →
      h.lookupFrom name fuel place = path.findSome? fun other => (h.get other).slots.get? name := by
  induction hc with
  | @last place hp =>
    intro fuel hf
    obtain ⟨fuel, rfl⟩ := Nat.exists_eq_add_one.mpr hf
    rw [lookupFrom_succ, hp, List.findSome?_cons]
    cases (h.get place).slots.get? name <;> rfl
  | @inner place parent path hp _ ih =>
    intro fuel hf
    obtain ⟨fuel, rfl⟩ := Nat.exists_eq_add_one.mpr (Nat.lt_of_lt_of_le (Nat.succ_pos _) hf)
    rw [lookupFrom_succ, hp, Option.bind_some, ih (Nat.le_of_succ_le_succ hf), List.findSome?_cons]
    cases (h.get place).slots.get? name <;> rfl

/-! ### Reachable heaps -/

/-- A heap that evaluation leads to. -/
inductive Reachable : Heap → Prop where
  /-- The first heap. -/
  | initial : Reachable .initial
  /-- What a construct leads to that is evaluated in some scope, however that ends. -/
  | evaluated {m : Machine} {scope : Loc} (depth : Nat) (e : Expr) : Reachable m.heap →
    m.heap.IsScope scope → Reachable (Eval.after (eval depth scope e) m).heap

theorem Reachable.encapsulated (hr : h.Reachable) : h.Encapsulated := by
  induction hr with
  | initial => exact encapsulated_initial
  | @evaluated m scope depth e _ hs ih =>
    exact ((encapsulation.keeps_eval depth scope m e hs).leads_after ih).inv

/-- **No scope of a call is a value, and all scopes are inside the global one.** On a reachable heap, a
scope that is bound somewhere is the global one. The parents of a scope lead to the global scope in
finitely many steps and never back, and so do those of the scope that a function was made in; other
objects have no parent. So looking for a name goes through finitely many objects. And a construct that
is evaluated does not yield or return the scope of a call either. -/
theorem Reachable.scopes_encapsulated (hr : h.Reachable) :
    (∀ place, ∀ slot ∈ (h.get place).slots, ∀ target, slot.2 = .ref target →
      h.IsScope target → target = globals) ∧
    (∀ place, h.IsScope place →
      ∃ path, h.Chain place path ∧ path.Nodup ∧ path.getLast? = some globals) ∧
    (∀ place name params body scope,
      (h.get place).nature = .function name (.closure params body scope) →
        h.IsScope scope ∧
          ∃ path, h.Chain scope path ∧ path.Nodup ∧ path.getLast? = some globals) ∧
    (∀ place, ¬ h.IsScope place → (h.get place).parent? = none) ∧
    (∀ place, ∃ path, h.Chain place path ∧ path.Nodup ∧ ∀ name,
      h.lookup? place name = path.findSome? fun other => (h.get other).slots.get? name) ∧
    ∀ (m m' : Machine) (depth : Nat) (scope : Loc) (e : Expr) (target : Loc),
      m.heap = h → h.IsScope scope →
        eval depth scope e m = .ok (.ref target) m' ∨
          eval depth scope e m = .error (.returned (.ref target)) m' →
        m'.heap.IsScope target → target = globals := by
  have hi := hr.encapsulated
  have hchain : ∀ place, h.IsScope place →
      ∃ path, h.Chain place path ∧ path.Nodup ∧ path.getLast? = some globals := by
    intro place hs
    obtain ⟨path, hc, hpath, -, -, hlast⟩ := hi.exists_chain place
    exact ⟨path, hc, hpath.imp Nat.ne_of_gt, hlast hs⟩
  refine ⟨?_, hchain, ?_, ?_, ?_, ?_⟩
  · intro place slot hm target hv hs
    exact (hi.stored place slot hm target hv).2 hs
  · intro place name params body scope hn
    have hs := hi.captured place name params body scope hn
    exact ⟨hs, hchain scope hs⟩
  · intro place hs
    unfold Object.parent?
    cases hn : (h.get place).nature with
    | plain => rfl
    | function name code => rfl
    | scope parent => exact absurd ⟨parent, hn⟩ hs
  · intro place
    obtain ⟨path, hc, hpath, -, hlength, -⟩ := hi.exists_chain place
    exact ⟨path, hc, hpath.imp Nat.ne_of_gt, fun name => hc.lookupFrom_eq name hlength⟩
  · rintro m m' depth scope e target rfl hs hends hs'
    have hkeeps := encapsulation.keeps_eval depth scope m e hs hi
    rcases hends with hends | hends
    · rw [hends] at hkeeps
      exact (hkeeps.2 target rfl).2 hs'
    · rw [hends] at hkeeps
      exact (hkeeps.2 target rfl).2 hs'

/-- The heap after `let f = (function (n) { return function () { n = 8; return n; }; })(7);`, where the
scope of the call is that of the function bound to `f`. -/
def afterClosure : Heap :=
  let assign : Expr := .assign "n" (.literal (.int 8) 1) false 1
  let inner : Expr := .function "lambda" [] false ⟨[assign, .returns (.identifier "n" 1) 1], 1⟩ 1
  let outer : Expr := .function "lambda" ["n"] false ⟨[.returns inner 1], 1⟩ 1
  let call : Expr := .call outer [.literal (.int 7) 1] 1
  (Eval.after (eval 5 globals (.assign "f" call true 1)) (.start false)).heap

theorem reachable_afterClosure : afterClosure.Reachable :=
  .evaluated 5 _ .initial (isScope_initial.mpr rfl)

/-- The scope of the call, at place `14`, is bound nowhere, and inside the global one. -/
theorem scopes_encapsulated_afterClosure :
    afterClosure.Reachable ∧ afterClosure.IsScope 14 ∧
    (∀ place, ∀ slot ∈ (afterClosure.get place).slots, slot.2 ≠ .ref 14) ∧
    ∃ path, afterClosure.Chain 14 path ∧ path.Nodup ∧ path.getLast? = some globals := by
  have hs : afterClosure.IsScope 14 := ⟨some globals, rfl⟩
  obtain ⟨hbound, hchain, -⟩ := reachable_afterClosure.scopes_encapsulated
  refine ⟨reachable_afterClosure, hs, fun place slot hm hv => ?_, hchain 14 hs⟩
  cases hbound place slot hm 14 hv hs

/-! ### What evaluation changes -/

/-- No function of the heap assigns to fields. -/
def AssignsNoFields (h : Heap) : Prop :=
  h.Closures fun _ body _ => body.all (fun e => !e.isSetField) = true

/-- An object other than the given one. -/
def Other (scope : Loc) (_ : Heap) (place : Loc) : Prop := place ≠ scope

theorem persists_other (scope : Loc) : Persists (Other scope) := by
  intro _ _ _ _ _ hne
  exact hne

theorem not_other_self (scope : Loc) (h : Heap) : ¬ Other scope h scope := by
  intro hne
  exact hne rfl

end Heap

open Heap in
/-- Where no field is assigned to, evaluation in a scope binds names in that scope only. -/
def withoutFields : Discipline where
  inv := AssignsNoFields
  value _ _ := True
  code _ _ e := e.all (fun e => !e.isSetField) = true
  runs _ _ body := body.all (fun e => !e.isSetField) = true
  change scope := Frame (Other scope)
  fault _ := True
  change_refl scope := Frame.refl (Other scope)
  change_trans := Frame.trans (persists_other _)
  value_change _ _ := trivial
  code_change _ hc := hc
  runs_change _ hb := hb
  value_plain _ := trivial
  value_lookup _ _ := trivial
  fault_other _ := trivial
  fault_name _ _ _ _ := trivial
  code_operand := Expr.all_operand
  runs_branches := Expr.all_branches
  runs_nested hb hm := (Expr.all_block.mp (Block.all_iff.mp hb _ hm)).2
  code_statement hb hm _ := Block.all_iff.mp hb _ hm
  declare {h scope _} hi hc :=
    ⟨Closures.bindAll hi scope _, frame_bindAll (not_other_self scope h) _,
      (Expr.all_block.mp hc).2⟩
  bind {h scope _ name v} hi _ _ _ :=
    ⟨Closures.bind hi scope name v, frame_bind (not_other_self scope h) name v⟩
  make {h _ _ _ _ _ _} hi hc := by
    refine ⟨Closures.push hi ?_, frame_push _ h _, trivial⟩
    rintro _ _ _ _ ⟨⟩
    exact Expr.all_body hc
  collect {h _ _} hi _ _ :=
    ⟨Closures.push hi fun _ _ _ _ => Nature.noConfusion, frame_push _ h _, trivial⟩
  setField _ hc _ _ := Bool.noConfusion (Expr.all_self hc)
  enter {h scope place captured name params body receiver args} hi hn _ _ _ := by
    have hbody := hi place name params body captured hn
    refine ⟨?_, Expr.all_block.mpr ⟨rfl, hbody⟩, fun h' hf => ?_⟩
    · exact ((Closures.push hi fun _ _ _ _ => Nature.noConfusion).bind _ _ _).bindAll _ _
    · have hframe := (frame_enter h params captured receiver args _).trans (persists_other _) hf
      exact hframe.mono fun other hp _ => Nat.ne_of_lt hp

namespace Heap

/-- **Evaluation in a scope writes to that scope alone, and through fields.** However it ends, scopes
other than its own and the global one keep their bindings, and every object stays what it is. If in
addition no field is assigned to, neither in the construct nor in any function on the heap, then every
object but the scope itself keeps its bindings. -/
theorem Reachable.writes_only_own_scope {m : Machine} {scope : Loc} (hr : m.heap.Reachable)
    (hs : m.heap.IsScope scope) (depth : Nat) (e : Expr) :
    (∀ place, m.heap.IsScope place → place ≠ scope → place ≠ globals →
      ((Eval.after (eval depth scope e) m).heap.get place).slots = (m.heap.get place).slots) ∧
    (∀ place < m.heap.next,
      ((Eval.after (eval depth scope e) m).heap.get place).nature = (m.heap.get place).nature) ∧
    (e.all (fun e => !e.isSetField) = true → m.heap.AssignsNoFields →
      ∀ place < m.heap.next, place ≠ scope →
        ((Eval.after (eval depth scope e) m).heap.get place).slots = (m.heap.get place).slots) := by
  have hframe := ((encapsulation.keeps_eval depth scope m e hs).leads_after hr.encapsulated).change
  refine ⟨fun place hs' hne hne' => ?_, hframe.nature, fun hc hi => ?_⟩
  · exact hframe.slots place hs'.lt ⟨hs', hne, hne'⟩
  · exact ((withoutFields.keeps_eval depth scope m e hc).leads_after hi).change.slots

/-- Calling `f` in the global scope of `afterClosure` leaves `n` as it is in the scope that the function
was made in, although the function assigns to `n`; and nothing but the global scope changes. -/
theorem writes_only_own_scope_afterClosure :
    (afterClosure.Reachable ∧ afterClosure.IsScope globals ∧ afterClosure.AssignsNoFields) ∧
    ∃ h : Heap,
      h = (Eval.after (eval 4 globals (.call (.identifier "f" 2) [] 2))
        { Machine.start false with heap := afterClosure }).heap ∧
      (h.get 14).slots = [("this", .undefined), ("n", .int 7)] ∧
      ∀ place < afterClosure.next, place ≠ globals →
        (h.get place).slots = (afterClosure.get place).slots := by
  have hs : afterClosure.IsScope globals := ⟨none, rfl⟩
  have hi : afterClosure.AssignsNoFields :=
    ((withoutFields.keeps_eval 5 globals (.start false) _ (by rfl)).leads_after
      (closures_initial _)).inv
  obtain ⟨hscopes, -, hslots⟩ :=
    Reachable.writes_only_own_scope (m := { Machine.start false with heap := afterClosure })
      reachable_afterClosure hs 4 (.call (.identifier "f" 2) [] 2)
  refine ⟨⟨reachable_afterClosure, hs, hi⟩, _, rfl, ?_, hslots rfl hi⟩
  exact (hscopes 14 ⟨some globals, rfl⟩ (by decide) (by decide)).trans rfl

end Heap

end Scriptlet
