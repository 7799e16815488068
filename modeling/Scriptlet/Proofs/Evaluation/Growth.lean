import Scriptlet.Proofs.Evaluation.Discipline

/-!
# What evaluation only adds to

Whatever is evaluated, objects stay what they are and names stay bound. And a computation is followed on one
machine by what the first of its steps does there, and what the others do on the machine that it leaves.

## What is proved

* `Eval.bind_of_ok`, `Eval.bind_of_error`, `Eval.bind_eq_ok_iff`, `Eval.bind_congr`: a computation after its
  first step.
* `growth`, `extends_of_eval`: evaluation of anything leads to a later heap.
-/

namespace Scriptlet

namespace Eval

variable {α β : Type} {x y : Eval α} {f g : α → Eval β} {m m' : Machine}

theorem bind_of_ok {a : α} (h : x m = .ok a m') : (x >>= f) m = f a m' := by
  show EStateM.bind x f m = f a m'
  rw [EStateM.bind, h]

theorem bind_of_error {abrupt : Abrupt} (h : x m = .error abrupt m') :
    (x >>= f) m = .error abrupt m' := by
  show EStateM.bind x f m = .error abrupt m'
  rw [EStateM.bind, h]

/-- A computation has a value if its first step and the others do. -/
theorem bind_eq_ok_iff {b : β} :
    (x >>= f) m = .ok b m' ↔ ∃ a m₁, x m = .ok a m₁ ∧ f a m₁ = .ok b m' := by
  constructor
  · intro h
    cases hx : x m with
    | ok a m₁ => exact ⟨a, m₁, rfl, (bind_of_ok hx).symm.trans h⟩
    | error abrupt m₁ =>
      rw [bind_of_error hx] at h
      cases h
  · rintro ⟨a, m₁, hx, hf⟩
    rw [bind_of_ok hx, hf]

/-- Computations agree on a machine if their first steps do, and the others do afterwards. -/
theorem bind_congr (hx : x m = y m) (hf : ∀ a m', x m = .ok a m' → f a m' = g a m') :
    (x >>= f) m = (y >>= g) m := by
  cases h : x m with
  | ok a m' => rw [bind_of_ok h, bind_of_ok (hx ▸ h), hf a m' h]
  | error abrupt m' => rw [bind_of_error h, bind_of_error (hx ▸ h)]

theorem locate_congr (line : Int) (h : x m = y m) : locate line x m = locate line y m := by
  rw [locate, locate, h]

/-- Lines are for failures only. -/
theorem locate_eq_ok_iff {line : Int} {a : α} : locate line x m = .ok a m' ↔ x m = .ok a m' := by
  unfold locate
  cases x m with
  | ok b m₁ => exact Iff.rfl
  | error abrupt m₁ => cases abrupt <;> exact iff_of_false (fun h => by cases h) fun h => by cases h

theorem resolve_of_lookup? {scope : Loc} {name : String} {v : Value}
    (h : m.heap.lookup? scope name = some v) : resolve scope name m = .ok v m := by
  refine (bind_of_ok rfl).trans ?_
  rw [h]
  rfl

/-- What `print` writes: the line that traces it, if calls are traced, and its arguments. -/
theorem print_eq (args : List Value) (m : Machine) : print args m =
    .ok .undefined ((if m.tracing then m.writeLine .diagnostic (m.heap.traceLine args)
      else m).writeLine .program (m.heap.printLine args)) := by
  obtain ⟨heap, written, tracing, root⟩ := m
  cases tracing with
  | true => rfl
  | false => rfl

end Eval

open Heap in
/-- Evaluation of anything leads to a later heap. -/
def growth : Discipline where
  inv _ := True
  value _ _ := True
  code _ _ _ := True
  runs _ _ _ := True
  change _ := Extends
  fault _ := True
  change_refl _ := Extends.refl
  change_trans := Extends.trans
  value_change _ _ := trivial
  code_change _ _ := trivial
  runs_change _ _ := trivial
  value_plain _ := trivial
  value_lookup _ _ := trivial
  fault_other _ := trivial
  fault_name _ _ _ _ := trivial
  code_operand _ _ := trivial
  runs_branches _ := ⟨trivial, trivial⟩
  runs_nested _ _ := trivial
  code_statement _ _ _ := trivial
  declare {h scope _} _ _ := ⟨trivial, extends_bindAll h scope _, trivial⟩
  bind {h scope _ name v} _ _ _ _ := ⟨trivial, extends_bind h scope name v⟩
  make {h _ _ _ _ _ _} _ _ := ⟨trivial, extends_push h _, trivial⟩
  collect {h _ _} _ _ _ := ⟨trivial, extends_push h _, trivial⟩
  setField {h _ place _ _ name _ v} _ _ _ _ := ⟨trivial, extends_bind h place name v⟩
  enter {h _ _ captured _ params _ receiver args} _ _ _ _ _ :=
    ⟨trivial, trivial, fun _ he => (extends_enter h params captured receiver args).trans he⟩

namespace Discipline

variable {D : Discipline} {α : Type} {scope : Loc} {m m' : Machine} {x : Eval α} {a : α}
  {post : Heap → α → Prop}

/-- A computation that ends with a value has led where it may. -/
theorem Keeps.leads_of_ok (hx : D.Keeps scope m x post) (hi : D.inv m.heap)
    (h : x m = .ok a m') : D.Leads scope m m' := by
  have hends := hx hi
  rw [h] at hends
  exact hends.1

end Discipline

/-- What is evaluated to a value leads to a later heap. -/
theorem extends_of_eval {depth : Nat} {scope : Loc} {e : Expr} {m m' : Machine} {v : Value}
    (h : eval depth scope e m = .ok v m') : m.heap.Extends m'.heap :=
  ((growth.keeps_eval depth scope m e trivial).leads_of_ok trivial h).change

end Scriptlet
