import Scriptlet.Proofs.Evaluation.Congruence

/-!
# Depth

How deeply constructs may be nested is a bound on what runs, and nothing that a script can notice: a run
that stays within it does the same within any greater one.

## What is proved

* `Shallow.bind`: what stays within a bound part by part stays within it as a whole.
* `shallow_eval`: evaluation within a bound does the same as within any greater one.
* `runEntry_of_le`, `runSource_of_le`: so do entries and scripts.
-/

namespace Scriptlet

variable {α β : Type}

/-- The second computation does what the first one does, unless that one nests constructs too deeply. -/
def Shallow (x y : Eval α) : Prop :=
  ∀ m, (∃ m', x m = .error .tooDeep m') ∨ y m = x m

/-! ### Computations -/

theorem Shallow.refl (x : Eval α) : Shallow x x := fun _ => .inr rfl

theorem Shallow.bind {x y : Eval α} {f g : α → Eval β} (hx : Shallow x y)
    (hf : ∀ a, Shallow (f a) (g a)) : Shallow (x >>= f) (y >>= g) := by
  intro m
  rcases hx m with ⟨m', hdeep⟩ | heq
  · exact .inl ⟨m', Eval.bind_of_error hdeep⟩
  · cases hr : x m with
    | ok a m' =>
      rw [Eval.bind_of_ok hr, Eval.bind_of_ok (heq.trans hr)]
      exact hf a m'
    | error abrupt m' =>
      rw [Eval.bind_of_error hr, Eval.bind_of_error (heq.trans hr)]
      exact .inr rfl

theorem Shallow.locate {x y : Eval α} (hx : Shallow x y) (line : Int) :
    Shallow (Eval.locate line x) (Eval.locate line y) := by
  intro m
  unfold Eval.locate
  rcases hx m with ⟨m', hdeep⟩ | heq
  · rw [hdeep]
    exact .inl ⟨m', rfl⟩
  · rw [heq]
    exact .inr rfl

theorem Shallow.functionBody {x y : Eval Unit} (hx : Shallow x y) :
    Shallow (Eval.functionBody x) (Eval.functionBody y) := by
  intro m
  unfold Eval.functionBody
  rcases hx m with ⟨m', hdeep⟩ | heq
  · rw [hdeep]
    exact .inl ⟨m', rfl⟩
  · rw [heq]
    exact .inr rfl

/-! ### Constructs -/

/-- Evaluation respects what a bound on depth can change. -/
def shallowness : Congruence where
  rel := Shallow
  pure _ := .refl _
  throw _ := .refl _
  bind := Shallow.bind
  locate line hx := hx.locate line
  functionBody := Shallow.functionBody
  heap := .refl _
  bindAll _ _ := .refl _
  allocate _ := .refl _
  print _ := .refl _

/-- **Evaluation within a bound does the same as within any greater one**, if it stays within it. -/
theorem shallow_eval {depth depth' : Nat} (hd : depth ≤ depth') (scope : Loc) (e : Expr) :
    Shallow (eval depth scope e) (eval depth' scope e) := by
  induction depth generalizing depth' scope e with
  | zero => exact fun m => .inl ⟨m, rfl⟩
  | succ depth ih =>
    obtain ⟨depth', rfl⟩ := Nat.exists_eq_add_one.mpr (Nat.lt_of_lt_of_le (Nat.succ_pos depth) hd)
    have hrec : ∀ scope e, Shallow (eval depth scope e) (eval depth' scope e) :=
      ih (Nat.le_of_succ_le_succ hd)
    exact (shallowness.step hrec scope e).locate e.line

/-! ### Source texts -/

/-- Why a run fails, if it does. -/
def Outcome.failure? (o : Outcome α) : Option Failure :=
  match o.1 with
  | .ok _ => none
  | .error f => some f

section Source

variable {depth depth' : Nat}

theorem execute_of_le (hd : depth ≤ depth') (scope : Loc) (e : Expr) (m : Machine) :
    (execute depth scope e m).failure? = some .tooDeep ∨
      execute depth' scope e m = execute depth scope e m := by
  unfold execute
  rcases shallow_eval hd scope e m with ⟨m', hdeep⟩ | heq
  · rw [hdeep]
    exact .inl rfl
  · rw [heq]
    exact .inr rfl

theorem runBody_of_le (hd : depth ≤ depth') (scope : Loc) (body : Block) (m : Machine) :
    (runBody depth scope body m).failure? = some .tooDeep ∨
      runBody depth' scope body m = runBody depth scope body m := by
  have hrun : Shallow
      (Eval.declare scope body.declared >>= fun _ =>
        lastValue (eval depth scope) .undefined body.statements)
      (Eval.declare scope body.declared >>= fun _ =>
        lastValue (eval depth' scope) .undefined body.statements) :=
    (Shallow.refl _).bind fun _ => shallowness.lastValue (shallow_eval hd scope) _ _
  unfold runBody
  dsimp only
  rcases hrun m with ⟨m', hdeep⟩ | heq
  · rw [hdeep]
    exact .inl rfl
  · rw [heq]
    exact .inr rfl

/-- An entry that stays within a bound does the same within any greater one. -/
theorem runEntry_of_le (hd : depth ≤ depth') (scope : Loc) (source : String) (m : Machine) :
    (runEntry depth scope source m).failure? = some .tooDeep ∨
      runEntry depth' scope source m = runEntry depth scope source m := by
  unfold runEntry
  cases Parsing.parse source with
  | error e => exact .inr rfl
  | ok script => exact runBody_of_le hd scope script.body m

/-- So does a script. -/
theorem runSource_of_le (hd : depth ≤ depth') (scope : Loc) (source : String) (m : Machine) :
    (runSource depth scope source m).failure? = some .tooDeep ∨
      runSource depth' scope source m = runSource depth scope source m := by
  unfold runSource
  cases Parsing.parse source with
  | error e => exact .inr rfl
  | ok script => exact execute_of_le hd scope _ m

end Source

end Scriptlet
