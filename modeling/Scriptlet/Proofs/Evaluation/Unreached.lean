import Scriptlet.Proofs.Evaluation.Failing

/-!
# Code that does not run

While a block is evaluated, some of its code is not come to: the statements after one that has ended abruptly,
and the branches of a choice that are not taken. All that the block needs of this code are the names that it
declares, since they are bound before the first statement runs. So it can be replaced by other code that
declares the same names in the same order, and nobody can tell.

## What is proved

* `Reworked.declared_eq`: replacing such code leaves the declared names as they are.
* `Reworked.run_eq`: the statements do what they did before.
* `unreached_code_only_declares`: so does the block.
-/

namespace Scriptlet

open Eval

/-! ### Replaced code -/

mutual

/-- On the way through statements, code that is not come to has been replaced by code that declares the same
names. -/
inductive Reworked (scope : Loc) : Nat → Machine → List Expr → List Expr → Prop where
  /-- There is nothing left. -/
  | nil {depth : Nat} {m : Machine} : Reworked scope depth m [] []
  /-- The first statement has run, and the others come next. -/
  | next {depth : Nat} {m m₁ : Machine} {e e' : Expr} {es es' : List Expr} :
    ReworkedStatement scope depth m e e' → runStatement (eval depth scope) e m = .ok () m₁ →
      Reworked scope depth m₁ es es' → Reworked scope depth m (e :: es) (e' :: es')
  /-- The first statement has ended abruptly, and all others have been replaced. -/
  | ended {depth : Nat} {m m₁ : Machine} {abrupt : Abrupt} {e e' : Expr} {es es' : List Expr} :
    ReworkedStatement scope depth m e e' → runStatement (eval depth scope) e m = .error abrupt m₁ →
      declaredIn es' = declaredIn es → Reworked scope depth m (e :: es) (e' :: es')

/-- Code has been replaced within a statement. -/
inductive ReworkedStatement (scope : Loc) : Nat → Machine → Expr → Expr → Prop where
  /-- None has been. -/
  | same {depth : Nat} {m : Machine} {e : Expr} : ReworkedStatement scope depth m e e
  /-- It has been in a block that stands in the block. -/
  | block {depth : Nat} {m : Machine} {es es' : List Expr} {line line' : Int} :
    Reworked scope depth m es es' →
      ReworkedStatement scope depth m (.block ⟨es, line⟩) (.block ⟨es', line'⟩)
  /-- A branch that is not taken has been replaced by one that declares the same names, and in the one that is
  taken, if one is, code has been replaced. -/
  | choose {depth : Nat} {m : Machine} {condition : Expr} {yes yes' no no' : Block} {line : Int} :
    yes'.declared = yes.declared → no'.declared = no.declared →
      (∀ v m₁ taken, eval depth scope condition m = .ok v m₁ → v.truth? = some taken →
        Reworked scope depth m₁ (if taken then yes else no).statements
          (if taken then yes' else no').statements) →
      ReworkedStatement scope (depth + 1) m (.choose condition yes no line)
        (.choose condition yes' no' line)

end

/-! ### What it is replaced by makes no difference

Both proofs follow the way on which evaluation comes to the code that has not been replaced. -/

theorem runBlock_eq (run : Expr → Eval Value) (body : Block) :
    runBlock run body = runStatements run body.statements := by
  obtain ⟨es, line⟩ := body
  rfl

variable {scope : Loc}

mutual

/-- Replaced code declares what it did before. -/
theorem Reworked.declared_eq {depth : Nat} {m : Machine} {es es' : List Expr} :
    Reworked scope depth m es es' → declaredIn es' = declaredIn es
  | .nil => rfl
  | .next he _ hes => by rw [declaredIn, declaredIn, he.declared_eq, hes.declared_eq]
  | .ended he _ hes => by rw [declaredIn, declaredIn, he.declared_eq, hes]

theorem ReworkedStatement.declared_eq {depth : Nat} {m : Machine} {e e' : Expr} :
    ReworkedStatement scope depth m e e' → e'.declared = e.declared
  | .same => rfl
  | .block hes => hes.declared_eq
  | .choose hyes hno _ => by rw [Expr.declared, Expr.declared, hyes, hno]

end

mutual

/-- Replaced code does what it did before. -/
theorem Reworked.run_eq {depth : Nat} {m : Machine} {es es' : List Expr} :
    Reworked scope depth m es es' →
      runStatements (eval depth scope) es' m = runStatements (eval depth scope) es m
  | .nil => rfl
  | .next he hrun hes => by
    rw [runStatements, runStatements, bind_of_ok (he.run_eq.trans hrun), bind_of_ok hrun, hes.run_eq]
  | .ended he hrun _ => by
    rw [runStatements, runStatements, bind_of_error (he.run_eq.trans hrun), bind_of_error hrun]

theorem ReworkedStatement.run_eq {depth : Nat} {m : Machine} {e e' : Expr} :
    ReworkedStatement scope depth m e e' →
      runStatement (eval depth scope) e' m = runStatement (eval depth scope) e m
  | .same => rfl
  | .block hes => hes.run_eq
  | @ReworkedStatement.choose _ _ _ condition yes yes' no no' line _ _ hbranch => by
    refine bind_congr (locate_congr line (bind_congr rfl fun v m₁ hv => ?_)) fun _ _ _ => rfl
    cases htruth : v.truth? with
    | none => rfl
    | some taken =>
      have hrun := (hbranch v m₁ taken hv htruth).run_eq
      rw [← runBlock_eq, ← runBlock_eq] at hrun
      cases taken <;> exact bind_congr hrun fun _ _ _ => rfl

end

/-! ### Blocks -/

/-- **Code that does not run matters only through its declarations.** A block in which code that is not come
to has been replaced, with the same names declared, ends in the same way and leaves the same machine. -/
theorem unreached_code_only_declares {depth : Nat} {m : Machine} {es es' : List Expr} {line : Int}
    (h : Reworked scope depth (m.declared scope ⟨es, line⟩) es es') :
    eval (depth + 1) scope (.block ⟨es', line⟩) m = eval (depth + 1) scope (.block ⟨es, line⟩) m := by
  have hdeclared : m.declared scope ⟨es', line⟩ = m.declared scope ⟨es, line⟩ := by
    rw [Machine.declared, Machine.declared, Heap.declare, Heap.declare, Block.declared, Block.declared,
      h.declared_eq]
  refine locate_congr line ?_
  show (do runStatements (eval depth scope) es'; return .undefined : Eval Value)
      (m.declared scope ⟨es', line⟩) =
    (do runStatements (eval depth scope) es; return .undefined : Eval Value)
      (m.declared scope ⟨es, line⟩)
  rw [hdeclared]
  exact bind_congr h.run_eq fun _ _ _ => rfl

/-- `if (1) { var x = 2; return x; var y = print(3); } else { var z = 4; }` and `var w = 5;`. -/
def returningBranch : List Expr :=
  [.choose (.literal (.int 1) 1)
    ⟨[.assign "x" (.literal (.int 2) 1) true 1, .returns (.identifier "x" 1) 1,
      .assign "y" (.call (.identifier "print" 1) [.literal (.int 3) 1] 1) true 1], 1⟩
    ⟨[.assign "z" (.literal (.int 4) 1) true 1], 1⟩ 1,
  .assign "w" (.literal (.int 5) 2) true 2]

/-- The same, with other code behind the `return`, in the other branch and behind the choice. -/
def reworkedBranch : List Expr :=
  [.choose (.literal (.int 1) 1)
    ⟨[.assign "x" (.literal (.int 2) 1) true 1, .returns (.identifier "x" 1) 1,
      .block ⟨[.identifier "missing" 1, .assign "y" (.literal (.str "no") 1) true 1], 1⟩], 1⟩
    ⟨[.returns (.literal (.int 6) 1) 1, .assign "z" (.identifier "missing" 1) true 1], 1⟩ 1,
  .choose (.identifier "missing" 2) ⟨[], 2⟩ ⟨[.assign "w" (.identifier "w" 2) true 2], 2⟩ 2]

/-- The machine on which their first statement starts. -/
def beforeBranch : Machine := (Machine.start false).declared Heap.globals ⟨returningBranch, 1⟩

/-- The machine on which they return. -/
def atReturn : Machine :=
  { beforeBranch with heap := beforeBranch.heap.bind Heap.globals "x" (.int 2) }

/-- Both return `2`. -/
theorem unreached_code_only_declares_returningBranch :
    Reworked Heap.globals 3 beforeBranch returningBranch reworkedBranch ∧
      eval 4 Heap.globals (.block ⟨returningBranch, 1⟩) (.start false) =
        .error (.returned (.int 2)) atReturn ∧
      eval 4 Heap.globals (.block ⟨reworkedBranch, 1⟩) (.start false) =
        .error (.returned (.int 2)) atReturn := by
  have hchoose : ReworkedStatement Heap.globals 3 beforeBranch (returningBranch.head (by decide))
      (reworkedBranch.head (by decide)) := by
    refine .choose rfl rfl fun v m₁ taken hv htaken => ?_
    cases hv
    cases htaken
    have hassign : runStatement (eval 2 Heap.globals) (.assign "x" (.literal (.int 2) 1) true 1)
        beforeBranch = .ok () atReturn := rfl
    have hreturns : runStatement (eval 2 Heap.globals) (.returns (.identifier "x" 1) 1) atReturn =
        .error (.returned (.int 2)) atReturn := rfl
    exact .next .same hassign (.ended .same hreturns rfl)
  have hended : runStatement (eval 3 Heap.globals) (returningBranch.head (by decide)) beforeBranch =
      .error (.returned (.int 2)) atReturn := rfl
  have hbranch : Reworked Heap.globals 3 beforeBranch returningBranch reworkedBranch :=
    .ended hchoose hended rfl
  have hends : eval 4 Heap.globals (.block ⟨returningBranch, 1⟩) (.start false) =
      .error (.returned (.int 2)) atReturn := rfl
  exact ⟨hbranch, hends, (unreached_code_only_declares hbranch).trans hends⟩

end Scriptlet
