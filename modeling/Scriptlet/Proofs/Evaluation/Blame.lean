import Mathlib.Logic.Relation
import Scriptlet.Proofs.Evaluation.Entries
import Scriptlet.Proofs.Evaluation.Failing

/-!
# Which construct is to blame

A failure that has no line gets the line of the construct that is being evaluated, and one that has a line
keeps it. So it is the innermost construct whose line a failure carries: the one that fails by itself. All
constructs around it fail with the very same failure and leave the same machine.

## What is proved

* `Discipline.of_reaches`: what a construct comes to is as a discipline demands.
* `Site.outcome_of_within`: what fails in the course of a construct makes the construct fail alike.
* `Site.outcome_eq_failed_iff`: a construct fails exactly if some construct in its course is to blame.
-/

namespace Scriptlet

open Eval

/-! ### What a construct comes to keeps a discipline -/

namespace Discipline

variable {D : Discipline} {recur : Recur} {scope : Loc} {m m' : Machine} {e : Expr}

/-- A construct may be evaluated in a scope of a machine. -/
structure Allowed (D : Discipline) (scope : Loc) (e : Expr) (m : Machine) : Prop where
  /-- The heap is as every heap. -/
  inv : D.inv m.heap
  /-- The construct may be evaluated. -/
  code : D.code m.heap scope e

theorem of_row (hrec : D.Known recur) {es : List Expr} (hi : D.inv m.heap)
    (hc : ∀ e ∈ es, D.code m.heap scope e) (h : Row (recur scope) es m e m') :
    D.Allowed scope e m' := by
  induction h with
  | here => exact ⟨hi, hc _ List.mem_cons_self⟩
  | later hv _ ih =>
    obtain ⟨hfirst, hothers⟩ := List.forall_mem_cons.mp hc
    have hleads := (hrec scope _ _ hfirst).leads_of_ok hi hv
    exact ih hleads.inv fun e he => D.code_change hleads.change (hothers e he)

theorem of_starts (hrec : D.Known recur) {es : List Expr} (hi : D.inv m.heap)
    (hc : ∀ e ∈ es, D.Statement m.heap scope e) (h : Starts (recur scope) es m e m') :
    D.Allowed scope e m' := by
  induction h with
  | here hne => exact ⟨hi, (hc _ List.mem_cons_self).2 hne⟩
  | inside _ ih =>
    have hinner := (hc _ List.mem_cons_self).1 _ rfl
    exact ih hi fun e he =>
      ⟨fun inner heq => D.runs_nested hinner (heq ▸ he), D.code_statement hinner he⟩
  | later hv _ ih =>
    obtain ⟨hfirst, hothers⟩ := List.forall_mem_cons.mp hc
    have hleads := (keeps_runStatement hrec hfirst).leads_of_ok hi hv
    exact ih hleads.inv fun e he => (hothers e he).change hleads.change

/-- The statements of a block that runs. -/
theorem of_starts_block (hrec : D.Known recur) {body : Block} (hi : D.inv m.heap)
    (hb : D.runs m.heap scope body) (h : Starts (recur scope) body.statements m e m') :
    D.Allowed scope e m' :=
  of_starts hrec hi (fun _ he =>
    ⟨fun _ heq => D.runs_nested hb (heq ▸ he), D.code_statement hb he⟩) h

theorem of_invokes (hrec : D.Known recur) {place : Loc} {receiver : Value} {vs : List Value}
    (hi : D.inv m.heap) (hc : D.code m.heap scope e)
    (h : Invokes recur scope e m place receiver vs m') :
    D.inv m'.heap ∧ D.change scope m.heap m'.heap ∧ D.value m'.heap receiver ∧
      ∀ v ∈ vs, D.value m'.heap v := by
  cases h with
  | call hcallee _ hargs =>
    have hleads := (hrec scope m _ (D.code_operand hc List.mem_cons_self)).leads_of_ok hi hcallee
    have hends := keeps_evalAll hrec (fun e he => D.code_change hleads.change
      (D.code_operand hc (List.mem_cons_of_mem _ he))) hleads.inv
    rw [hargs] at hends
    exact ⟨hends.1.inv, (hleads.trans hends.1).change, value_undefined _, hends.2⟩
  | @method receiver name args line _ _ _ object place _ hreceiver _ _ hargs =>
    have hfirst := hrec scope m receiver (D.code_operand hc List.mem_cons_self) hi
    rw [hreceiver] at hfirst
    have hends := keeps_evalAll hrec (fun e he => D.code_change hfirst.1.change
      (D.code_operand hc (List.mem_cons_of_mem _ he))) hfirst.1.inv
    rw [hargs] at hends
    exact ⟨hends.1.inv, (hfirst.1.trans hends.1).change, D.value_change hends.1.change hfirst.2,
      hends.2⟩

/-- **What a construct comes to may be evaluated**, if the construct may and its parts keep the
discipline. -/
theorem of_reaches (hrec : D.Known recur) {scope' : Loc} {e' : Expr} (ha : D.Allowed scope e m)
    (h : Reaches recur scope e m scope' e' m') : D.Allowed scope' e' m' := by
  obtain ⟨hi, hc⟩ := ha
  have hoperand : ∀ part ∈ e.operands, D.code m.heap scope part :=
    fun _ hpart => D.code_operand hc hpart
  cases h with
  | statement hstarts =>
    obtain ⟨hi', -, hb⟩ := D.declare hi hc
    exact of_starts_block hrec hi' hb hstarts
  | callee => exact ⟨hi, hoperand _ List.mem_cons_self⟩
  | argument hcallee _ hrow =>
    have hleads := (hrec scope m _ (hoperand _ List.mem_cons_self)).leads_of_ok hi hcallee
    exact of_row hrec hleads.inv (fun e he => D.code_change hleads.change
      (hoperand e (List.mem_cons_of_mem _ he))) hrow
  | assigned _ => exact ⟨hi, hoperand _ List.mem_cons_self⟩
  | returned => exact ⟨hi, hoperand _ List.mem_cons_self⟩
  | condition => exact ⟨hi, hoperand _ List.mem_cons_self⟩
  | @branch _ _ _ _ _ _ _ taken _ _ hv _ hstarts =>
    have hleads := (hrec scope m _ (hoperand _ List.mem_cons_self)).leads_of_ok hi hv
    obtain ⟨hyes, hno⟩ := D.runs_branches (D.code_change hleads.change hc)
    cases taken with
    | true => exact of_starts_block hrec hleads.inv hyes hstarts
    | false => exact of_starts_block hrec hleads.inv hno hstarts
  | fieldValue hrow => exact of_row hrec hi hoperand hrow
  | receiver hreceiver => exact ⟨hi, hoperand _ (Expr.mem_operands_of_receiver? hreceiver)⟩
  | setFieldValue hreceiver =>
    have hleads := (hrec scope m _ (hoperand _ List.mem_cons_self)).leads_of_ok hi hreceiver
    exact ⟨hleads.inv, D.code_change hleads.change
      (hoperand _ (List.mem_cons_of_mem _ List.mem_cons_self))⟩
  | methodArgument hreceiver _ hrow =>
    have hleads := (hrec scope m _ (hoperand _ List.mem_cons_self)).leads_of_ok hi hreceiver
    exact of_row hrec hleads.inv (fun e he => D.code_change hleads.change
      (hoperand e (List.mem_cons_of_mem _ he))) hrow
  | body hinvokes hn hlength =>
    obtain ⟨hi', -, hreceiver, hargs⟩ := of_invokes hrec hi hc hinvokes
    obtain ⟨hi'', hcode, -⟩ := @D.enter _ scope _ _ _ _ _ _ _ hi' hn hreceiver hargs hlength
    exact ⟨hi'', hcode⟩

end Discipline

/-! ### Constructs in the course of others -/

/-- A construct that is about to be evaluated: how deeply constructs may still be nested, the scope, the
construct and the machine. -/
structure Site where
  /-- How deeply constructs may be nested. -/
  depth : Nat
  /-- The scope. -/
  scope : Loc
  /-- The construct. -/
  construct : Expr
  /-- The machine. -/
  machine : Machine

namespace Site

/-- What evaluation of the construct leads to. -/
def outcome (s : Site) : EStateM.Result Abrupt Machine Value :=
  eval s.depth s.scope s.construct s.machine

/-- A construct comes to the evaluation of another one. -/
inductive Next : Site → Site → Prop where
  /-- It does so within one evaluation step. -/
  | step {depth : Nat} {scope scope' : Loc} {e e' : Expr} {m m' : Machine} :
    Reaches (eval depth) scope e m scope' e' m' →
      Next ⟨depth + 1, scope, e, m⟩ ⟨depth, scope', e', m'⟩

/-- In the course of a construct, at any depth of calls and blocks, another one comes to be evaluated. -/
abbrev Within : Site → Site → Prop := Relation.ReflTransGen Next

/-- A construct fails by itself. -/
inductive FailsItself : Site → FaultCause → Machine → Prop where
  /-- Its own check fails, or the function that it calls does. -/
  | raised {depth : Nat} {scope : Loc} {e : Expr} {m m' : Machine} {cause : FaultCause} :
    Raises (eval depth) scope e m cause m' → FailsItself ⟨depth + 1, scope, e, m⟩ cause m'

/-- In the course of a construct another one, the culprit, fails by itself; the failure is on its line. -/
def Blames (s : Site) (culprit : Expr) (f : Fault) (m' : Machine) : Prop :=
  ∃ t, s.Within t ∧ t.construct = culprit ∧ t.FailsItself f.cause m' ∧ f.line = some culprit.line

variable {s t : Site} {f : Fault} {cause : FaultCause} {m' : Machine} {culprit : Expr}

/-- What a construct comes to fails with a line of its own, which it keeps. -/
theorem outcome_of_next (h : s.Next t) (hline : t.construct.line ≠ 0)
    (hf : t.outcome = .error (.failed f) m') : s.outcome = .error (.failed f) m' := by
  cases h with
  | @step depth scope scope' e e' m m₁ hreaches =>
    have hstep := hreaches.step_eq hf
    show locate e.line (step (eval depth) scope e) m = _
    rw [locate, hstep]
    dsimp only
    rw [locate_of_isSome (line_isSome_of_eval hline hf)]

/-- A construct that fails by itself fails on its line. -/
theorem outcome_of_failsItself (h : s.FailsItself cause m') (hline : s.construct.line ≠ 0) :
    s.outcome = .error (.failed ⟨cause, some s.construct.line⟩) m' := by
  cases h with
  | @raised depth scope e m _ _ hraises =>
    show locate e.line (step (eval depth) scope e) m = _
    rw [locate, hraises.step_eq]
    dsimp only
    rw [Fault.locate, if_neg hline]

section Lined

variable {D : Discipline} (hD : ∀ {h scope e}, D.code h scope e → e.line ≠ 0)

/-- The construct of a site may be evaluated there. -/
abbrev Allowed (D : Discipline) (s : Site) : Prop := D.Allowed s.scope s.construct s.machine

theorem allowed_of_next (ha : s.Allowed D) (h : s.Next t) : t.Allowed D := by
  cases h with
  | step hreaches => exact D.of_reaches (D.keeps_eval _) ha hreaches

theorem allowed_of_within (ha : s.Allowed D) (h : s.Within t) : t.Allowed D := by
  induction h with
  | refl => exact ha
  | tail _ hnext ih => exact allowed_of_next ih hnext

include hD

/-- **What fails in the course of a construct makes the construct fail alike**: with the same cause, on the
same line, and leaving the same machine. -/
theorem outcome_of_within (ha : s.Allowed D) (h : s.Within t)
    (hf : t.outcome = .error (.failed f) m') : s.outcome = .error (.failed f) m' := by
  induction h with
  | refl => exact hf
  | tail hwithin hnext ih =>
    have ht := allowed_of_next (allowed_of_within ha hwithin) hnext
    exact ih (outcome_of_next hnext (hD ht.code) hf)

/-- Some construct is to blame for every failure. -/
theorem exists_blamed (ha : s.Allowed D) (hf : s.outcome = .error (.failed f) m') :
    ∃ culprit, s.Blames culprit f m' := by
  obtain ⟨depth, scope, e, m⟩ := s
  induction depth generalizing scope e m f with
  | zero => cases hf
  | succ depth ih =>
    have hlocate : locate e.line (step (eval depth) scope e) m = .error (.failed f) m' := hf
    rw [locate] at hlocate
    cases hstep : step (eval depth) scope e m with
    | ok v m₁ => rw [hstep] at hlocate; cases hlocate
    | error abrupt m₁ =>
      rw [hstep] at hlocate
      cases abrupt with
      | returned v => cases hlocate
      | tooDeep => cases hlocate
      | failed inner =>
        cases hlocate
        rcases step_eq_failed_iff.mp hstep with ⟨cause, hraises, rfl⟩ | ⟨scope', e', m₂, hr, hinner⟩
        · refine ⟨e, ⟨depth + 1, scope, e, m⟩, .refl, rfl, ?_, ?_⟩
          · rw [Fault.cause_locate]
            exact .raised hraises
          · rw [Fault.locate, if_neg (hD ha.code)]
        · have hnext : Next ⟨depth + 1, scope, e, m⟩ ⟨depth, scope', e', m₂⟩ := .step hr
          have ha' := allowed_of_next ha hnext
          have hsome := line_isSome_of_eval (hD ha'.code) hinner
          rw [locate_of_isSome hsome]
          obtain ⟨culprit, t, hwithin, ht⟩ := ih scope' e' m₂ ha' hinner
          exact ⟨culprit, t, .head hnext hwithin, ht⟩

/-- **A construct fails exactly if some construct in its course is to blame.** -/
theorem outcome_eq_failed_iff (ha : s.Allowed D) :
    s.outcome = .error (.failed f) m' ↔ ∃ culprit, s.Blames culprit f m' := by
  refine ⟨exists_blamed hD ha, ?_⟩
  rintro ⟨culprit, t, hwithin, rfl, hfails, hline⟩
  have ht := outcome_of_failsItself hfails (hD (allowed_of_within ha hwithin).code)
  rw [← hline] at ht
  exact outcome_of_within hD ha hwithin ht

end Lined

end Site

end Scriptlet
