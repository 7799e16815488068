import Scriptlet.Proofs.Evaluation.Discipline
import Scriptlet.Proofs.Parsing.WellFormed

/-!
# Sessions and what they pass through

A session takes source texts one after the other and runs them in the global scope of one heap, each as a
script or as an entry. What it passes through while a text runs is seen by cutting the run short: evaluation
that may stop before and after any construct is the same evaluation otherwise, and leaves the machine as
it found it where it stopped.

## What is proved

* `evalUntil_never`: evaluation that is never stopped is evaluation.
* `Discipline.keeps_evalUntil`: evaluation that is cut short keeps every discipline.
* `Machine.Visited.inv`: if a discipline allows for all scripts that are read, then all machines that a
  session passes through are as it demands.
-/

namespace Scriptlet

/-! ### Evaluation that may be cut short -/

/-- Stops if the machine is one to stop at. -/
def Eval.stopIf (stop : Machine → Bool) : Eval Unit := fun m =>
  if stop m then .error .tooDeep m else .ok () m

open Eval in
/-- Evaluation as `eval` does it, but cut short before or after a construct where `stop` says so. -/
def evalUntil (stop : Loc → Expr → Machine → Bool) : Nat → Loc → Expr → Eval Value
  | 0, _, _ => throw .tooDeep
  | depth + 1, scope, e => do
    stopIf (stop scope e)
    let v ← locate e.line (step (evalUntil stop depth) scope e)
    stopIf (stop scope e)
    return v

/-- Evaluation that is never cut short is evaluation. -/
theorem evalUntil_never (depth : Nat) : evalUntil (fun _ _ _ => false) depth = eval depth := by
  induction depth with
  | zero => rfl
  | succ depth ih =>
    funext scope e
    have hstop : Eval.stopIf (fun _ => false) = pure () := rfl
    rw [evalUntil, hstop, ih, eval]
    simp only [pure_bind, bind_pure]

namespace Discipline

variable {D : Discipline} {α : Type} {scope : Loc} {m : Machine} {post : Heap → α → Prop}

/-- Stopping changes nothing. -/
theorem keeps_stopIf (stop : Machine → Bool) :
    D.Keeps scope m (Eval.stopIf stop) fun _ _ => True := by
  intro hi
  unfold Eval.stopIf
  split
  · exact ⟨.refl hi, trivial⟩
  · exact ⟨.refl hi, trivial⟩

/-- **Evaluation that is cut short keeps every discipline**, in every scope and at every depth. -/
theorem keeps_evalUntil (D : Discipline) (stop : Loc → Expr → Machine → Bool) (depth : Nat) :
    D.Known (evalUntil stop depth) := by
  induction depth with
  | zero => exact fun scope m e _ => Keeps.throw trivial
  | succ depth ih =>
    intro scope m e hc
    refine (keeps_stopIf _).bind fun _ m₁ h₁ _ => ?_
    have hstep := (keeps_step ih (D.code_change h₁ hc)).locate e.line
    refine hstep.bind fun v m₂ h₂ hv => ?_
    refine (keeps_stopIf _).bind fun _ m₃ h₃ _ => ?_
    exact Keeps.pure (D.value_change h₃ hv)

/-- What an entry does keeps a discipline that allows for each of its statements. -/
theorem keeps_entry {recur : Eval.Recur} (hrec : D.Known recur) {body : Block}
    (hc : D.code m.heap scope (.block body))
    (hstatements : ∀ h, D.runs h scope body → ∀ e ∈ body.statements, D.code h scope e) :
    D.Keeps scope m (do
      Eval.declare scope body.declared
      lastValue (recur scope) .undefined body.statements) D.value := by
  refine (Keeps.changeHeap (fun h _ => D.runs h scope body) fun hi => D.declare hi hc).bind
    fun _ m₁ _ hb => ?_
  exact keeps_lastValue hrec (hstatements m₁.heap hb) (value_undefined _)

end Discipline

/-! ### Sessions -/

open Parsing

namespace Machine

/-- A machine between the source texts of a session: each has been run in the global scope as a script or
as an entry, at some depth, to whatever end it came. In between only the heap stays as it is. -/
inductive Settled : Machine → Prop where
  /-- Nothing has been run. -/
  | start (tracing : Bool) : Settled (.start tracing)
  /-- A source text has been run as a script. -/
  | script {m : Machine} (depth : Nat) (source : String) : Settled m →
    Settled (runSource depth Heap.globals source m).2
  /-- A source text has been run as an entry. -/
  | entry {m : Machine} (depth : Nat) (source : String) : Settled m →
    Settled (runEntry depth Heap.globals source m).2
  /-- Something has been written, or tracing has been turned on or off. -/
  | aside {m m' : Machine} : Settled m → m'.heap = m.heap → Settled m'

/-- A machine that a session passes through: between source texts, or while one runs. -/
inductive Visited : Machine → Prop where
  /-- Between source texts. -/
  | settled {m : Machine} : Settled m → Visited m
  /-- While a source text runs as a script. -/
  | script {m : Machine} {source : String} {script : Script} (depth : Nat)
    (stop : Loc → Expr → Machine → Bool) : Settled m → parse source = .ok script →
      Visited (Eval.after (evalUntil stop depth Heap.globals (.block script.body)) m)
  /-- While a source text runs as an entry. -/
  | entry {m : Machine} {source : String} {script : Script} (depth : Nat)
    (stop : Loc → Expr → Machine → Bool) : Settled m → parse source = .ok script →
      Visited (Eval.after (do
        Eval.declare Heap.globals script.body.declared
        lastValue (evalUntil stop depth Heap.globals) .undefined script.body.statements) m)

end Machine

/-- The discipline holds on the first heap, and allows for all scripts that are read. -/
structure Discipline.Covers (D : Discipline) : Prop where
  /-- The first heap is as every heap. -/
  initial : D.inv .initial
  /-- What is read may be run as a block. -/
  code : ∀ (h : Heap) (script : Script), D.inv h → script.body.fits Lexical.isName = true →
    D.code h Heap.globals (.block script.body)
  /-- Its statements may be run on their own. -/
  statements : ∀ (h : Heap) (script : Script), script.body.fits Lexical.isName = true →
    D.runs h Heap.globals script.body → ∀ e ∈ script.body.statements, D.code h Heap.globals e

namespace Machine

variable {D : Discipline} {m : Machine}

theorem Settled.inv (hD : D.Covers) (hm : m.Settled) : D.inv m.heap := by
  induction hm with
  | start tracing => exact hD.initial
  | @script m depth source _ ih =>
    unfold runSource
    split
    · exact ih
    · next script hparse =>
      exact (D.results_execute depth ih (hD.code _ _ ih (fits_of_parse hparse))).1.inv
  | @entry m depth source _ ih =>
    unfold runEntry
    split
    · exact ih
    · next script hparse =>
      have hfits := fits_of_parse hparse
      exact (D.results_runBody depth ih (hD.code _ _ ih hfits)
        fun h => hD.statements h script hfits).1.inv
  | aside _ hheap ih => exact hheap ▸ ih

/-- **All machines that a session passes through are as a discipline demands** that allows for all
scripts that are read. -/
theorem Visited.inv (hD : D.Covers) (hm : m.Visited) : D.inv m.heap := by
  cases hm with
  | settled hm => exact hm.inv hD
  | script depth stop hm hparse =>
    have hi := hm.inv hD
    have hc := hD.code _ _ hi (fits_of_parse hparse)
    exact ((D.keeps_evalUntil stop depth _ _ _ hc).leads_after hi).inv
  | @entry m source script depth stop hm hparse =>
    have hi := hm.inv hD
    have hfits := fits_of_parse hparse
    have hkeeps := Discipline.keeps_entry (D.keeps_evalUntil stop depth)
      (hD.code _ _ hi hfits) fun h => hD.statements h script hfits
    exact (hkeeps.leads_after hi).inv

end Machine

end Scriptlet
