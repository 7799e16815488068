import Scriptlet.Proofs.Evaluation.Arithmetic
import Scriptlet.Proofs.Evaluation.Reachability
import Scriptlet.Proofs.Session.Entries

/-!
# Arithmetic in sessions

Whatever a session has done before, formulas come to what they come to in arithmetic. Names may have been
bound anew, functions called and the session reset; the signs of operators still lead to the operators.

## What is proved

* `Session.atRest_afterEntries`: entries lead to machines that a session passes through, behind the objects
  that resets have left.
* `Session.underway_afterEntries`: after its entries, a session is under way.
* `Formula.IsComputed.behind`: formulas are computed behind other objects if they are without them.
* `Session.Underway.computes`: at all times and in every scope, formulas are computed.
-/

namespace Scriptlet

variable {m : Machine} {depth : Nat} {front : Array Object} {scope : Loc}

/-- A heap in which scopes are out of reach can go on behind other objects. -/
theorem Heap.Encapsulated.tame_behind {h : Heap} (hi : h.Encapsulated) (front : Array Object) :
    (Guise.behind front).Tame h where
  ordered place parent hp := (hi.parent place parent (parent?_eq_some.mp hp)).1
  named _ _ _ := rfl
  visible _ _ _ _ := rfl
  captured := hi.captured.mono fun _ body _ hs =>
    ⟨hs, List.all_eq_true.mpr fun _ _ => rfl, body.all_of_forall (Session.admits_behind front)⟩

namespace Session

/-! ### Where sessions come to -/

/-- A session at rest: source texts have been run in its global scope. After a reset, there are the objects
that there were before in front. -/
inductive AtRest : Machine → Prop where
  /-- Without a reset. -/
  | first {m : Machine} : m.Settled → m.root = Heap.globals → AtRest m
  /-- After one. -/
  | afterReset {m : Machine} (front : Array Object) : m.Settled → m.root = Heap.globals →
    AtRest ((Guise.behind front).machine m)

/-- A session is under way: while source texts are run, or between them, in a scope that is there. After a
reset, there are the objects that there were before in front. -/
inductive Underway : Machine → Loc → Prop where
  /-- Without a reset. -/
  | first {m : Machine} {scope : Loc} : m.Visited → m.heap.IsScope scope → Underway m scope
  /-- After one. -/
  | afterReset {m : Machine} {scope : Loc} (front : Array Object) : m.Visited →
    m.heap.IsScope scope →
      Underway ((Guise.behind front).machine m) ((Guise.behind front).place scope)

theorem ready_of_settled (front : Array Object) (hm : m.Settled) (hroot : m.root = Heap.globals) :
    Ready front m := by
  have he : m.heap.Encapsulated := hm.inv covers_encapsulation
  exact ⟨he.tame_behind front, hroot ▸ ⟨none, he.root⟩⟩

theorem AtRest.underway (hm : AtRest m) : Underway m m.root := by
  cases hm with
  | first hm hroot => exact .first (.settled hm) (ready_of_settled #[] hm hroot).scope
  | afterReset front hm hroot =>
    exact .afterReset front (.settled hm) (ready_of_settled front hm hroot).scope

/-- Resetting a session puts what there is in front. -/
theorem atRest_reset (m : Machine) : AtRest (Command.reset.run m) := by
  have hreset := congrArg (fun m' : Machine => { m' with written := (Command.reset.run m).written })
    (reset_eq m)
  have hrun : Command.reset.run m = (Guise.behind m.heap.objects).machine
      { Machine.start m.tracing with written := (Command.reset.run m).written } := hreset
  rw [hrun]
  exact .afterReset _ (.aside (.start m.tracing) rfl) rfl

theorem root_runEntry (depth : Nat) (hm : Ready front m) (text : String) :
    (runEntry depth m.root text m).2.root = m.root := by
  rw [runEntry]
  cases Parsing.parse text with
  | error e => rfl
  | ok script =>
    have hbody : script.body.all (Guise.behind front).admits = true :=
      script.body.all_of_forall (admits_behind front)
    exact (Guise.agree_runBody depth hm.tame hm.scope hbody).leads.root

/-- An entry other than a reset leads from source texts that have been run to such. -/
theorem settled_submit (depth : Nat) (hm : m.Settled) (hroot : m.root = Heap.globals) {entry : String}
    (hentry : Command.ofEntry? (normalize entry) ≠ some .reset) :
    (submit depth entry m).Settled ∧ (submit depth entry m).root = Heap.globals := by
  rcases submit_cases depth entry m with hsame | ⟨command, hcommand, hsame⟩ | ⟨-, hsame⟩
  · rw [hsame]
    exact ⟨hm, hroot⟩
  · rw [hsame]
    cases command with
    | reset => exact absurd hcommand hentry
    | _ => exact ⟨.aside hm rfl, hroot⟩
  · rw [hsame]
    have hready : Ready #[] m := ready_of_settled #[] hm hroot
    have htells := tells_answer (runEntry depth m.root (normalize entry) m)
    have hrun := (root_runEntry depth hready (normalize entry)).trans hroot
    exact ⟨.aside (hroot ▸ hm.entry depth _) htells.heap, htells.root.trans hrun⟩

theorem AtRest.submit (hm : AtRest m) (entry : String) : AtRest (submit depth entry m) := by
  by_cases hreset : Command.ofEntry? (normalize entry) = some .reset
  · rcases submit_cases depth entry m with hsame | ⟨command, hcommand, hsame⟩ | ⟨hnone, -⟩
    · rwa [hsame]
    · obtain rfl : Command.reset = command := Option.some.inj (hreset.symm.trans hcommand)
      rw [hsame]
      exact atRest_reset m
    · rw [hreset] at hnone
      cases hnone
  · cases hm with
    | first hm hroot =>
      obtain ⟨hsettled, hroot'⟩ := settled_submit depth hm hroot hreset
      exact .first hsettled hroot'
    | afterReset front hm hroot =>
      obtain ⟨hsettled, hroot'⟩ := settled_submit depth hm hroot hreset
      rw [(submit_behind depth (ready_of_settled front hm hroot) entry).1]
      exact .afterReset front hsettled hroot'

theorem AtRest.forgetOutput (hm : AtRest m) : AtRest m.forgetOutput := by
  cases hm with
  | first hm hroot => exact .first (.aside hm rfl) hroot
  | @afterReset m front hm hroot =>
    exact .afterReset (m := m.forgetOutput) front (.aside hm rfl) hroot

/-- Whatever entries a session takes, it passes through machines as they are described here. -/
theorem atRest_afterEntries (hm : AtRest m) (entries : List String) :
    AtRest (afterEntries depth entries m) := by
  induction entries generalizing m with
  | nil => exact hm
  | cons entry entries ih => exact ih (hm.forgetOutput.submit entry)

theorem atRest_start (tracing : Bool) : AtRest (.start tracing) := .first (.start tracing) rfl

/-- **Whatever entries it takes**, a session is under way after them, in its global scope. -/
theorem underway_afterEntries (depth : Nat) (entries : List String) (tracing : Bool) :
    Underway (afterEntries depth entries (.start tracing))
      (afterEntries depth entries (.start tracing)).root :=
  (atRest_afterEntries (atRest_start tracing) entries).underway

end Session

/-! ### Formulas in sessions -/

/-- Formulas are computed behind other objects if they are without them. -/
theorem Formula.IsComputed.behind {f : Formula} (hf : f.IsComputed depth scope m)
    (ht : (Guise.behind front).Tame m.heap) (hs : m.heap.IsScope scope) :
    f.IsComputed depth ((Guise.behind front).place scope) ((Guise.behind front).machine m) := by
  have hadmits : f.expr.all (Guise.behind front).admits = true :=
    f.expr.all_of_forall (Session.admits_behind front)
  have hends := (Guise.behind front).follows_eval depth scope m f.expr hs hadmits ht
  have hname : f.expr.rename (Guise.behind front).name = f.expr := f.expr.rename_id
  rw [hname] at hends
  generalize hr : eval depth ((Guise.behind front).place scope) f.expr
    ((Guise.behind front).machine m) = r at hends
  refine ⟨fun s hs => ?_, fun hnone => ?_⟩
  · rw [hf.failure s hs] at hends
    cases hends
    exact hr
  · obtain ⟨n, hn, heval⟩ := hf.value hnone
    rw [heval] at hends
    cases hends with
    | ok _ hv =>
      obtain rfl := hv
      exact ⟨n, hn, hr⟩

/-- **Operators compute.** At all times in a session and in every scope, a formula of integers and operators
comes to its value in arithmetic, and nothing is changed or written. Division goes toward zero and comparisons
come to `1` or `0`. If something is divided by zero, evaluation fails at the first such operator instead, on
the line of that operator; operands come before their operator, the left one first. The only condition is
that operators are not nested more deeply than the evaluator may go. -/
theorem Session.Underway.computes (hm : Session.Underway m scope) (f : Formula)
    (hdepth : f.height ≤ depth) : f.IsComputed depth scope m := by
  have hcomputed : ∀ {m scope}, m.Visited → m.heap.IsScope scope → f.IsComputed depth scope m :=
    fun hm hs => f.isComputed (hm.inv covers_hygiene).1 (hm.inv covers_encapsulation) hs hdepth
  cases hm with
  | first hm hs => exact hcomputed hm hs
  | afterReset front hm hs =>
    have ht : (Guise.behind front).Tame _ := (hm.inv covers_encapsulation).tame_behind front
    exact (hcomputed hm hs).behind ht hs

/-- `-7 / 2 - 7 % -4 * (1 < 2)`. -/
def rounding : Formula :=
  let quotient : Formula := .apply .div (.number (-7) 1) (.number 2 1) 1 1 (by decide)
  let remainder : Formula := .apply .mod (.number 7 1) (.number (-4) 1) 1 1 (by decide)
  let comparison : Formula := .apply .lt (.number 1 1) (.number 2 1) 1 1 (by decide)
  .apply .sub quotient (.apply .mul remainder comparison 1 1 (by decide)) 1 1 (by decide)

/-- `(1 - 2 % (3 == 4)) / (5 / 0)`, with the remainder on the second line and the inner quotient on the
third. -/
def twoFailures : Formula :=
  let comparison : Formula := .apply .eq (.number 3 2) (.number 4 2) 2 2 (by decide)
  let remainder : Formula := .apply .mod (.number 2 2) comparison 2 2 (by decide)
  let quotient : Formula := .apply .div (.number 5 3) (.number 0 3) 3 3 (by decide)
  .apply .div (.apply .sub (.number 1 1) remainder 1 1 (by decide)) quotient 3 3 (by decide)

/-- A machine with a field `+`, and a scope of a call, behind the objects that a reset has left. -/
theorem Session.Underway.computes_beforeSum :
    let m := (Guise.behind Heap.initial.objects).machine beforeSum
    let scope := (Guise.behind Heap.initial.objects).place 14
    (Session.Underway m scope ∧ rounding.height ≤ 4 ∧ twoFailures.height ≤ 5) ∧
    eval 4 scope rounding.expr m = .ok (.int (-6)) m ∧
    eval 5 scope twoFailures.expr m = .error (.failed ⟨.byZero .mod, some 2⟩) m := by
  intro m scope
  have hparse : Parsing.parse shadowing.text = .ok (shadowing.onLine 1) :=
    Parsing.parse_text (by decide)
  have hvisited : beforeSum.Visited := .script 9 _ (.start false) hparse
  have hm : Session.Underway m scope := .afterReset _ hvisited ⟨some Heap.globals, rfl⟩
  have hrounding : rounding.height ≤ 4 := by decide
  have htwo : twoFailures.height ≤ 5 := by decide
  refine ⟨⟨hm, hrounding, htwo⟩, ?_, ?_⟩
  · obtain ⟨n, hn, heval⟩ := (Session.Underway.computes hm rounding hrounding).value rfl
    have hvalue : rounding.value? = some (-6) := rfl
    obtain rfl : -6 = n := Option.some.inj (hvalue.symm.trans hn)
    exact heval
  · exact (Session.Underway.computes hm twoFailures htwo).failure _ rfl

end Scriptlet
