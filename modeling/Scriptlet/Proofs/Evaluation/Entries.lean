import Scriptlet.Proofs.Evaluation.Concatenation
import Scriptlet.Proofs.Evaluation.Depth
import Scriptlet.Proofs.Parsing.Lines

/-!
# Entries as scripts

A text can be run in two ways: as a script, which is one block, or as an entry, which runs statement by
statement and answers with the value of the last one. The two have loops of their own. An entry does not
attach a line to a failure, as the block of a script does; but the statements it is made of have done so
already.

## What is proved

* `line_isSome_of_eval`: a construct on a line of a text fails on a line.
* `Block.agree_of_execute`: the body of an entry does what its block does.
* `script_agrees_with_entry`: a text does the same as a script and as an entry.
-/

namespace Scriptlet

open Parsing

/-- Two runs of a text end alike: with the same failure or without one, and on the same machine. -/
structure Outcome.Agree {α β : Type} (o : Outcome α) (o' : Outcome β) : Prop where
  /-- Both fail in the same way, or neither does. -/
  failure : o'.failure? = o.failure?
  /-- The same has been written, and the heaps are the same. -/
  machine : o'.2 = o.2

section Body

variable {depth : Nat} {scope : Loc} {m m' : Machine} {fault : Fault} {body : Block}

/-- A construct on a line of a text fails on a line. -/
theorem line_isSome_of_eval {e : Expr} (he : e.line ≠ 0)
    (h : eval depth scope e m = .error (.failed fault) m') : fault.line.isSome = true := by
  cases depth with
  | zero => cases h
  | succ depth =>
    rw [eval, Eval.locate] at h
    cases hs : Eval.step (eval depth) scope e m with
    | ok v m₁ => rw [hs] at h; cases h
    | error abrupt m₁ =>
      rw [hs] at h
      cases abrupt with
      | returned v => cases h
      | tooDeep => cases h
      | failed inner =>
        cases h
        unfold Fault.locate
        cases hline : inner.line with
        | some line => simp [hline]
        | none => simp [he]

/-- So does the first of several constructs that fails. -/
theorem line_isSome_of_lastValue {v : Value} {es : List Expr} (hes : ∀ e ∈ es, e.line ≠ 0)
    (h : lastValue (eval depth scope) v es m = .error (.failed fault) m') :
    fault.line.isSome = true := by
  induction es generalizing v m with
  | nil => cases h
  | cons e es ih =>
    obtain ⟨he, hes⟩ := List.forall_mem_cons.mp hes
    rw [lastValue] at h
    cases hr : eval depth scope e m with
    | ok v₁ m₁ =>
      rw [Eval.bind_of_ok hr] at h
      exact ih hes h
    | error abrupt m₁ =>
      rw [Eval.bind_of_error hr] at h
      cases h
      exact line_isSome_of_eval he hr

theorem locate_of_isSome (h : fault.line.isSome = true) (line : Int) : fault.locate line = fault := by
  obtain ⟨l, hl⟩ := Option.isSome_iff_exists.mp h
  rw [Fault.locate, hl]

/-- **The body of an entry does what its block does**, if its statements are on lines and none of them is a
block. -/
theorem Block.agree_of_execute (hshape : ∀ e ∈ body.statements, ∀ body, e ≠ .block body)
    (hlines : ∀ e ∈ body.statements, e.line ≠ 0) :
    Outcome.Agree (runBody depth scope body m) (execute (depth + 1) scope (.block body) m) := by
  have hstep : Eval.step (eval depth) scope (.block body) =
      (Eval.declare scope body.declared >>= fun _ =>
        lastValue (eval depth scope) .undefined body.statements) >>= fun _ => pure .undefined := by
    obtain ⟨statements, line⟩ := body
    have hes : ∀ e ∈ statements, ∀ body, e ≠ .block body := hshape
    rw [Eval.step, bind_assoc]
    refine congrArg _ (funext fun _ => ?_)
    rw [Eval.runBlock, runStatements_eq_lastValue hes .undefined, bind_assoc]
    rfl
  unfold runBody execute
  dsimp only
  rw [eval, Eval.locate, hstep]
  cases hrun : (Eval.declare scope body.declared >>= fun _ =>
      lastValue (eval depth scope) .undefined body.statements) m with
  | ok v m' =>
    rw [Eval.bind_of_ok hrun]
    exact ⟨rfl, rfl⟩
  | error abrupt m' =>
    rw [Eval.bind_of_error hrun]
    cases abrupt with
    | returned v => exact ⟨rfl, rfl⟩
    | tooDeep => exact ⟨rfl, rfl⟩
    | failed fault =>
      have hline : fault.line.isSome = true := line_isSome_of_lastValue hlines hrun
      dsimp only
      rw [locate_of_isSome hline]
      exact ⟨rfl, rfl⟩

end Body

/-- A text that is run as an entry does what it does as a script, which nests it one deeper. -/
theorem runSource_agrees (depth : Nat) (scope : Loc) (source : String) (m : Machine) :
    Outcome.Agree (runEntry depth scope source m) (runSource (depth + 1) scope source m) := by
  unfold runEntry runSource
  cases hparse : parse source with
  | error e => exact ⟨rfl, rfl⟩
  | ok script =>
    have hplaced := @onLines_of_parse (fun line => decide (line ≠ 0)) source script hparse
      fun n hn _ => decide_eq_true (by omega)
    refine Block.agree_of_execute (ne_block_of_parse hparse) fun e he => ?_
    exact of_decide_eq_true (Expr.allowed_line (Block.all_iff.mp hplaced.2 e he))

/-- **A text does the same as a script and as an entry.** On a fresh heap, both write the same, fail in the
same way (on the same line, and if the text is no script, in the same column) or not at all, and leave the
same heap: the same names are bound to the same values in the same order. A script nests its statements one
deeper than an entry does; whatever bounds there are, the two agree unless one of them goes too deep. -/
theorem script_agrees_with_entry (source : String) (m : Machine) :
    let entry (depth : Nat) := runEntry depth Heap.globals source { m with heap := .initial }
    let script (depth : Nat) := runScript depth source m
    (∀ depth, Outcome.Agree (entry depth) (script (depth + 1))) ∧
      ∀ depth depth', (entry depth).failure? = some .tooDeep ∨
        (script depth').failure? = some .tooDeep ∨
        Outcome.Agree (entry depth) (script depth') := by
  intro entry script
  have hagree : ∀ depth, Outcome.Agree (entry depth) (script (depth + 1)) := fun depth =>
    runSource_agrees depth Heap.globals source _
  refine ⟨hagree, fun depth depth' => ?_⟩
  -- within a bound greater than both, each does what it does within its own
  have hle : depth ≤ max depth depth' := Nat.le_max_left _ _
  have hle' : depth' ≤ max depth depth' + 1 := Nat.le_succ_of_le (Nat.le_max_right _ _)
  rcases runEntry_of_le hle Heap.globals source { m with heap := .initial } with hdeep | hentry
  · exact .inl hdeep
  · rcases runSource_of_le hle' Heap.globals source { m with heap := .initial } with hdeep | hscript
    · exact .inr (.inl hdeep)
    · have hmax := hagree (max depth depth')
      have hentry' : entry (max depth depth') = entry depth := hentry
      have hscript' : script (max depth depth' + 1) = script depth' := hscript
      rw [hentry', hscript'] at hmax
      exact .inr (.inr hmax)

end Scriptlet
