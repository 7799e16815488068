import Scriptlet.Proofs.Evaluation.Growth
import Scriptlet.Proofs.Evaluation.Provenance
import Scriptlet.Proofs.Parsing.RoundTrip

/-!
# Operands never return

A return cuts through whatever is around it up to the function that it returns from. But in what is read a
return is a statement, and statements are found among the parts of an operand in one place only, the body of
a function. So nothing that is evaluated for its value ends in a return: the call of a function catches it.

This holds on every machine, whatever functions are there, since a call catches the return of any body.

## What is proved

* `NeverReturns.bind`: what never returns part by part never returns as a whole.
* `neverReturns_step`: an operand never returns if its parts do not.
* `neverReturns_eval`: operands never return, in every scope and at every depth.
* `Parsing.shape_of_parse`: the shape of all code that runs in a session, and that its operands never return.
-/

namespace Scriptlet

open Eval

variable {α β : Type}

/-- A computation never ends in a return. -/
def NeverReturns (x : Eval α) : Prop := ∀ m v m', x m ≠ .error (.returned v) m'

/-! ### Computations -/

namespace NeverReturns

theorem of_ok {x : Eval α} (h : ∀ m, ∃ a m', x m = .ok a m') : NeverReturns x := by
  intro m v m' hr
  obtain ⟨a, m₁, hok⟩ := h m
  rw [hok] at hr
  cases hr

theorem pure (a : α) : NeverReturns (pure a : Eval α) := of_ok fun m => ⟨a, m, rfl⟩

theorem fail (cause : FaultCause) : NeverReturns (fail cause : Eval α) := by
  intro m v m' hr
  cases hr

theorem bind {x : Eval α} {f : α → Eval β} (hx : NeverReturns x) (hf : ∀ a, NeverReturns (f a)) :
    NeverReturns (x >>= f) := by
  intro m v m' hr
  cases h : x m with
  | ok a m₁ =>
    rw [bind_of_ok h] at hr
    exact hf a m₁ v m' hr
  | error abrupt m₁ =>
    rw [bind_of_error h] at hr
    cases hr
    exact hx m v m' h

theorem locate {x : Eval α} (line : Int) (hx : NeverReturns x) : NeverReturns (locate line x) := by
  intro m v m' hr
  unfold Eval.locate at hr
  cases h : x m with
  | ok a m₁ => rw [h] at hr; cases hr
  | error abrupt m₁ =>
    rw [h] at hr
    cases abrupt with
    | returned w => exact hx m w m₁ h
    | failed fault => cases hr
    | tooDeep => cases hr

/-- The call of a function catches the return of its body. -/
theorem functionBody (x : Eval Unit) : NeverReturns (functionBody x) := by
  intro m v m' hr
  unfold Eval.functionBody at hr
  cases h : x m with
  | ok a m₁ => rw [h] at hr; cases hr
  | error abrupt m₁ =>
    rw [h] at hr
    cases abrupt with
    | returned w => cases hr
    | failed fault => cases hr
    | tooDeep => cases hr

theorem heap : NeverReturns heap := of_ok fun m => ⟨m.heap, m, rfl⟩

theorem changeHeap (f : Heap → Heap) : NeverReturns (changeHeap f) := of_ok fun _ => ⟨(), _, rfl⟩

theorem allocate (o : Object) : NeverReturns (allocate o) := of_ok fun _ => ⟨_, _, rfl⟩

end NeverReturns

/-! ### What constructs are made of -/

theorem neverReturns_resolve (scope : Loc) (name : String) : NeverReturns (resolve scope name) := by
  refine .bind .heap fun h => ?_
  cases h.lookup? scope name with
  | some v => exact .pure v
  | none => exact .fail _

theorem neverReturns_expectObject (v : Value) : NeverReturns (expectObject v) := by
  cases v with
  | ref place => exact .pure place
  | undefined => exact .bind .heap fun _ => .fail _
  | int n => exact .bind .heap fun _ => .fail _
  | str s => exact .bind .heap fun _ => .fail _

theorem neverReturns_expectFunction (subject : Heap → String) (v : Value) :
    NeverReturns (expectFunction subject v) := by
  refine .bind .heap fun h => ?_
  cases v with
  | ref place =>
    dsimp only
    split
    · exact .pure place
    · exact .fail _
  | undefined => exact .fail _
  | int n => exact .fail _
  | str s => exact .fail _

theorem neverReturns_print (args : List Value) : NeverReturns (print args) := by
  refine .of_ok fun m => ?_
  obtain ⟨heap, written, tracing, root⟩ := m
  cases tracing with
  | true => exact ⟨_, _, rfl⟩
  | false => exact ⟨_, _, rfl⟩

theorem neverReturns_call (b : Builtin) (args : List Value) : NeverReturns (b.call args) := by
  unfold Builtin.call
  split
  · exact neverReturns_print args
  · next o x y =>
    refine .bind .heap fun h => ?_
    cases o.apply h x y with
    | ok v => exact .pure v
    | error cause => exact .fail cause
  · exact .fail _

/-- No call returns, whatever its function does. -/
theorem neverReturns_invoke (recur : Recur) (place : Loc) (receiver : Value) (args : List Value) :
    NeverReturns (invoke recur place receiver args) := by
  refine .bind .heap fun h => ?_
  split
  · exact neverReturns_call _ args
  · split
    · exact .fail _
    · exact .bind (.allocate _) fun _ => .bind (.changeHeap _) fun _ =>
        .bind (.changeHeap _) fun _ => .functionBody _
  · exact .fail _
  · exact .fail _

theorem neverReturns_evalAll {run : Expr → Eval Value} {es : List Expr}
    (h : ∀ e ∈ es, NeverReturns (run e)) : NeverReturns (evalAll run es) := by
  induction es with
  | nil => exact .pure []
  | cons e es ih =>
    obtain ⟨he, hes⟩ := List.forall_mem_cons.mp h
    exact he.bind fun v => (ih hes).bind fun vs => .pure _

theorem neverReturns_evalFields {run : Expr → Eval Value} {fields : List (String × Expr)}
    (h : ∀ f ∈ fields, NeverReturns (run f.2)) (slots : Slots) :
    NeverReturns (evalFields run slots fields) := by
  induction fields generalizing slots with
  | nil => exact .pure slots
  | cons field fields ih =>
    obtain ⟨hfield, hfields⟩ := List.forall_mem_cons.mp h
    exact hfield.bind fun v => ih hfields _

/-! ### Operands -/

/-- Operands with parts of the right shape never return. -/
def OperandsStay (recur : Recur) : Prop :=
  ∀ (scope : Loc) (place : Place) (e : Expr), place.hasValue = true → place.fits e = true →
    NeverReturns (recur scope e)

/-- An operand never returns if its parts do not. -/
theorem neverReturns_step {recur : Recur} (hrec : OperandsStay recur) {scope : Loc} {place : Place}
    {e : Expr} (hplace : place.hasValue = true) (h : place.fits e = true) :
    NeverReturns (step recur scope e) := by
  have hpart : ∀ {inner part}, (inner, part) ∈ e.parts → Place.hasValue inner = true →
      NeverReturns (recur scope part) := fun hmem hinner =>
    hrec scope _ _ hinner (Place.fits_part h _ hmem)
  have hadmits := Place.fits.admits h
  -- what stands in such a place neither is a block nor does something
  have hblock : ∀ body, e ≠ .block body := by
    rintro body rfl
    obtain rfl := hadmits.block.mpr ⟨body, rfl⟩
    cases hplace
  have haction : e.isAction = false := by
    rw [← Bool.not_eq_true]
    intro haction
    obtain rfl := hadmits.action haction
    cases hplace
  cases e with
  | block body => exact absurd rfl (hblock body)
  | literal value line => exact .pure _
  | identifier name line => exact neverReturns_resolve scope name
  | call callee args line =>
    simp only [step]
    have hargs : ∀ e ∈ args, NeverReturns (recur scope e) := fun e he =>
      hpart (List.mem_cons_of_mem _ (List.mem_map_of_mem he)) rfl
    exact (hpart List.mem_cons_self rfl).bind fun f =>
      (neverReturns_expectFunction _ f).bind fun place =>
        (neverReturns_evalAll hargs).bind fun vs => neverReturns_invoke recur place _ vs
  | function name params binds body line =>
    obtain rfl : binds = false := haction
    exact .bind (.allocate _) fun place => .pure _
  | object fields line =>
    simp only [step]
    have hfields : ∀ f ∈ fields, NeverReturns (recur scope f.2) := fun f hf =>
      hpart (List.mem_map.mpr ⟨f, hf, rfl⟩) rfl
    exact (neverReturns_evalFields hfields []).bind fun slots =>
      .bind (.allocate _) fun place => .pure _
  | field receiver name line =>
    simp only [step]
    exact (hpart List.mem_cons_self rfl).bind fun v =>
      (neverReturns_expectObject v).bind fun place => .bind .heap fun h => .pure _
  | method receiver name args line =>
    simp only [step]
    have hargs : ∀ e ∈ args, NeverReturns (recur scope e) := fun e he =>
      hpart (List.mem_cons_of_mem _ (List.mem_map_of_mem he)) rfl
    exact (hpart List.mem_cons_self rfl).bind fun o =>
      (neverReturns_expectObject o).bind fun place => .bind .heap fun h =>
        (neverReturns_expectFunction _ _).bind fun f =>
          (neverReturns_evalAll hargs).bind fun vs => neverReturns_invoke recur f o vs
  | assign _ _ _ _ => cases haction
  | returns _ _ => cases haction
  | choose _ _ _ _ => cases haction
  | setField _ _ _ _ => cases haction

/-- **Operands never return**, in every scope and at every depth. -/
theorem neverReturns_eval (depth : Nat) : OperandsStay (eval depth) := by
  induction depth with
  | zero =>
    intro scope place e _ _ m v m' hr
    cases hr
  | succ depth ih =>
    intro scope place e hplace h
    exact (neverReturns_step ih hplace h).locate e.line

/-! ### Sessions -/

/-- The code that may run next on a machine when a script has been read: the script, and the bodies of the
functions on the heap. -/
inductive Machine.MayRun (m : Machine) (script : Script) : Block → Prop where
  /-- The script. -/
  | script : m.MayRun script script.body
  /-- A function. -/
  | function {place captured : Loc} {name : String} {params : List String} {body : Block} :
    (m.heap.get place).nature = .function name (.closure params body captured) →
      m.MayRun script body

/-- What may stand somewhere is made of parts that may. -/
theorem inherited_fits : Inherited fun e => ∃ place, Place.fits place e = true := by
  rintro e ⟨place, h⟩ p hp
  exact ⟨p.1, Place.fits_part h p hp⟩

theorem Block.fits_of_place {place : Place} {body : Block}
    (h : place.fits (.block body) = true) : body.fits Lexical.isName = true := by
  cases place with
  | body => exact h
  | _ => cases h

/-- Functions on the heap of a machine that a session passes through have bodies of the right shape. -/
theorem Machine.Visited.fits_closures {m : Machine} (hm : m.Visited) :
    m.heap.Closures fun _ body _ => body.fits Lexical.isName = true := by
  have hcovers : (provenance inherited_fits).Covers :=
    covers_provenance inherited_fits fun script hfits => ⟨.body, hfits⟩
  exact (hm.inv hcovers).mono fun _ _ _ ⟨_, h⟩ => Block.fits_of_place h

namespace Parsing

/-- **The shape of parsed programs.** In a script that is read, whatever stands anywhere is allowed there:
blocks are bodies, what does something is a statement, operands have values, a value is left out only in a
declaration or a return, signs of operators are only called, and other names have the form of a name. The
same holds of all functions on the machines that a session passes through, and nothing in any of this code
that is evaluated for its value ends in a return, whatever machine it is evaluated on. -/
theorem shape_of_parse {source : String} {script : Script} (h : parse source = .ok script)
    {m : Machine} (hm : m.Visited) {body : Block} (hbody : m.MayRun script body) {place : Place}
    {e : Expr} (he : body.Has place e) :
    place.Admits e ∧
      (place.hasValue = true → ∀ depth scope (m' : Machine) v m'',
        eval depth scope e m' ≠ .error (.returned v) m'') := by
  have hfits : body.fits Lexical.isName = true := by
    cases hbody with
    | script => exact fits_of_parse h
    | function hn => exact hm.fits_closures _ _ _ _ _ hn
  exact ⟨he.admits hfits, fun hplace depth scope =>
    neverReturns_eval depth scope place e hplace (he.fits hfits)⟩

/-- The body of a function that returns from a choice. -/
def returningBody : Block :=
  ⟨[.choose (.identifier "a" 1) ⟨[.returns (.literal (.int 5) 1) 1], 1⟩ ⟨[], 1⟩ 1,
    .returns (.literal .undefined 1) 1], 1⟩

/-- The call of that function. -/
def returningCall : Expr := .call (.identifier "f" 1) [.literal (.int 1) 1] 1

/-- The function and a sum with its call. -/
def returning : Script :=
  ⟨⟨[.function "f" ["a"] true returningBody 1,
    .call (.identifier "+" 1) [returningCall, .literal (.int 1) 1] 1], 1⟩⟩

/-- The call stands as an operand in what is read, and the return as a statement in the function that is on
the heap afterwards. The call does not end in that return but has the value that is returned. -/
theorem shape_of_parse_returning :
    let m := (runSource 9 Heap.globals returning.text (.start false)).2
    (parse returning.text = .ok returning ∧ m.Visited ∧ m.MayRun returning returningBody) ∧
      Place.operand.Admits returningCall ∧
      Place.statement.Admits (.returns (.literal (.int 5) 1) 1) ∧
      (∀ depth scope (m' : Machine) v m'',
        eval depth scope returningCall m' ≠ .error (.returned v) m'') ∧
      ∃ m', eval 9 Heap.globals returningCall m = .ok (.int 5) m' := by
  intro m
  have hparse : parse returning.text = .ok returning := parse_text (by decide)
  have hm : m.Visited := .settled (.script 9 returning.text (.start false))
  have hrun : m = (execute 9 Heap.globals (.block returning.body) (.start false)).2 := by
    show (runSource 9 Heap.globals returning.text (.start false)).2 = _
    rw [runSource, hparse]
  have hbody : m.MayRun returning returningBody := by
    have hnature : (m.heap.get 13).nature =
        .function "f" (.closure ["a"] returningBody Heap.globals) := by
      rw [hrun]
      rfl
    exact .function hnature
  have hcall : returning.body.Has .operand returningCall :=
    .part (.part .root (List.mem_cons_of_mem _ List.mem_cons_self))
      (List.mem_cons_of_mem _ List.mem_cons_self)
  have hreturn : returningBody.Has .statement (.returns (.literal (.int 5) 1) 1) :=
    .part (.part (.part .root List.mem_cons_self) (List.mem_cons_of_mem _ List.mem_cons_self))
      List.mem_cons_self
  obtain ⟨hadmits, hstays⟩ := shape_of_parse hparse hm .script hcall
  refine ⟨⟨hparse, hm, hbody⟩, hadmits, (shape_of_parse hparse hm hbody hreturn).1, hstays rfl, ?_⟩
  rw [hrun]
  exact ⟨_, rfl⟩

end Parsing

end Scriptlet
