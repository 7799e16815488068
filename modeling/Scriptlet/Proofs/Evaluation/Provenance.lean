import Scriptlet.Proofs.Evaluation.Encapsulation
import Scriptlet.Proofs.Evaluation.Interruption
import Scriptlet.Proofs.Script.Places

/-!
# Where running code comes from

Whatever is evaluated while a script runs is a part of the script, or of the body of a function that was put
on the heap when a part of some script was evaluated. So a property that is passed on from constructs to
their parts holds of all code that ever runs, if it holds of the scripts.

## What is proved

* `provenance`: the discipline for such a property.
* `covers_provenance`: it allows for all scripts, if the property holds of them.
-/

namespace Scriptlet

/-- A property that constructs pass on to their parts. -/
def Inherited (P : Expr → Prop) : Prop := ∀ e, P e → ∀ p ∈ e.parts, P p.2

namespace Expr

variable {e part : Expr}

/-- Operands are parts. -/
theorem exists_mem_parts_of_mem_operands (h : part ∈ e.operands) :
    ∃ place : Place, place.hasValue = true ∧ (place, part) ∈ e.parts := by
  have hargs : ∀ args : List Expr, part ∈ args →
      (Place.operand, part) ∈ args.map fun e => (Place.operand, e) :=
    fun _ => List.mem_map_of_mem
  cases e with
  | call callee args line =>
    rcases List.mem_cons.mp h with rfl | h
    · exact ⟨.callee, rfl, List.mem_cons_self⟩
    · exact ⟨.operand, rfl, List.mem_cons_of_mem _ (hargs args h)⟩
  | assign name value declares line =>
    obtain rfl := List.mem_singleton.mp h
    cases declares with
    | true => exact ⟨.value, rfl, List.mem_cons_self⟩
    | false => exact ⟨.operand, rfl, List.mem_cons_self⟩
  | returns value line => exact ⟨.value, rfl, List.mem_singleton.mp h ▸ List.mem_cons_self⟩
  | choose condition yes no line =>
    exact ⟨.operand, rfl, List.mem_singleton.mp h ▸ List.mem_cons_self⟩
  | object fields line =>
    obtain ⟨field, hfield, rfl⟩ := List.mem_map.mp h
    exact ⟨.operand, rfl, List.mem_map.mpr ⟨field, hfield, rfl⟩⟩
  | field receiver name line =>
    exact ⟨.operand, rfl, List.mem_singleton.mp h ▸ List.mem_cons_self⟩
  | setField receiver name value line =>
    exact ⟨.operand, rfl, hargs [receiver, value] h⟩
  | method receiver name args line =>
    exact ⟨.operand, rfl, hargs (receiver :: args) h⟩
  | block _ => cases h
  | literal _ _ => cases h
  | identifier _ _ => cases h
  | function _ _ _ _ _ => cases h

/-- The branches of a choice are parts. -/
theorem mem_parts_branches (condition : Expr) (yes no : Block) (line : Int) :
    (Place.body, block yes) ∈ (choose condition yes no line).parts ∧
      (Place.body, block no) ∈ (choose condition yes no line).parts :=
  ⟨List.mem_cons_of_mem _ List.mem_cons_self,
    List.mem_cons_of_mem _ (List.mem_cons_of_mem _ List.mem_cons_self)⟩

/-- The statements of a block are parts. -/
theorem mem_parts_statement {body : Block} (h : e ∈ body.statements) :
    (Place.statement, e) ∈ (block body).parts :=
  List.mem_map_of_mem h

end Expr

open Heap in
/-- All code that runs, and all that functions on the heap would run, has a property that is passed on to
parts. -/
def provenance {P : Expr → Prop} (hP : Inherited P) : Discipline where
  inv h := h.Closures fun _ body _ => P (.block body)
  value _ _ := True
  code _ _ e := P e
  runs _ _ body := P (.block body)
  change _ := Extends
  fault _ := True
  change_refl _ := Extends.refl
  change_trans := Extends.trans
  value_change _ _ := trivial
  code_change _ hc := hc
  runs_change _ hb := hb
  value_plain _ := trivial
  value_lookup _ _ := trivial
  fault_other _ := trivial
  fault_name _ _ _ _ := trivial
  code_operand {_ _ e _} hc hp := by
    obtain ⟨place, -, hmem⟩ := Expr.exists_mem_parts_of_mem_operands hp
    exact hP e hc _ hmem
  runs_branches {_ _ condition yes no line} hc := by
    obtain ⟨hyes, hno⟩ := Expr.mem_parts_branches condition yes no line
    exact ⟨hP _ hc _ hyes, hP _ hc _ hno⟩
  runs_nested hb hm := hP _ hb _ (Expr.mem_parts_statement hm)
  code_statement hb hm _ := hP _ hb _ (Expr.mem_parts_statement hm)
  declare {h scope _} hi hc := ⟨hi.bindAll scope _, extends_bindAll h scope _, hc⟩
  bind {h scope _ name v} hi _ _ _ := ⟨hi.bind scope name v, extends_bind h scope name v⟩
  make {h _ _ _ _ _ _} hi hc := by
    refine ⟨hi.push ?_, extends_push h _, trivial⟩
    rintro _ _ _ _ ⟨⟩
    exact hP _ hc _ (List.mem_singleton.mpr rfl)
  collect {h _ slots} hi _ _ :=
    ⟨hi.push fun _ _ _ _ => Nature.noConfusion, extends_push h ⟨.plain, slots⟩, trivial⟩
  setField {h _ place _ _ name _ v} hi _ _ _ :=
    ⟨hi.bind place name v, extends_bind h place name v⟩
  enter {h _ place captured name params body receiver args} hi hn _ _ _ := by
    have hframe := hi.push (o := ⟨.scope (some captured), []⟩) fun _ _ _ _ => Nature.noConfusion
    refine ⟨(hframe.bind _ _ _).bindAll _ _, hi place name params body captured hn, ?_⟩
    exact fun _ he => (extends_enter h params captured receiver args).trans he

/-- **A property that is passed on to parts holds of all code that runs in a session**, if it holds of all
scripts. -/
theorem covers_provenance {P : Expr → Prop} (hP : Inherited P)
    (hscripts : ∀ script : Script, script.body.fits Lexical.isName = true →
      P (.block script.body)) : (provenance hP).Covers where
  initial := Heap.closures_initial _
  code _ _ _ hfits := hscripts _ hfits
  statements _ _ _ hb _ hm := hP _ hb _ (Expr.mem_parts_statement hm)

end Scriptlet
