import Scriptlet.Proofs.Evaluation.Growth
import Scriptlet.Proofs.Parsing.Trees

/-!
# Reading objects back

The construct that writes a tree down can be evaluated anywhere. It puts one object after the other on the
heap, from the inside out, and does nothing else, so what is there already stays as it is. Together with the
text of trees this takes an object through all that a script goes through: the text that shows it is read as
a construct, whose value is an object like it, which is shown by the same text.

## What is proved

* `eval_tree`: the construct that writes a tree down writes it down on the heap.
* `displayed_object_read_back`: an object that can be written down is read back from the text that shows it.
-/

namespace Scriptlet

/-! ### Evaluating trees -/

namespace Tree

mutual

/-- How deeply constructs are nested in the one that writes a tree down. -/
def depth : Tree → Nat
  | int _ | str _ => 1
  | object fields => fieldsDepth fields + 1

/-- How deeply constructs are nested in those that write fields down. -/
def fieldsDepth : List (String × Tree) → Nat
  | [] => 0
  | (_, tree) :: fields => max tree.depth (fieldsDepth fields)

end

end Tree

theorem Slots.set_of_notMem {slots : Slots} {name : String} (value : Value) (h : name ∉ slots.names) :
    slots.set name value = slots ++ [(name, value)] := by
  induction slots with
  | nil => rfl
  | cons slot slots ih =>
    obtain ⟨n, v⟩ := slot
    obtain ⟨hne, hothers⟩ := not_or.mp (mt List.mem_cons.mpr h)
    rw [Slots.set, if_neg (Ne.symm hne), ih hothers]
    rfl

mutual

/-- **The construct that writes a tree down writes it down on the heap**, in any scope, and does nothing
else. -/
theorem eval_tree (tree : Tree) (h : tree.IsWritable) {depth : Nat} (hd : tree.depth ≤ depth) (scope : Loc)
    (m : Machine) : eval depth scope tree.expr m =
      .ok (m.heap.build tree).1 { m with heap := (m.heap.build tree).2 } := by
  cases tree with
  | int n =>
    obtain ⟨depth, rfl⟩ := Nat.exists_eq_add_one.mpr hd
    rfl
  | str s =>
    obtain ⟨depth, rfl⟩ := Nat.exists_eq_add_one.mpr hd
    rfl
  | object fields =>
    obtain ⟨depth, rfl⟩ := Nat.exists_eq_add_one.mpr (Nat.lt_of_lt_of_le (Nat.succ_pos _) hd)
    have hfields := evalFields_tree fields h.2 (Nat.le_of_succ_le_succ hd) scope [] h.1 m
    refine Eval.locate_eq_ok_iff.mpr ?_
    exact Eval.bind_of_ok hfields

/-- The constructs that write fields down bind them one after the other, after those that are bound
already. -/
theorem evalFields_tree (fields : List (String × Tree)) (h : Tree.AreWritable fields) {depth : Nat}
    (hd : Tree.fieldsDepth fields ≤ depth) (scope : Loc) (slots : Slots)
    (hnames : (slots.names ++ fields.map Prod.fst).Nodup) (m : Machine) :
    Eval.evalFields (eval depth scope) slots (Tree.fieldExprs fields) m =
      .ok (slots ++ (m.heap.buildFields fields).1) { m with heap := (m.heap.buildFields fields).2 } := by
  cases fields with
  | nil => exact congrArg (EStateM.Result.ok · m) (List.append_nil slots).symm
  | cons field fields =>
    obtain ⟨name, tree⟩ := field
    have hnew : name ∉ slots.names := fun hm =>
      (List.nodup_append.mp hnames).2.2 name hm name List.mem_cons_self rfl
    have hvalue := eval_tree tree h.1.2 (Nat.le_trans (Nat.le_max_left _ _) hd) scope m
    have hnames' : ((slots ++ [(name, (m.heap.build tree).1)]).names ++ fields.map Prod.fst).Nodup := by
      simpa [Slots.names] using hnames
    have hothers := evalFields_tree fields h.2 (Nat.le_trans (Nat.le_max_right _ _) hd) scope _ hnames'
      { m with heap := (m.heap.build tree).2 }
    rw [← Slots.set_of_notMem _ hnew] at hothers
    refine (Eval.bind_of_ok hvalue).trans (hothers.trans ?_)
    rw [Slots.set_of_notMem _ hnew, List.append_assoc]
    rfl

end

/-! ### Reading objects back -/

open Parsing in
/-- **Objects are read back from the texts that show them.** If an object holds nothing but integers, strings
that need no escapes and such objects, and does not go round in a circle, the text that shows it is a script
of one expression. Anywhere this is evaluated to a fresh object, which is like the first one and is shown by
the same text, and nothing that was there changes. -/
theorem displayed_object_read_back {h : Heap} {place : Loc}
    (hrecords : ∀ inner, h.Reaches place inner → h.IsRecord inner) (hcircles : ¬ h.Circles place) :
    ∃ fields, parse (h.display (.ref place) ++ ";") = .ok ⟨⟨[.object fields 1], 1⟩⟩ ∧
      ∃ bound, ∀ (scope : Loc) (m : Machine), ∃ fresh h',
        (∀ depth ≥ bound, eval depth scope (.object fields 1) m = .ok (.ref fresh) { m with heap := h' }) ∧
        m.heap.next ≤ fresh ∧ fresh < h'.next ∧ m.heap.Intact h' ∧
        (h'.get fresh).slots.names = (h.get place).slots.names ∧
        h.Alike (.ref place) h' (.ref fresh) ∧
        h'.display (.ref fresh) = h.display (.ref place) := by
  obtain ⟨tree, hunfolds, hwritable⟩ := Heap.exists_unfolds hrecords hcircles
  cases hunfolds with
  | @object _ fields hlt hplain hslots =>
    have hparse := parse_tree (.object fields) hwritable
    have hunfolds := Heap.Unfolds.object hlt hplain hslots
    refine ⟨Tree.fieldExprs fields, hunfolds.display_eq ▸ hparse, (Tree.object fields).depth,
      fun scope m => ?_⟩
    have hbuilt := m.heap.unfolds_build (.object fields)
    have hintact := m.heap.intact_build (.object fields)
    have heval : ∀ depth ≥ (Tree.object fields).depth, _ := fun depth hd =>
      eval_tree (.object fields) hwritable hd scope m
    have hnext := (m.heap.intact_buildFields fields).next_le
    refine ⟨_, _, heval, hnext, ?_, hintact, ?_, ⟨_, hunfolds, hbuilt⟩, ?_⟩
    · cases hbuilt with
      | object hlt _ _ => exact hlt
    · cases hbuilt with
      | object _ _ hfields => exact hfields.names_eq.trans hslots.names_eq.symm
    · exact hbuilt.display_eq.trans hunfolds.display_eq.symm

/-- A heap with an object that holds another one twice, besides a string with a quote in it and a negative
number under a name that is reserved. -/
def Heap.sharing : Heap :=
  ⟨#[⟨.plain, [("if", .int (-10)), ("s", .str "it's"), ("left", .ref 1), ("right", .ref 1)]⟩,
    ⟨.plain, [("n", .int 7)]⟩]⟩

theorem Heap.eq_of_holds_sharing {outer inner : Loc} (h : sharing.Holds outer inner) :
    outer = 0 ∧ inner = 1 := by
  obtain ⟨-, -, name, hslot⟩ := h
  match outer with
  | 0 =>
    have hslot' : name = "left" ∧ inner = 1 ∨ name = "right" ∧ inner = 1 := by
      simpa [sharing, get] using hslot
    exact ⟨rfl, hslot'.elim And.right And.right⟩
  | 1 => simp [sharing, get] at hslot
  | n + 2 => simp [sharing, get, Object.empty] at hslot

theorem Heap.eq_of_reaches_sharing {inner : Loc} (h : sharing.Reaches 0 inner) : inner = 0 ∨ inner = 1 := by
  cases h with
  | refl => exact .inl rfl
  | tail _ hholds => exact .inr (eq_of_holds_sharing hholds).2

theorem Heap.not_holdsItself_sharing (place : Loc) : ¬ sharing.HoldsItself place := by
  intro h
  obtain ⟨_, hfirst, -⟩ := Relation.TransGen.head'_iff.mp h
  obtain ⟨_, -, hlast⟩ := Relation.TransGen.tail'_iff.mp h
  have hzero := (eq_of_holds_sharing hfirst).1
  have hone := (eq_of_holds_sharing hlast).2
  rw [hzero] at hone
  cases hone

theorem Heap.isRecord_sharing {place : Loc} (h : place = 0 ∨ place = 1) : sharing.IsRecord place := by
  rcases h with rfl | rfl
  · refine ⟨by decide, rfl, by decide, ?_⟩
    have hquote : NeedsNoEscape "it's" := by decide
    exact List.forall_mem_cons.mpr ⟨⟨by decide, trivial⟩, List.forall_mem_cons.mpr ⟨⟨by decide, hquote⟩,
      List.forall_mem_cons.mpr ⟨⟨by decide, rfl⟩, List.forall_mem_singleton.mpr ⟨by decide, rfl⟩⟩⟩⟩
  · exact ⟨by decide, rfl, by decide, List.forall_mem_singleton.mpr ⟨by decide, trivial⟩⟩

theorem displayed_object_read_back_sharing :
    let text := "\x7bif: -10, s: \"it's\", left: \x7bn: 7\x7d, right: \x7bn: 7\x7d\x7d"
    ∃ fields, Parsing.parse (text ++ ";") = .ok ⟨⟨[.object fields 1], 1⟩⟩ ∧
      ∃ bound, ∀ (scope : Loc) (m : Machine), ∃ fresh h',
        (∀ depth ≥ bound, eval depth scope (.object fields 1) m = .ok (.ref fresh) { m with heap := h' }) ∧
        (h'.get fresh).slots.names = ["if", "s", "left", "right"] ∧ h'.display (.ref fresh) = text := by
  have hrecords : ∀ inner, Heap.sharing.Reaches 0 inner → Heap.sharing.IsRecord inner :=
    fun _ h => Heap.isRecord_sharing (Heap.eq_of_reaches_sharing h)
  have hcircles : ¬ Heap.sharing.Circles 0 := fun ⟨inner, _, hself⟩ =>
    Heap.not_holdsItself_sharing inner hself
  have htext : Heap.sharing.display (.ref 0) =
      "\x7bif: -10, s: \"it's\", left: \x7bn: 7\x7d, right: \x7bn: 7\x7d\x7d" := by decide
  obtain ⟨fields, hparse, bound, hruns⟩ := displayed_object_read_back hrecords hcircles
  rw [htext] at hparse
  refine ⟨fields, hparse, bound, fun scope m => ?_⟩
  obtain ⟨fresh, h', heval, -, -, -, hnames, -, hdisplay⟩ := hruns scope m
  exact ⟨fresh, h', heval, hnames, hdisplay.trans htext⟩

end Scriptlet
