import Scriptlet.Proofs.Evaluation.Growth
import Scriptlet.Proofs.Evaluation.Scoping

/-!
# Declarations first

A block binds all names that it declares before its first statement runs. So it can as well be written
with its declarations in front: first all names are declared without a value, and then come the statements,
in which every declaration is an assignment like any other. Blocks that stand in the block bind nothing of
their own and may be dissolved, also those in the branches of a choice. What functions do when they are
called is another matter, and stays as it is.

## What is proved

* `Block.declared_hoisted`: the block with its declarations in front declares the same names.
* `runStatement_flatten`: where its names are bound, a statement does what it does with its blocks
  dissolved and its declarations turned into assignments.
* `eval_hoisted`: a block with its declarations in front is the same block.
-/

namespace Scriptlet

/-! ### The normal form -/

mutual

/-- The statements that a statement dissolves into, with its declarations turned into assignments. -/
def Expr.flatten : Expr → List Expr
  | .block body => body.flatten
  | .assign name value _ line => [.assign name value false line]
  | .choose condition yes no line =>
    [.choose condition ⟨yes.flatten, yes.line⟩ ⟨no.flatten, no.line⟩ line]
  | e => [e]

/-- The statements of a block, dissolved. -/
def Block.flatten : Block → List Expr
  | ⟨statements, _⟩ => flattenAll statements

/-- Statements, dissolved one after the other. -/
def flattenAll : List Expr → List Expr
  | [] => []
  | e :: es => e.flatten ++ flattenAll es

end

/-- The declaration of a name without a value. -/
def declaration (line : Int) (name : String) : Expr :=
  .assign name (.literal .undefined line) true line

/-- The block with its declarations in front, which are given a line. -/
def Block.hoisted (line : Int) (body : Block) : Block :=
  ⟨body.declared.map (declaration line) ++ body.flatten, body.line⟩

/-! ### Declared names -/

theorem declaredIn_declarations (line : Int) (names : List String) :
    declaredIn (names.map (declaration line)) = names := by
  induction names with
  | nil => rfl
  | cons name names ih => rw [List.map_cons, declaredIn, ih]; rfl

mutual

/-- What is left of a statement declares nothing. -/
theorem Expr.declaredIn_flatten (e : Expr) : declaredIn e.flatten = [] := by
  cases e with
  | block body => exact body.declaredIn_flatten
  | choose condition yes no line =>
    show (declaredIn yes.flatten ++ declaredIn no.flatten) ++ [] = []
    rw [yes.declaredIn_flatten, no.declaredIn_flatten]
    rfl
  | assign name value declares line => rfl
  | _ => rfl

theorem Block.declaredIn_flatten (body : Block) : declaredIn body.flatten = [] := by
  obtain ⟨statements, line⟩ := body
  exact declaredIn_flattenAll statements

theorem declaredIn_flattenAll (es : List Expr) : declaredIn (flattenAll es) = [] := by
  cases es with
  | nil => rfl
  | cons e es =>
    rw [flattenAll, declaredIn_append, e.declaredIn_flatten, declaredIn_flattenAll es]
    rfl

end

/-- The normal form declares the same names in the same order. -/
theorem Block.declared_hoisted (line : Int) (body : Block) :
    (body.hoisted line).declared = body.declared := by
  show declaredIn (body.declared.map (declaration line) ++ body.flatten) = _
  rw [declaredIn_append, declaredIn_declarations, body.declaredIn_flatten, List.append_nil]

/-! ### Statements -/

section Statements

open Eval Heap

variable {depth : Nat} {scope : Loc} {m m' : Machine}

/-- A declaration of a name that is bound is an assignment. -/
theorem eval_assign_of_isSome {name : String} (h : (m.heap.lookup? scope name).isSome)
    (value : Expr) (declares : Bool) (line : Int) :
    eval depth scope (.assign name value false line) m =
      eval depth scope (.assign name value declares line) m := by
  cases depth with
  | zero => rfl
  | succ depth =>
    refine locate_congr line ?_
    obtain ⟨v, hv⟩ := Option.isSome_iff_exists.mp h
    cases declares with
    | false => rfl
    | true => exact bind_of_ok (resolve_of_lookup? hv)

theorem runStatements_append (recur : Expr → Eval Value) (es fs : List Expr) :
    runStatements recur (es ++ fs) = runStatements recur es >>= fun _ => runStatements recur fs := by
  induction es with
  | nil => rw [List.nil_append, runStatements, pure_bind]
  | cons e es ih => rw [List.cons_append, runStatements, ih, runStatements, bind_assoc]

theorem runStatements_singleton (recur : Expr → Eval Value) (e : Expr) :
    runStatements recur [e] = runStatement recur e := by
  rw [runStatements, runStatements]
  exact bind_pure _

/-- What is run as a statement leads to a later heap. -/
theorem extends_of_runStatement {e : Expr}
    (h : runStatement (eval depth scope) e m = .ok () m') : m.heap.Extends m'.heap := by
  have hkeeps : growth.Keeps scope m (runStatement (eval depth scope) e) fun _ _ => True :=
    Discipline.keeps_runStatement (growth.keeps_eval depth) ⟨fun _ _ => trivial, fun _ => trivial⟩
  exact (hkeeps.leads_of_ok trivial h).change

/-- A choice that takes the same branches does the same. -/
theorem eval_choose_congr {condition : Expr} {yes no yes' no' : Block} {line : Int}
    (h : ∀ depth v m', eval depth scope condition m = .ok v m' →
      runBlock (eval depth scope) yes' m' = runBlock (eval depth scope) yes m' ∧
        runBlock (eval depth scope) no' m' = runBlock (eval depth scope) no m') :
    eval depth scope (.choose condition yes' no' line) m =
      eval depth scope (.choose condition yes no line) m := by
  cases depth with
  | zero => rfl
  | succ depth =>
    refine locate_congr line (bind_congr rfl fun v m' hv => ?_)
    obtain ⟨hyes, hno⟩ := h depth v m' hv
    cases v.truth? with
    | none => rfl
    | some taken =>
      cases taken with
      | true => exact bind_congr hyes fun _ _ _ => rfl
      | false => exact bind_congr hno fun _ _ _ => rfl

mutual

/-- Where its names are bound, a statement does what it does with its blocks dissolved and its declarations
turned into assignments. -/
theorem runStatement_flatten (e : Expr) {m : Machine} (hb : m.heap.Binds scope e.declared)
    (depth : Nat) :
    runStatements (eval depth scope) e.flatten m = runStatement (eval depth scope) e m := by
  cases e with
  | block body => exact runBlock_flatten body hb depth
  | assign name value declares line =>
    rw [Expr.flatten, runStatements_singleton]
    cases declares with
    | false => rfl
    | true =>
      have hname := hb name List.mem_cons_self
      exact bind_congr (eval_assign_of_isSome hname value true line) fun _ _ _ => rfl
  | choose condition yes no line =>
    rw [Expr.flatten, runStatements_singleton]
    refine bind_congr (eval_choose_congr fun depth v m' hv => ?_) fun _ _ _ => rfl
    have hb' := hb.mono (extends_of_eval hv)
    constructor
    · exact runBlock_flatten yes (fun name hm => hb' name (List.mem_append_left _ hm)) depth
    · exact runBlock_flatten no (fun name hm => hb' name (List.mem_append_right _ hm)) depth
  | _ => rw [Expr.flatten, runStatements_singleton] <;> nofun

theorem runBlock_flatten (body : Block) {m : Machine} (hb : m.heap.Binds scope body.declared)
    (depth : Nat) :
    runStatements (eval depth scope) body.flatten m = runBlock (eval depth scope) body m := by
  obtain ⟨statements, line⟩ := body
  exact runStatements_flatten statements hb depth

theorem runStatements_flatten (es : List Expr) {m : Machine}
    (hb : m.heap.Binds scope (declaredIn es)) (depth : Nat) :
    runStatements (eval depth scope) (flattenAll es) m = runStatements (eval depth scope) es m := by
  cases es with
  | nil => rfl
  | cons e es =>
    rw [flattenAll, runStatements_append, runStatements]
    have he := runStatement_flatten e (fun name hm => hb name (List.mem_append_left _ hm)) depth
    refine bind_congr he fun _ m' hm' => ?_
    have hb' := hb.mono (extends_of_runStatement (he ▸ hm'))
    exact runStatements_flatten es (fun name hm => hb' name (List.mem_append_right _ hm)) depth

end

/-- Declaring a name without a value changes nothing where it has none. -/
theorem eval_declaration (line : Int) {name : String}
    (h : (m.heap.get scope).slots.get? name = some .undefined) :
    eval (depth + 2) scope (declaration line name) m = .ok .undefined m := by
  have hbind : Eval.bind scope name .undefined m = .ok () m := by
    show EStateM.Result.ok () { m with heap := m.heap.bind scope name .undefined } = .ok () m
    rw [bind_eq_self h]
  have hvalue : eval (depth + 1) scope (.literal .undefined line) m = .ok .undefined m := rfl
  have hstep : step (eval (depth + 1)) scope (declaration line name) m = .ok .undefined m :=
    (bind_of_ok hvalue).trans ((bind_of_ok hbind).trans rfl)
  rw [eval, locate, hstep]

theorem runStatements_declarations (line : Int) {names : List String}
    (h : ∀ name ∈ names, (m.heap.get scope).slots.get? name = some .undefined) :
    runStatements (eval (depth + 2) scope) (names.map (declaration line)) m = .ok () m := by
  induction names with
  | nil => rfl
  | cons name names ih =>
    obtain ⟨hname, hnames⟩ := List.forall_mem_cons.mp h
    rw [List.map_cons, runStatements]
    have hfirst : runStatement (eval (depth + 2) scope) (declaration line name) m = .ok () m :=
      (bind_of_ok (eval_declaration line hname)).trans rfl
    rw [bind_of_ok hfirst, ih hnames]

end Statements

/-! ### Blocks -/

open Eval Heap

/-- **A block with its declarations in front is the same block**: in every scope and on every machine it
ends in the same way, on the same heap and with the same output. (The declarations in front need constructs
to be nested three deep.) -/
theorem eval_hoisted {scope : Loc} {m : Machine} (hs : scope < m.heap.next) (body : Block)
    (line : Int) (depth : Nat) :
    eval (depth + 3) scope (.block (body.hoisted line)) m =
      eval (depth + 3) scope (.block body) m := by
  refine locate_congr body.line ?_
  simp only [step, body.declared_hoisted line]
  refine bind_congr rfl fun _ m' hm' => ?_
  have hheap : m'.heap = m.heap.declare scope body := by
    cases hm'
    rfl
  refine bind_congr ?_ fun _ _ _ => rfl
  have hbound : ∀ name ∈ body.declared, (m'.heap.get scope).slots.get? name = some .undefined := by
    intro name hm
    rw [hheap]
    exact (get?_bindAll_undefined _ hs name).trans (if_pos hm)
  have hbinds : m'.heap.Binds scope body.declared := hheap ▸ binds_declare hs
  show runStatements _ (body.declared.map (declaration line) ++ body.flatten) m' = _
  rw [runStatements_append, bind_of_ok (runStatements_declarations line hbound)]
  exact runBlock_flatten body hbinds (depth + 2)

/-- A block that declares `x` in a block in a branch, and then declares `y` and returns it. -/
def nested : Block :=
  ⟨[.choose (.literal (.int 1) 2)
      ⟨[.block ⟨[.assign "x" (.literal (.int 7) 3) true 3], 3⟩], 2⟩ ⟨[], 2⟩ 2,
    .assign "y" (.identifier "x" 4) true 4,
    .returns (.identifier "y" 5) 5], 1⟩

/-- With its declarations in front the block returns `7` as well. -/
theorem eval_hoisted_nested :
    nested.hoisted 0 =
      ⟨[declaration 0 "x", declaration 0 "y",
        .choose (.literal (.int 1) 2)
          ⟨[.assign "x" (.literal (.int 7) 3) false 3], 2⟩ ⟨[], 2⟩ 2,
        .assign "y" (.identifier "x" 4) false 4,
        .returns (.identifier "y" 5) 5], 1⟩ ∧
    globals < (Machine.start false).heap.next ∧
    ∃ m, eval 4 globals (.block (nested.hoisted 0)) (.start false) =
      .error (.returned (.int 7)) m := by
  have hs : globals < (Machine.start false).heap.next := by decide
  have hrun : ∃ m, eval 4 globals (.block nested) (.start false) =
      .error (.returned (.int 7)) m := ⟨_, rfl⟩
  obtain ⟨m, hm⟩ := hrun
  exact ⟨rfl, hs, m, (eval_hoisted hs nested 0 1).trans hm⟩

end Scriptlet
