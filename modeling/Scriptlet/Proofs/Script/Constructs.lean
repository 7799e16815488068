import Scriptlet.Script.Declared
import Mathlib.Data.List.Basic
import Mathlib.Tactic.Common

/-!
# The parts of constructs

Which parts a construct evaluates in its own scope, which name it looks for there and which it binds.
The bodies of functions are not among its operands: they run elsewhere, and later. A property that is
to hold of whatever runs must hold of them too; `Expr.all` says that it holds of every construct in a
tree.

## What is proved

* `Expr.all_operand`, `Expr.all_branches`, `Expr.all_body`: what holds everywhere in a construct holds
  everywhere in its parts.
* `Block.all_iff`: what holds everywhere in a block holds everywhere in its statements.
-/

namespace Scriptlet

namespace Expr

/-- The constructs that a construct evaluates for their values, in its own scope. -/
def operands : Expr → List Expr
  | call callee args _ => callee :: args
  | assign _ value _ _ => [value]
  | returns value _ => [value]
  | choose condition _ _ _ => [condition]
  | object fields _ => fields.map Prod.snd
  | field receiver _ _ => [receiver]
  | setField receiver _ value _ => [receiver, value]
  | method receiver _ args _ => receiver :: args
  | block _ | literal _ _ | identifier _ _ | function _ _ _ _ _ => []

/-- The name that a construct needs to have a value. -/
def resolves? : Expr → Option String
  | identifier name _ => some name
  | assign name _ false _ => some name
  | _ => none

/-- The name that a construct binds in its scope. -/
def binds? : Expr → Option String
  | assign name _ _ _ => some name
  | function name _ true _ _ => some name
  | _ => none

/-- The construct is an assignment to a field. -/
def isSetField : Expr → Bool
  | setField _ _ _ _ => true
  | _ => false

end Expr

/-! ### Properties of all constructs in a tree -/

mutual

/-- A property holds of a construct and of all constructs in it. -/
@[simp] def Expr.all (p : Expr → Bool) : Expr → Bool
  | .block body => p (.block body) && body.all p
  | .literal value line => p (.literal value line)
  | .call callee args line => p (.call callee args line) && callee.all p && allIn p args
  | .identifier name line => p (.identifier name line)
  | .assign name value declares line => p (.assign name value declares line) && value.all p
  | .function name params binds body line =>
    p (.function name params binds body line) && body.all p
  | .returns value line => p (.returns value line) && value.all p
  | .choose condition yes no line =>
    p (.choose condition yes no line) && condition.all p && yes.all p && no.all p
  | .object fields line => p (.object fields line) && allInFields p fields
  | .field receiver name line => p (.field receiver name line) && receiver.all p
  | .setField receiver name value line =>
    p (.setField receiver name value line) && receiver.all p && value.all p
  | .method receiver name args line =>
    p (.method receiver name args line) && receiver.all p && allIn p args

/-- A property holds of all constructs in a block. -/
@[simp] def Block.all (p : Expr → Bool) : Block → Bool
  | ⟨statements, _⟩ => allIn p statements

/-- A property holds of all constructs in a list of them. -/
@[simp] def allIn (p : Expr → Bool) : List Expr → Bool
  | [] => true
  | e :: es => e.all p && allIn p es

/-- A property holds of all constructs in the fields of an object. -/
@[simp] def allInFields (p : Expr → Bool) : List (String × Expr) → Bool
  | [] => true
  | (_, e) :: fields => e.all p && allInFields p fields

end

section All

variable {p : Expr → Bool}

theorem allIn_iff {es : List Expr} : allIn p es = true ↔ ∀ e ∈ es, e.all p = true := by
  induction es with
  | nil => exact ⟨fun _ => List.forall_mem_nil _, fun _ => rfl⟩
  | cons e es ih => rw [allIn, Bool.and_eq_true, ih, List.forall_mem_cons]

theorem allInFields_iff {fields : List (String × Expr)} :
    allInFields p fields = true ↔ ∀ e ∈ fields.map Prod.snd, e.all p = true := by
  induction fields with
  | nil => exact ⟨fun _ => List.forall_mem_nil _, fun _ => rfl⟩
  | cons field fields ih =>
    rw [allInFields, Bool.and_eq_true, ih, List.map_cons, List.forall_mem_cons]

theorem Block.all_iff {body : Block} :
    body.all p = true ↔ ∀ e ∈ body.statements, e.all p = true := by
  obtain ⟨statements, line⟩ := body
  exact allIn_iff

namespace Expr

theorem all_self {e : Expr} (h : e.all p = true) : p e = true := by
  cases e <;> simp only [all, Bool.and_eq_true] at h <;> simp only [h]

theorem all_operand {e part : Expr} (h : e.all p = true) (hp : part ∈ e.operands) :
    part.all p = true := by
  cases e with
  | call callee args line =>
    simp only [all, Bool.and_eq_true, allIn_iff] at h
    rcases List.mem_cons.mp hp with rfl | hp
    · exact h.1.2
    · exact h.2 part hp
  | assign name value declares line =>
    simp only [all, Bool.and_eq_true] at h
    exact List.mem_singleton.mp hp ▸ h.2
  | returns value line =>
    simp only [all, Bool.and_eq_true] at h
    exact List.mem_singleton.mp hp ▸ h.2
  | choose condition yes no line =>
    simp only [all, Bool.and_eq_true] at h
    exact List.mem_singleton.mp hp ▸ h.1.1.2
  | object fields line =>
    simp only [all, Bool.and_eq_true, allInFields_iff] at h
    exact h.2 part hp
  | field receiver name line =>
    simp only [all, Bool.and_eq_true] at h
    exact List.mem_singleton.mp hp ▸ h.2
  | setField receiver name value line =>
    simp only [all, Bool.and_eq_true] at h
    rcases List.mem_cons.mp hp with rfl | hp
    · exact h.1.2
    · exact List.mem_singleton.mp hp ▸ h.2
  | method receiver name args line =>
    simp only [all, Bool.and_eq_true, allIn_iff] at h
    rcases List.mem_cons.mp hp with rfl | hp
    · exact h.1.2
    · exact h.2 part hp
  | block _ => cases hp
  | literal _ _ => cases hp
  | identifier _ _ => cases hp
  | function _ _ _ _ _ => cases hp

theorem all_branches {condition : Expr} {yes no : Block} {line : Int}
    (h : (choose condition yes no line).all p = true) : yes.all p = true ∧ no.all p = true := by
  simp only [all, Bool.and_eq_true] at h
  exact ⟨h.1.2, h.2⟩

theorem all_block {body : Block} :
    (block body).all p = true ↔ p (block body) = true ∧ body.all p = true := by
  rw [all, Bool.and_eq_true]

theorem all_body {name : String} {params : List String} {binds : Bool} {body : Block} {line : Int}
    (h : (function name params binds body line).all p = true) : body.all p = true := by
  rw [all, Bool.and_eq_true] at h
  exact h.2

end Expr

end All

end Scriptlet
