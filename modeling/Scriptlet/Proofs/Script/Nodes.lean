import Scriptlet.Script.Expr
import Mathlib.Data.List.Basic

/-!
# The constructs in a script

All constructs that a construct is made of, itself first, blocks and the bodies of functions among them.

## What is proved

* `forall_mem_nodesIn`, `forall_mem_nodesInFields`: what holds of all constructs in a list of them, or in
  the fields of an object. -/

namespace Scriptlet

mutual

/-- The constructs in a construct, itself first. Blocks are among them. -/
@[simp] def Expr.nodes : Expr → List Expr
  | .block body => body.nodes
  | .literal value line => [.literal value line]
  | .call callee args line => .call callee args line :: (callee.nodes ++ nodesIn args)
  | .identifier name line => [.identifier name line]
  | .assign name value declares line => .assign name value declares line :: value.nodes
  | .function name params binds body line => .function name params binds body line :: body.nodes
  | .returns value line => .returns value line :: value.nodes
  | .choose condition yes no line =>
    .choose condition yes no line :: (condition.nodes ++ yes.nodes ++ no.nodes)
  | .object fields line => .object fields line :: nodesInFields fields
  | .field receiver name line => .field receiver name line :: receiver.nodes
  | .setField receiver name value line =>
    .setField receiver name value line :: (receiver.nodes ++ value.nodes)
  | .method receiver name args line =>
    .method receiver name args line :: (receiver.nodes ++ nodesIn args)

/-- The constructs in a block, the block itself first. -/
@[simp] def Block.nodes : Block → List Expr
  | ⟨statements, line⟩ => .block ⟨statements, line⟩ :: nodesIn statements

/-- The constructs in a list of them. -/
@[simp] def nodesIn : List Expr → List Expr
  | [] => []
  | e :: es => e.nodes ++ nodesIn es

/-- The constructs in the fields of an object. -/
@[simp] def nodesInFields : List (String × Expr) → List Expr
  | [] => []
  | (_, e) :: fields => e.nodes ++ nodesInFields fields

end

/-- What holds of the constructs in a list holds of those in each of them. -/
theorem forall_mem_nodesIn {p : Expr → Prop} {es : List Expr} :
    (∀ x ∈ nodesIn es, p x) ↔ ∀ e ∈ es, ∀ x ∈ e.nodes, p x := by
  induction es with
  | nil => exact ⟨fun _ => List.forall_mem_nil _, fun _ => List.forall_mem_nil _⟩
  | cons e es ih => rw [nodesIn, List.forall_mem_append, ih, List.forall_mem_cons]

/-- What holds of the constructs in fields holds of those in the value of each of them. -/
theorem forall_mem_nodesInFields {p : Expr → Prop} {fields : List (String × Expr)} :
    (∀ x ∈ nodesInFields fields, p x) ↔ ∀ f ∈ fields, ∀ x ∈ f.2.nodes, p x := by
  induction fields with
  | nil => exact ⟨fun _ => List.forall_mem_nil _, fun _ => List.forall_mem_nil _⟩
  | cons f fields ih =>
    obtain ⟨name, e⟩ := f
    rw [nodesInFields, List.forall_mem_append, ih, List.forall_mem_cons]

end Scriptlet
