import Scriptlet.Proofs.Script.Constructs

/-!
# Renaming variables

The variables of a script get other names: where they are read, declared or assigned to, and as parameters.
Names of functions, fields and methods and those that objects are written with stay as they are, because
they can be seen in what a script prints.

## What is proved

* `Expr.rename_id`: to give every variable its own name changes nothing.
* `Block.declared_rename`: renamed blocks declare the renamed variables.
* `Expr.all_mono`, `Expr.all_of_forall`: what follows from a property of all constructs holds of all
  constructs, and so does what is true of each.
-/

namespace Scriptlet

mutual

/-- The construct with its variables renamed. -/
def Expr.rename (f : String → String) : Expr → Expr
  | .block body => .block (body.rename f)
  | .literal value line => .literal value line
  | .call callee args line => .call (callee.rename f) (renameAll f args) line
  | .identifier name line => .identifier (f name) line
  | .assign name value declares line => .assign (f name) (value.rename f) declares line
  | .function name params binds body line =>
    .function name (params.map f) binds (body.rename f) line
  | .returns value line => .returns (value.rename f) line
  | .choose condition yes no line =>
    .choose (condition.rename f) (yes.rename f) (no.rename f) line
  | .object fields line => .object (renameFields f fields) line
  | .field receiver name line => .field (receiver.rename f) name line
  | .setField receiver name value line => .setField (receiver.rename f) name (value.rename f) line
  | .method receiver name args line => .method (receiver.rename f) name (renameAll f args) line

/-- The block with its variables renamed. -/
def Block.rename (f : String → String) : Block → Block
  | ⟨statements, line⟩ => ⟨renameAll f statements, line⟩

/-- The constructs with their variables renamed. -/
def renameAll (f : String → String) : List Expr → List Expr
  | [] => []
  | e :: es => e.rename f :: renameAll f es

/-- The fields with the variables in their values renamed. -/
def renameFields (f : String → String) : List (String × Expr) → List (String × Expr)
  | [] => []
  | (name, e) :: fields => (name, e.rename f) :: renameFields f fields

end

/-- The script with its variables renamed. -/
def Script.rename (f : String → String) (script : Script) : Script := ⟨script.body.rename f⟩

@[simp] theorem Expr.line_rename (f : String → String) (e : Expr) : (e.rename f).line = e.line := by
  cases e with
  | block body =>
    obtain ⟨statements, line⟩ := body
    rfl
  | _ => rfl

theorem renameAll_eq_map (f : String → String) (es : List Expr) :
    renameAll f es = es.map (Expr.rename f) := by
  induction es with
  | nil => rfl
  | cons e es ih => rw [renameAll, ih, List.map_cons]

mutual

/-- To give every variable its own name changes nothing. -/
theorem Expr.rename_id (e : Expr) : e.rename id = e := by
  cases e with
  | block body => rw [Expr.rename, body.rename_id]
  | literal value line => rfl
  | call callee args line => rw [Expr.rename, callee.rename_id, renameAll_id args]
  | identifier name line => rfl
  | assign name value declares line => rw [Expr.rename, value.rename_id, id]
  | function name params binds body line => rw [Expr.rename, body.rename_id, List.map_id]
  | returns value line => rw [Expr.rename, value.rename_id]
  | choose condition yes no line =>
    rw [Expr.rename, condition.rename_id, yes.rename_id, no.rename_id]
  | object fields line => rw [Expr.rename, renameFields_id fields]
  | field receiver name line => rw [Expr.rename, receiver.rename_id]
  | setField receiver name value line => rw [Expr.rename, receiver.rename_id, value.rename_id]
  | method receiver name args line => rw [Expr.rename, receiver.rename_id, renameAll_id args]

theorem Block.rename_id (body : Block) : body.rename id = body := by
  obtain ⟨statements, line⟩ := body
  rw [Block.rename, renameAll_id statements]

theorem renameAll_id (es : List Expr) : renameAll id es = es := by
  cases es with
  | nil => rfl
  | cons e es => rw [renameAll, e.rename_id, renameAll_id es]

theorem renameFields_id (fields : List (String × Expr)) : renameFields id fields = fields := by
  cases fields with
  | nil => rfl
  | cons field fields => rw [renameFields, field.2.rename_id, renameFields_id fields]

end

mutual

/-- Renamed constructs declare the renamed variables. -/
theorem Expr.declared_rename (f : String → String) (e : Expr) :
    (e.rename f).declared = e.declared.map f := by
  cases e with
  | block body => exact body.declared_rename f
  | assign name value declares line => cases declares <;> rfl
  | choose condition yes no line =>
    rw [Expr.rename, Expr.declared, yes.declared_rename, no.declared_rename, Expr.declared,
      List.map_append]
  | _ => rfl

/-- Renamed blocks declare the renamed variables. -/
theorem Block.declared_rename (f : String → String) (body : Block) :
    (body.rename f).declared = body.declared.map f := by
  obtain ⟨statements, line⟩ := body
  exact declaredIn_renameAll f statements

theorem declaredIn_renameAll (f : String → String) (es : List Expr) :
    declaredIn (renameAll f es) = (declaredIn es).map f := by
  cases es with
  | nil => rfl
  | cons e es =>
    rw [renameAll, declaredIn, e.declared_rename, declaredIn_renameAll f es, declaredIn,
      List.map_append]

end

/-! ### Properties that imply others -/

section Mono

variable {p q : Expr → Bool}

mutual

/-- What follows from a property of all constructs holds of all constructs. -/
theorem Expr.all_mono (hpq : ∀ e, p e = true → q e = true) (e : Expr) (h : e.all p = true) :
    e.all q = true := by
  cases e with
  | block body =>
    obtain ⟨hself, hbody⟩ := Expr.all_block.mp h
    exact Expr.all_block.mpr ⟨hpq _ hself, body.all_mono hpq hbody⟩
  | literal value line => exact hpq _ h
  | identifier name line => exact hpq _ h
  | call callee args line =>
    simp only [Expr.all, Bool.and_eq_true] at h ⊢
    exact ⟨⟨hpq _ h.1.1, callee.all_mono hpq h.1.2⟩, allIn_mono hpq args h.2⟩
  | assign name value declares line =>
    simp only [Expr.all, Bool.and_eq_true] at h ⊢
    exact ⟨hpq _ h.1, value.all_mono hpq h.2⟩
  | function name params binds body line =>
    simp only [Expr.all, Bool.and_eq_true] at h ⊢
    exact ⟨hpq _ h.1, body.all_mono hpq h.2⟩
  | returns value line =>
    simp only [Expr.all, Bool.and_eq_true] at h ⊢
    exact ⟨hpq _ h.1, value.all_mono hpq h.2⟩
  | choose condition yes no line =>
    simp only [Expr.all, Bool.and_eq_true] at h ⊢
    exact ⟨⟨⟨hpq _ h.1.1.1, condition.all_mono hpq h.1.1.2⟩, yes.all_mono hpq h.1.2⟩,
      no.all_mono hpq h.2⟩
  | object fields line =>
    simp only [Expr.all, Bool.and_eq_true] at h ⊢
    exact ⟨hpq _ h.1, allInFields_mono hpq fields h.2⟩
  | field receiver name line =>
    simp only [Expr.all, Bool.and_eq_true] at h ⊢
    exact ⟨hpq _ h.1, receiver.all_mono hpq h.2⟩
  | setField receiver name value line =>
    simp only [Expr.all, Bool.and_eq_true] at h ⊢
    exact ⟨⟨hpq _ h.1.1, receiver.all_mono hpq h.1.2⟩, value.all_mono hpq h.2⟩
  | method receiver name args line =>
    simp only [Expr.all, Bool.and_eq_true] at h ⊢
    exact ⟨⟨hpq _ h.1.1, receiver.all_mono hpq h.1.2⟩, allIn_mono hpq args h.2⟩

theorem Block.all_mono (hpq : ∀ e, p e = true → q e = true) (body : Block) (h : body.all p = true) :
    body.all q = true := by
  obtain ⟨statements, line⟩ := body
  exact allIn_mono hpq statements h

theorem allIn_mono (hpq : ∀ e, p e = true → q e = true) (es : List Expr) (h : allIn p es = true) :
    allIn q es = true := by
  cases es with
  | nil => rfl
  | cons e es =>
    rw [allIn, Bool.and_eq_true] at h ⊢
    exact ⟨e.all_mono hpq h.1, allIn_mono hpq es h.2⟩

theorem allInFields_mono (hpq : ∀ e, p e = true → q e = true) (fields : List (String × Expr))
    (h : allInFields p fields = true) : allInFields q fields = true := by
  cases fields with
  | nil => rfl
  | cons field fields =>
    rw [allInFields, Bool.and_eq_true] at h ⊢
    exact ⟨field.2.all_mono hpq h.1, allInFields_mono hpq fields h.2⟩

end

mutual

/-- What is true of every construct holds of all constructs in one. -/
theorem Expr.all_of_forall (hp : ∀ e, p e = true) (e : Expr) : e.all p = true := by
  cases e with
  | block body => exact Expr.all_block.mpr ⟨hp _, body.all_of_forall hp⟩
  | literal value line => exact hp _
  | identifier name line => exact hp _
  | call callee args line =>
    rw [Expr.all, hp, callee.all_of_forall hp, allIn_of_forall hp args]
    rfl
  | assign name value declares line =>
    rw [Expr.all, hp, value.all_of_forall hp]
    rfl
  | function name params binds body line =>
    rw [Expr.all, hp, body.all_of_forall hp]
    rfl
  | returns value line =>
    rw [Expr.all, hp, value.all_of_forall hp]
    rfl
  | choose condition yes no line =>
    rw [Expr.all, hp, condition.all_of_forall hp, yes.all_of_forall hp, no.all_of_forall hp]
    rfl
  | object fields line =>
    rw [Expr.all, hp, allInFields_of_forall hp fields]
    rfl
  | field receiver name line =>
    rw [Expr.all, hp, receiver.all_of_forall hp]
    rfl
  | setField receiver name value line =>
    rw [Expr.all, hp, receiver.all_of_forall hp, value.all_of_forall hp]
    rfl
  | method receiver name args line =>
    rw [Expr.all, hp, receiver.all_of_forall hp, allIn_of_forall hp args]
    rfl

theorem Block.all_of_forall (hp : ∀ e, p e = true) (body : Block) : body.all p = true := by
  obtain ⟨statements, line⟩ := body
  exact allIn_of_forall hp statements

theorem allIn_of_forall (hp : ∀ e, p e = true) (es : List Expr) : allIn p es = true := by
  cases es with
  | nil => rfl
  | cons e es =>
    rw [allIn, e.all_of_forall hp, allIn_of_forall hp es]
    rfl

theorem allInFields_of_forall (hp : ∀ e, p e = true) (fields : List (String × Expr)) :
    allInFields p fields = true := by
  cases fields with
  | nil => rfl
  | cons field fields =>
    rw [allInFields, field.2.all_of_forall hp, allInFields_of_forall hp fields]
    rfl

end

end Mono

end Scriptlet
