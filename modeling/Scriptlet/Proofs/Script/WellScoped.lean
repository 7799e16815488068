import Scriptlet.Evaluation.Eval
import Scriptlet.Proofs.Script.Constructs

/-!
# Well scoped scripts

A script is well scoped if every name that it reads, or assigns to without declaring it, is declared
around the place where it stands: by a variable declaration of the script or of the body of a function
around it, as a parameter of such a function, or by being built in. In a function, the name of its
receiver is declared too. It does not matter whether a declaration comes before or after the place.

Names that function declarations bind are not counted, because a function is bound only once its
declaration is evaluated.

## What is proved

* `Expr.wellScoped_operand`, `Expr.wellScoped_branches`: the parts of a well scoped construct are well
  scoped.
* `Expr.wellScoped_mono`: more declared names do no harm.
-/

namespace Scriptlet

mutual

/-- A construct is well scoped where the given names are declared. -/
def Expr.wellScoped (names : List String) : Expr → Bool
  | .block body => body.wellScoped (body.declared ++ names)
  | .literal _ _ => true
  | .call callee args _ => callee.wellScoped names && wellScopedIn names args
  | .identifier name _ => names.contains name
  | .assign name value declares _ => (declares || names.contains name) && value.wellScoped names
  | .function _ params _ body _ =>
    body.wellScoped (body.declared ++ (Eval.receiverName :: params ++ names))
  | .returns value _ => value.wellScoped names
  | .choose condition yes no _ =>
    condition.wellScoped names && yes.wellScoped names && no.wellScoped names
  | .object fields _ => wellScopedInFields names fields
  | .field receiver _ _ => receiver.wellScoped names
  | .setField receiver _ value _ => receiver.wellScoped names && value.wellScoped names
  | .method receiver _ args _ => receiver.wellScoped names && wellScopedIn names args

/-- A block is well scoped where the given names are declared, its own among them. -/
def Block.wellScoped (names : List String) : Block → Bool
  | ⟨statements, _⟩ => wellScopedStatements names statements

/-- Statements are well scoped where the given names are declared. -/
def wellScopedStatements (names : List String) : List Expr → Bool
  | [] => true
  | .block body :: es => body.wellScoped names && wellScopedStatements names es
  | e :: es => e.wellScoped names && wellScopedStatements names es

/-- All constructs in a list are well scoped. -/
def wellScopedIn (names : List String) : List Expr → Bool
  | [] => true
  | e :: es => e.wellScoped names && wellScopedIn names es

/-- The fields of an object are well scoped. -/
def wellScopedInFields (names : List String) : List (String × Expr) → Bool
  | [] => true
  | (_, e) :: fields => e.wellScoped names && wellScopedInFields names fields

end

/-- A script is well scoped. -/
def Script.isWellScoped (script : Script) : Bool :=
  (Expr.block script.body).wellScoped Heap.globalSlots.names

/-! ### Parts -/

section Parts

variable {names : List String}

theorem wellScopedIn_iff {es : List Expr} :
    wellScopedIn names es = true ↔ ∀ e ∈ es, e.wellScoped names = true := by
  induction es with
  | nil => exact ⟨fun _ => List.forall_mem_nil _, fun _ => rfl⟩
  | cons e es ih => rw [wellScopedIn, Bool.and_eq_true, ih, List.forall_mem_cons]

theorem wellScopedInFields_iff {fields : List (String × Expr)} :
    wellScopedInFields names fields = true ↔
      ∀ e ∈ fields.map Prod.snd, e.wellScoped names = true := by
  induction fields with
  | nil => exact ⟨fun _ => List.forall_mem_nil _, fun _ => rfl⟩
  | cons field fields ih =>
    rw [wellScopedInFields, Bool.and_eq_true, ih, List.map_cons, List.forall_mem_cons]

/-- A construct is well scoped as a statement: a block declares nothing there that is not declared
around it. -/
def Expr.wellScopedStatement (names : List String) : Expr → Bool
  | .block body => body.wellScoped names
  | e => e.wellScoped names

theorem Expr.wellScopedStatement_of_ne {e : Expr} (hne : ∀ body, e ≠ .block body) :
    e.wellScopedStatement names = e.wellScoped names := by
  cases e with
  | block body => exact absurd rfl (hne body)
  | _ => rfl

theorem Block.wellScoped_iff {body : Block} :
    body.wellScoped names = true ↔ ∀ e ∈ body.statements, e.wellScopedStatement names = true := by
  obtain ⟨es, line⟩ := body
  show wellScopedStatements names es = true ↔ ∀ e ∈ es, e.wellScopedStatement names = true
  induction es with
  | nil => exact ⟨fun _ => List.forall_mem_nil _, fun _ => rfl⟩
  | cons e es ih =>
    have hcons : wellScopedStatements names (e :: es) =
        (e.wellScopedStatement names && wellScopedStatements names es) := by
      cases e <;> rfl
    rw [hcons, Bool.and_eq_true, ih, List.forall_mem_cons]

namespace Expr

theorem wellScoped_operand {e part : Expr} (h : e.wellScoped names = true)
    (hp : part ∈ e.operands) : part.wellScoped names = true := by
  cases e with
  | call callee args line =>
    simp only [wellScoped, Bool.and_eq_true, wellScopedIn_iff] at h
    rcases List.mem_cons.mp hp with rfl | hp
    · exact h.1
    · exact h.2 part hp
  | assign name value declares line =>
    simp only [wellScoped, Bool.and_eq_true] at h
    exact List.mem_singleton.mp hp ▸ h.2
  | returns value line => exact List.mem_singleton.mp hp ▸ h
  | choose condition yes no line =>
    simp only [wellScoped, Bool.and_eq_true] at h
    exact List.mem_singleton.mp hp ▸ h.1.1
  | object fields line => exact wellScopedInFields_iff.mp h part hp
  | field receiver name line => exact List.mem_singleton.mp hp ▸ h
  | setField receiver name value line =>
    simp only [wellScoped, Bool.and_eq_true] at h
    rcases List.mem_cons.mp hp with rfl | hp
    · exact h.1
    · exact List.mem_singleton.mp hp ▸ h.2
  | method receiver name args line =>
    simp only [wellScoped, Bool.and_eq_true, wellScopedIn_iff] at h
    rcases List.mem_cons.mp hp with rfl | hp
    · exact h.1
    · exact h.2 part hp
  | block _ => cases hp
  | literal _ _ => cases hp
  | identifier _ _ => cases hp
  | function _ _ _ _ _ => cases hp

theorem wellScoped_branches {condition : Expr} {yes no : Block} {line : Int}
    (h : (choose condition yes no line).wellScoped names = true) :
    yes.wellScoped names = true ∧ no.wellScoped names = true := by
  simp only [wellScoped, Bool.and_eq_true] at h
  exact ⟨h.1.2, h.2⟩

theorem mem_of_wellScoped {e : Expr} {name : String} (h : e.wellScoped names = true)
    (hn : e.resolves? = some name) : name ∈ names := by
  cases e with
  | identifier name' line =>
    cases hn
    exact List.contains_iff_mem.mp h
  | assign name' value declares line =>
    cases declares with
    | true => cases hn
    | false =>
      cases hn
      rw [wellScoped, Bool.false_or, Bool.and_eq_true] at h
      exact List.contains_iff_mem.mp h.1
  | _ => cases hn

end Expr

end Parts

/-! ### More names -/

theorem append_subset_append (declared : List String) {names names' : List String}
    (hsub : names ⊆ names') : declared ++ names ⊆ declared ++ names' :=
  List.append_subset.mpr
    ⟨List.subset_append_left _ _, fun _ hm => List.mem_append_right _ (hsub hm)⟩

mutual

/-- More declared names do no harm. -/
theorem Expr.wellScoped_mono {names names' : List String} (hsub : names ⊆ names') :
    ∀ (e : Expr), e.wellScoped names = true → e.wellScoped names' = true
  | .block body, h => Block.wellScoped_mono (append_subset_append _ hsub) body h
  | .literal _ _, _ => rfl
  | .call callee args _, h => by
    simp only [Expr.wellScoped, Bool.and_eq_true] at h ⊢
    exact ⟨Expr.wellScoped_mono hsub callee h.1, wellScopedIn_mono hsub args h.2⟩
  | .identifier name _, h => List.contains_iff_mem.mpr (hsub (List.contains_iff_mem.mp h))
  | .assign name value declares _, h => by
    simp only [Expr.wellScoped, Bool.and_eq_true, Bool.or_eq_true, List.contains_iff_mem] at h ⊢
    exact ⟨h.1.imp_right fun hm => hsub hm, Expr.wellScoped_mono hsub value h.2⟩
  | .function _ params _ body _, h =>
    Block.wellScoped_mono (append_subset_append _
      (List.cons_subset_cons _ (append_subset_append _ hsub))) body h
  | .returns value _, h => Expr.wellScoped_mono hsub value h
  | .choose condition yes no _, h => by
    simp only [Expr.wellScoped, Bool.and_eq_true] at h ⊢
    exact ⟨⟨Expr.wellScoped_mono hsub condition h.1.1, Block.wellScoped_mono hsub yes h.1.2⟩,
      Block.wellScoped_mono hsub no h.2⟩
  | .object fields _, h => wellScopedInFields_mono hsub fields h
  | .field receiver _ _, h => Expr.wellScoped_mono hsub receiver h
  | .setField receiver _ value _, h => by
    simp only [Expr.wellScoped, Bool.and_eq_true] at h ⊢
    exact ⟨Expr.wellScoped_mono hsub receiver h.1, Expr.wellScoped_mono hsub value h.2⟩
  | .method receiver _ args _, h => by
    simp only [Expr.wellScoped, Bool.and_eq_true] at h ⊢
    exact ⟨Expr.wellScoped_mono hsub receiver h.1, wellScopedIn_mono hsub args h.2⟩

theorem Block.wellScoped_mono {names names' : List String} (hsub : names ⊆ names') :
    ∀ (body : Block), body.wellScoped names = true → body.wellScoped names' = true
  | ⟨statements, _⟩, h => wellScopedStatements_mono hsub statements h

theorem wellScopedStatements_mono {names names' : List String} (hsub : names ⊆ names') :
    ∀ (es : List Expr), wellScopedStatements names es = true → wellScopedStatements names' es = true
  | [], _ => rfl
  | e :: es, h => by
    cases e with
    | block body =>
      simp only [wellScopedStatements, Bool.and_eq_true] at h ⊢
      exact ⟨Block.wellScoped_mono hsub body h.1, wellScopedStatements_mono hsub es h.2⟩
    | _ =>
      simp only [wellScopedStatements, Bool.and_eq_true] at h ⊢
      exact ⟨Expr.wellScoped_mono hsub _ h.1, wellScopedStatements_mono hsub es h.2⟩

theorem wellScopedIn_mono {names names' : List String} (hsub : names ⊆ names') :
    ∀ (es : List Expr), wellScopedIn names es = true → wellScopedIn names' es = true
  | [], _ => rfl
  | e :: es, h => by
    simp only [wellScopedIn, Bool.and_eq_true] at h ⊢
    exact ⟨Expr.wellScoped_mono hsub e h.1, wellScopedIn_mono hsub es h.2⟩

theorem wellScopedInFields_mono {names names' : List String} (hsub : names ⊆ names') :
    ∀ (fields : List (String × Expr)),
      wellScopedInFields names fields = true → wellScopedInFields names' fields = true
  | [], _ => rfl
  | (_, e) :: fields, h => by
    simp only [wellScopedInFields, Bool.and_eq_true] at h ⊢
    exact ⟨Expr.wellScoped_mono hsub e h.1, wellScopedInFields_mono hsub fields h.2⟩

end

end Scriptlet
