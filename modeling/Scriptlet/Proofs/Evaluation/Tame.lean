import Scriptlet.Proofs.Evaluation.Encapsulation
import Scriptlet.Proofs.Script.Shape
import Scriptlet.Proofs.Store.Guise

/-!
# Heaps that can be put in another guise

What runs on a heap has to be known if the same is to run on it in another guise: it uses only variables
that may be used, and binds only names that stay as they are where they can be seen. `Guise.admits` says so
of code, and `Guise.Tame` of a heap.

## What is proved

* `Guise.Tame.bind`, `Guise.Tame.push`, `Guise.Tame.declare`, `Guise.Tame.enter`: what such code does leaves
  a heap tame.
* `Guise.heap_enter`: functions are entered in the same way in every guise.
* `Guise.Tame.createGlobals`, `Guise.tame_initial`: fresh global scopes are tame.
-/

namespace Scriptlet

namespace Guise

variable {G : Guise} {h : Heap} {n : String}

/-! ### What may be run -/

/-- The names that a construct uses may be used, and those that can be seen stay as they are. -/
def admits (G : Guise) : Expr → Bool
  | .identifier name _ | .assign name _ _ _ => G.isVariable name
  | .function name params binds _ _ => (!binds || G.isLabel name) && params.all G.isVariable
  | .object fields _ => fields.all fun field => G.isLabel field.1
  | .field _ name _ | .setField _ name _ _ | .method _ name _ _ => G.isLabel name
  | .block _ | .literal _ _ | .call _ _ _ | .returns _ _ | .choose _ _ _ _ => true

theorem bindsOnly_of_admits {e : Expr} (he : G.admits e = true) :
    e.bindsOnly G.isVariable = true := by
  cases e with
  | assign name value declares line => exact he
  | function name params binds body line =>
    rw [admits, Bool.and_eq_true] at he
    rw [Expr.bindsOnly, he.2, Bool.and_true]
    cases binds with
    | false => rfl
    | true => exact (isLabel_iff.mp he.1).1
  | setField receiver name value line => exact (isLabel_iff.mp he).1
  | _ => rfl

/-- What a block binds before its first statement are variables that may be used. -/
theorem isVariable_of_declared {body : Block} (hbody : body.all G.admits = true) :
    ∀ n ∈ Slots.names (body.declared.map fun name => (name, Value.undefined)),
      G.isVariable n = true := by
  intro n hn
  rw [Slots.names, List.map_map] at hn
  obtain ⟨m, hm, rfl⟩ := List.mem_map.mp hn
  exact body.names_of_mem_declared (body.all_mono (fun _ => bindsOnly_of_admits) hbody) m hm

/-- A heap on which only such code runs. -/
structure Tame (G : Guise) (h : Heap) : Prop where
  /-- Parents lie in front. -/
  ordered : h.Ordered
  /-- Only variables that may be used are bound. -/
  named : G.Named h
  /-- Names that can be seen stay as they are. -/
  visible : G.Visible h
  /-- Functions were made in scopes, and may be run. -/
  captured : h.Closures fun params body scope =>
    h.IsScope scope ∧ params.all G.isVariable = true ∧ body.all G.admits = true

namespace Tame

theorem bind (ht : G.Tame h) {p : Loc} (hn : G.isVariable n = true)
    (hplain : (h.get p).nature = .plain → G.name n = n) (v : Value) : G.Tame (h.bind p n v) where
  ordered q parent hq := by
    rw [Object.parent?_congr (Heap.nature_bind h p n v q)] at hq
    exact ht.ordered q parent hq
  named := ht.named.bind hn p v
  visible q hq m hm := by
    rw [Heap.nature_bind] at hq
    obtain ⟨slot, hslot, rfl⟩ := List.mem_map.mp hm
    by_cases hqp : q = p
    · subst hqp
      rcases Heap.eq_or_mem_of_mem_bind hslot with rfl | hslot
      · exact hplain hq
      · exact ht.visible q hq _ (List.mem_map_of_mem hslot)
    · rw [Heap.get_bind_of_ne n v hqp] at hslot
      exact ht.visible q hq _ (List.mem_map_of_mem hslot)
  captured := (ht.captured.bind p n v).mono fun _ _ _ hc =>
    ⟨(Heap.extends_bind h p n v).isScope hc.1, hc.2⟩

/-- Binding variables in a scope. -/
theorem bindAll {bindings : Slots} (ht : G.Tame h) {p : Loc} (hp : h.IsScope p)
    (hb : ∀ n ∈ bindings.names, G.isVariable n = true) : G.Tame (h.bindAll p bindings) := by
  induction bindings generalizing h with
  | nil => exact ht
  | cons binding bindings ih =>
    obtain ⟨hn, hb⟩ := List.forall_mem_cons.mp hb
    have hscope : (h.get p).nature ≠ .plain := by
      obtain ⟨parent, hp⟩ := hp
      rw [hp]
      exact Nature.noConfusion
    exact ih (ht.bind hn (fun hplain => absurd hplain hscope) _)
      ((Heap.extends_bind h p _ _).isScope hp) hb

theorem push {o : Object} (ht : G.Tame h)
    (hparent : ∀ parent, o.parent? = some parent → parent < h.next)
    (hnames : ∀ n ∈ o.slots.names, G.isLabel n = true)
    (hcode : ∀ name params body scope, o.nature = .function name (.closure params body scope) →
      h.IsScope scope ∧ params.all G.isVariable = true ∧ body.all G.admits = true) :
    G.Tame (h.push o) where
  ordered q parent hq := by
    by_cases hlast : q = h.next
    · rw [hlast, Heap.get_push_self] at hq
      exact hlast ▸ hparent parent hq
    · rw [Heap.get_push_of_ne o hlast] at hq
      exact ht.ordered q parent hq
  named := ht.named.push fun n hn => (isLabel_iff.mp (hnames n hn)).1
  visible q hq n hn := by
    by_cases hlast : q = h.next
    · rw [hlast, Heap.get_push_self] at hn
      exact (isLabel_iff.mp (hnames n hn)).2
    · rw [Heap.get_push_of_ne o hlast] at hq hn
      exact ht.visible q hq n hn
  captured := (ht.captured.push hcode).mono fun _ _ _ hc =>
    ⟨(Heap.extends_push h o).isScope hc.1, hc.2⟩

theorem declare {body : Block} {scope : Loc} (ht : G.Tame h) (hs : h.IsScope scope)
    (hbody : body.all G.admits = true) : G.Tame (h.declare scope body) :=
  ht.bindAll hs (isVariable_of_declared hbody)

theorem enter {params : List String} {scope : Loc} (ht : G.Tame h) (hs : h.IsScope scope)
    (hparams : params.all G.isVariable = true) (receiver : Value) (args : List Value) :
    G.Tame (h.enter params scope receiver args) := by
  have hpush : G.Tame (h.push ⟨.scope (some scope), []⟩) := by
    refine ht.push ?_ (List.forall_mem_nil _) fun _ _ _ _ => Nature.noConfusion
    rintro _ ⟨⟩
    exact hs.lt
  have hframe : (h.push ⟨.scope (some scope), []⟩).IsScope h.next := by
    refine ⟨some scope, ?_⟩
    rw [Heap.get_push_self]
  obtain ⟨hthis, hname⟩ := G.given Eval.receiverName List.mem_cons_self
  refine (hpush.bind hthis (fun _ => hname) receiver).bindAll
    ((Heap.extends_bind _ _ _ _).isScope hframe) fun n hn => ?_
  obtain ⟨binding, hm, rfl⟩ := List.mem_map.mp hn
  exact List.all_eq_true.mp hparams _ (List.of_mem_zip hm).1

end Tame

/-- Entering a function is the same in every guise. -/
theorem heap_enter {params : List String} (ht : G.Tame h) (scope : Loc)
    (hparams : params.all G.isVariable = true) (receiver : Value) (args : List Value) :
    (G.heap h).enter (params.map G.name) (G.place scope) (G.value receiver) (args.map G.value) =
      G.heap (h.enter params scope receiver args) := by
  have hpush : G.Named (h.push ⟨.scope (some scope), []⟩) := ht.named.push (List.forall_mem_nil _)
  obtain ⟨hthis, hname⟩ := G.given Eval.receiverName List.mem_cons_self
  have hframe : (G.heap h).push ⟨.scope (some (G.place scope)), []⟩ =
      G.heap (h.push ⟨.scope (some scope), []⟩) := heap_push h ⟨.scope (some scope), []⟩
  have hreceiver := heap_bind hpush hthis h.next receiver
  rw [hname] at hreceiver
  have hzip : (params.map G.name).zip (args.map G.value) = G.slots (params.zip args) := by
    rw [List.zip_map]
    rfl
  rw [Heap.enter, hframe, next_heap, hreceiver, hzip, Heap.enter]
  refine heap_bindAll (hpush.bind hthis h.next receiver) (fun n hn => ?_) h.next
  obtain ⟨binding, hm, rfl⟩ := List.mem_map.mp hn
  exact List.all_eq_true.mp hparams _ (List.of_mem_zip hm).1

end Guise

/-! ### Fresh global scopes -/

namespace Heap

/-- A fresh global scope is made object by object. -/
theorem createGlobals_eq (h : Heap) :
    h.createGlobals = (h.next, (globalObjects h.next).foldl push h) := by
  have happend : ∀ (objects : List Object) (h : Heap),
      ⟨h.objects ++ objects.toArray⟩ = objects.foldl push h := by
    intro objects
    induction objects with
    | nil => exact fun h => congrArg mk Array.append_empty
    | cons o objects ih =>
      intro h
      rw [List.foldl_cons, ← ih, List.toArray_cons, ← Array.append_assoc, Array.append_singleton,
        push]
  rw [createGlobals, happend]

/-- What is made is no function of a script. -/
theorem nature_ne_closure_of_mem_globalObjects {root : Loc} {o : Object}
    (ho : o ∈ globalObjects root) (name : String) (params : List String) (body : Block)
    (scope : Loc) : o.nature ≠ .function name (.closure params body scope) := by
  rcases List.mem_cons.mp ho with rfl | ho
  · exact Nature.noConfusion
  · obtain ⟨b, -, rfl⟩ := List.mem_map.mp ho
    rintro ⟨⟩

theorem extends_foldl_push (h : Heap) (objects : List Object) :
    h.Extends (objects.foldl push h) := by
  induction objects generalizing h with
  | nil => exact .refl h
  | cons o objects ih => exact (extends_push h o).trans (ih (h.push o))

/-- What is made is a scope, in which entries can run. -/
theorem isScope_createGlobals (h : Heap) : h.createGlobals.2.IsScope h.createGlobals.1 := by
  have hscope : (h.push ⟨.scope none, globalSlotsAt h.next⟩).IsScope h.next := by
    refine ⟨none, ?_⟩
    rw [get_push_self]
  rw [createGlobals_eq, globalObjects, List.foldl_cons]
  exact (extends_foldl_push _ _).isScope hscope

theorem names_globalSlotsAt (root : Loc) :
    (globalSlotsAt root).names = globalName :: Builtin.all.map Builtin.name := by
  have hnames : (Builtin.all.zipIdx.map Prod.fst).map Builtin.name = Builtin.all.map Builtin.name := by
    rw [List.zipIdx_map_fst]
  rw [← hnames, globalSlotsAt, Slots.names, List.map_cons, List.map_map, List.map_map]
  rfl

end Heap

namespace Guise

variable {G : Guise} {h : Heap}

theorem Tame.foldl_push {objects : List Object} (ht : G.Tame h)
    (hparents : ∀ o ∈ objects, o.parent? = none)
    (hnames : ∀ o ∈ objects, ∀ n ∈ o.slots.names, G.isLabel n = true)
    (hcode : ∀ o ∈ objects, ∀ name params body scope,
      o.nature ≠ .function name (.closure params body scope)) :
    G.Tame (objects.foldl Heap.push h) := by
  induction objects generalizing h with
  | nil => exact ht
  | cons o objects ih =>
    obtain ⟨hparent, hparents⟩ := List.forall_mem_cons.mp hparents
    obtain ⟨hname, hnames⟩ := List.forall_mem_cons.mp hnames
    obtain ⟨hself, hcode⟩ := List.forall_mem_cons.mp hcode
    refine ih (ht.push ?_ hname fun _ _ _ _ hn => absurd hn (hself _ _ _ _)) hparents hnames hcode
    intro parent hp
    rw [hparent] at hp
    cases hp

/-- A fresh global scope can be put in every guise. -/
theorem Tame.createGlobals (ht : G.Tame h) : G.Tame h.createGlobals.2 := by
  rw [Heap.createGlobals_eq]
  refine ht.foldl_push ?_ ?_ fun _ => Heap.nature_ne_closure_of_mem_globalObjects
  · refine List.forall_mem_cons.mpr ⟨rfl, List.forall_mem_map.mpr fun b _ => rfl⟩
  · refine List.forall_mem_cons.mpr ⟨fun n hn => ?_, List.forall_mem_map.mpr fun b _ => ?_⟩
    · rw [Heap.names_globalSlotsAt] at hn
      exact isLabel_of_given (List.mem_cons_of_mem _ hn)
    · exact List.forall_mem_nil _

/-- So can the heap before a script runs. -/
theorem tame_initial (G : Guise) : G.Tame .initial := by
  have hempty : G.Tame ⟨#[]⟩ := by
    constructor
    case ordered => rintro p parent ⟨⟩
    case named => exact fun p => List.forall_mem_nil _
    case visible => exact fun p _ => List.forall_mem_nil _
    case captured => rintro p name params body scope ⟨⟩
  have hglobals := hempty.createGlobals
  rw [Heap.createGlobals_empty] at hglobals
  exact hglobals

end Guise

end Scriptlet
