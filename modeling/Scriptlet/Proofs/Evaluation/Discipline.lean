import Scriptlet.Evaluation.Run
import Scriptlet.Proofs.Script.Constructs
import Scriptlet.Proofs.Store.Objects

/-!
# Disciplines of evaluation

A discipline is a property of heaps, values and code that every construct keeps while it is evaluated,
however that ends. It lists what has to be shown of the few things a construct can do to the heap:
bind names in its own scope, put a function or an object there, set a field, and enter a function. All
the rest of evaluation is the same for every discipline, and it is gone through here once.

What may change in the heap depends on the scope in which a construct is evaluated, since every
construct binds names in its own scope only. A scope that a call makes is new, so that what may change
there is more than what may change in the scope of the caller; `Discipline.enter` accounts for it.

## What is proved

* `Discipline.keeps_step`: a construct keeps a discipline if evaluation of its parts does.
* `Discipline.keeps_eval`: evaluation keeps a discipline, in every scope and at every depth.
-/

namespace Scriptlet

/-! ### What operators result in -/

theorem Fault.cause_locate (f : Fault) (line : Int) : (f.locate line).cause = f.cause := by
  unfold Fault.locate
  split
  · rfl
  · split <;> rfl

/-- An integer, or a failure that is not about a name: what operators result in. -/
def Operator.IsResult : Except FaultCause Value → Prop
  | .ok v => ∃ n, v = .int n
  | .error cause => ∀ name, cause ≠ .undefinedName name

namespace Operator

variable {h : Heap} {o : Operator} {a b : Value}

theorem isResult_integers {f : Int × Int → Except FaultCause Value} (hf : ∀ p, IsResult (f p)) :
    IsResult (h.integers o a b >>= f) := by
  cases a with
  | int m =>
    cases b with
    | int n => exact hf (m, n)
    | undefined => exact fun _ => FaultCause.noConfusion
    | str s => exact fun _ => FaultCause.noConfusion
    | ref place => exact fun _ => FaultCause.noConfusion
  | undefined => exact fun _ => FaultCause.noConfusion
  | str s => exact fun _ => FaultCause.noConfusion
  | ref place => exact fun _ => FaultCause.noConfusion

theorem isResult_order (f : Ordering → Bool) :
    IsResult (h.order a b >>= fun order => return .ofBool (f order)) := by
  unfold Heap.order
  split
  · exact ⟨_, rfl⟩
  · exact fun _ => FaultCause.noConfusion

theorem isResult_unless_byZero (n : Int) (v : Int) :
    IsResult (if n = 0 then .error (.byZero o) else return .int v) := by
  split
  · exact fun _ => FaultCause.noConfusion
  · exact ⟨v, rfl⟩

/-- An operator yields an integer, or fails for a reason that is not a name without a value. -/
theorem isResult_apply (h : Heap) (o : Operator) (a b : Value) : IsResult (o.apply h a b) := by
  cases o with
  | add => exact isResult_integers fun _ => ⟨_, rfl⟩
  | sub => exact isResult_integers fun _ => ⟨_, rfl⟩
  | mul => exact isResult_integers fun _ => ⟨_, rfl⟩
  | div => exact isResult_integers fun p => isResult_unless_byZero p.2 _
  | mod => exact isResult_integers fun p => isResult_unless_byZero p.2 _
  | eq => exact ⟨_, rfl⟩
  | ne => exact ⟨_, rfl⟩
  | lt => exact isResult_order Ordering.isLT
  | le => exact isResult_order Ordering.isLE
  | gt => exact isResult_order Ordering.isGT
  | ge => exact isResult_order Ordering.isGE

end Operator

/-! ### Blocks and calls on the heap -/

namespace Heap

/-- The heap on which the statements of a block start: the names that it declares are bound. -/
def declare (h : Heap) (scope : Loc) (body : Block) : Heap :=
  h.bindAll scope (body.declared.map fun name => (name, .undefined))

/-- The heap on which the body of a function starts: a new scope with the receiver and the arguments
bound. -/
def enter (h : Heap) (params : List String) (scope : Loc) (receiver : Value) (args : List Value) :
    Heap :=
  ((h.push ⟨.scope (some scope), []⟩).bind h.next Eval.receiverName receiver).bindAll h.next
    (params.zip args)

variable (h : Heap) (params : List String) (scope : Loc) (receiver : Value) (args : List Value)

theorem extends_enter : h.Extends (h.enter params scope receiver args) :=
  ((extends_push h _).trans (extends_bind _ _ _ _)).trans (extends_bindAll _ _ _)

/-- A call binds names in a new object only. -/
theorem frame_enter (kept : Heap → Loc → Prop) :
    Frame kept h (h.enter params scope receiver args) where
  toExtends := extends_enter h params scope receiver args
  slots place hp _ := by
    have hne : place ≠ h.next := Nat.ne_of_lt hp
    rw [enter, get_bindAll_of_ne hne, get_bind_of_ne _ _ hne, get_push_of_ne _ hne]

theorem nature_enter :
    ((h.enter params scope receiver args).get h.next).nature = .scope (some scope) := by
  rw [enter, nature_bindAll, nature_bind, get_push_self]

end Heap

/-- The machine that a computation leaves, however it ends. -/
def Eval.after {α : Type} (x : Eval α) (m : Machine) : Machine :=
  match x m with
  | .ok _ m' => m'
  | .error _ m' => m'

/-! ### Disciplines -/

/-- A property that evaluation keeps. -/
structure Discipline where
  /-- What holds of every heap. -/
  inv : Heap → Prop
  /-- The values there are. -/
  value : Heap → Value → Prop
  /-- The constructs that may be evaluated in a scope. -/
  code : Heap → Loc → Expr → Prop
  /-- The blocks that may be run in a scope, their names bound already. -/
  runs : Heap → Loc → Block → Prop
  /-- How a heap may change while something is evaluated in a scope. -/
  change : Loc → Heap → Heap → Prop
  /-- Why evaluation may fail. -/
  fault : FaultCause → Prop
  -- changes add up, and keep what is known of values and code
  change_refl (scope : Loc) (h : Heap) : change scope h h
  change_trans {scope : Loc} {h h' h'' : Heap} :
    change scope h h' → change scope h' h'' → change scope h h''
  value_change {scope : Loc} {h h' : Heap} {v : Value} :
    change scope h h' → value h v → value h' v
  code_change {scope : Loc} {h h' : Heap} {e : Expr} :
    change scope h h' → code h scope e → code h' scope e
  runs_change {scope : Loc} {h h' : Heap} {body : Block} :
    change scope h h' → runs h scope body → runs h' scope body
  -- where values come from
  value_plain {h : Heap} {v : Value} : (∀ place, v ≠ .ref place) → value h v
  value_lookup {h : Heap} {place : Loc} {name : String} {v : Value} :
    inv h → h.lookup? place name = some v → value h v
  -- why evaluation fails
  fault_other {cause : FaultCause} : (∀ name, cause ≠ .undefinedName name) → fault cause
  fault_name {h : Heap} {scope : Loc} {e : Expr} {name : String} :
    inv h → code h scope e → e.resolves? = some name → h.lookup? scope name = none →
      fault (.undefinedName name)
  -- the parts of what may be evaluated or run
  code_operand {h : Heap} {scope : Loc} {e part : Expr} :
    code h scope e → part ∈ e.operands → code h scope part
  runs_branches {h : Heap} {scope : Loc} {condition : Expr} {yes no : Block} {line : Int} :
    code h scope (.choose condition yes no line) → runs h scope yes ∧ runs h scope no
  runs_nested {h : Heap} {scope : Loc} {body inner : Block} :
    runs h scope body → .block inner ∈ body.statements → runs h scope inner
  code_statement {h : Heap} {scope : Loc} {body : Block} {e : Expr} :
    runs h scope body → e ∈ body.statements → (∀ inner, e ≠ .block inner) → code h scope e
  -- what is done to the heap
  declare {h : Heap} {scope : Loc} {body : Block} :
    inv h → code h scope (.block body) →
      inv (h.declare scope body) ∧ change scope h (h.declare scope body) ∧
        runs (h.declare scope body) scope body
  bind {h : Heap} {scope : Loc} {e : Expr} {name : String} {v : Value} :
    inv h → code h scope e → e.binds? = some name → value h v →
      inv (h.bind scope name v) ∧ change scope h (h.bind scope name v)
  make {h : Heap} {scope : Loc} {name : String} {params : List String} {binds : Bool}
      {body : Block} {line : Int} :
    inv h → code h scope (.function name params binds body line) →
      inv (h.push ⟨.function name (.closure params body scope), []⟩) ∧
        change scope h (h.push ⟨.function name (.closure params body scope), []⟩) ∧
        value (h.push ⟨.function name (.closure params body scope), []⟩) (.ref h.next)
  collect {h : Heap} {scope : Loc} {slots : Slots} :
    inv h → slots.names.Nodup → (∀ slot ∈ slots, value h slot.2) →
      inv (h.push ⟨.plain, slots⟩) ∧ change scope h (h.push ⟨.plain, slots⟩) ∧
        value (h.push ⟨.plain, slots⟩) (.ref h.next)
  setField {h : Heap} {scope place : Loc} {receiver value' : Expr} {name : String} {line : Int}
      {v : Value} :
    inv h → code h scope (.setField receiver name value' line) → value h (.ref place) →
      value h v → inv (h.bind place name v) ∧ change scope h (h.bind place name v)
  enter {h : Heap} {scope place captured : Loc} {name : String} {params : List String}
      {body : Block} {receiver : Value} {args : List Value} :
    inv h → (h.get place).nature = .function name (.closure params body captured) →
      value h receiver → (∀ v ∈ args, value h v) → args.length = params.length →
      inv (h.enter params captured receiver args) ∧
        code (h.enter params captured receiver args) h.next (.block body) ∧
        ∀ h', change h.next (h.enter params captured receiver args) h' → change scope h h'

namespace Discipline

variable {D : Discipline} {α β : Type} {scope : Loc} {m : Machine}

/-- What evaluation in a scope may make of a machine. -/
structure Leads (D : Discipline) (scope : Loc) (m m' : Machine) : Prop where
  /-- The heap is as every heap. -/
  inv : D.inv m'.heap
  /-- It has changed only as it may. -/
  change : D.change scope m.heap m'.heap

/-- How evaluation may end abruptly. -/
def Allows (D : Discipline) (h : Heap) : Abrupt → Prop
  | .returned v => D.value h v
  | .failed f => D.fault f.cause
  | .tooDeep => True

/-- How evaluation in a scope may end that started on a machine. -/
def Ends (D : Discipline) (scope : Loc) (m : Machine) (post : Heap → α → Prop) :
    EStateM.Result Abrupt Machine α → Prop
  | .ok a m' => D.Leads scope m m' ∧ post m'.heap a
  | .error abrupt m' => D.Leads scope m m' ∧ D.Allows m'.heap abrupt

/-- A computation on a machine, in a scope, keeps a discipline, and what it yields is as stated. -/
def Keeps (D : Discipline) (scope : Loc) (m : Machine) (x : Eval α) (post : Heap → α → Prop) : Prop :=
  D.inv m.heap → D.Ends scope m post (x m)

/-! ### Computations -/

theorem Leads.refl (hi : D.inv m.heap) : D.Leads scope m m := ⟨hi, D.change_refl scope m.heap⟩

theorem Leads.trans {m m' m'' : Machine} (a : D.Leads scope m m') (b : D.Leads scope m' m'') :
    D.Leads scope m m'' :=
  ⟨b.inv, D.change_trans a.change b.change⟩

variable {post : Heap → α → Prop} {post' : Heap → β → Prop}

theorem value_undefined (h : Heap) : D.value h .undefined :=
  D.value_plain fun _ => Value.noConfusion

theorem Keeps.pure {a : α} (ha : post m.heap a) : D.Keeps scope m (pure a) post := by
  intro hi
  exact ⟨.refl hi, ha⟩

theorem Keeps.throw {abrupt : Abrupt} (ha : D.Allows m.heap abrupt) :
    D.Keeps scope m (throw abrupt : Eval α) post := by
  intro hi
  exact ⟨.refl hi, ha⟩

theorem Keeps.fail {cause : FaultCause} (hc : D.fault cause) :
    D.Keeps scope m (Eval.fail cause : Eval α) post :=
  Keeps.throw hc

theorem Keeps.bind {x : Eval α} {f : α → Eval β} (hx : D.Keeps scope m x post)
    (hf : ∀ a m', D.change scope m.heap m'.heap → post m'.heap a →
      D.Keeps scope m' (f a) post') : D.Keeps scope m (x >>= f) post' := by
  intro hi
  have hends := hx hi
  show D.Ends scope m post' (EStateM.bind x f m)
  unfold EStateM.bind
  cases hr : x m with
  | ok a m' =>
    rw [hr] at hends
    obtain ⟨hleads, ha⟩ := hends
    have hends' := hf a m' hleads.change ha hleads.inv
    show D.Ends scope m post' (f a m')
    cases hr' : f a m' with
    | ok b m'' => rw [hr'] at hends'; exact ⟨hleads.trans hends'.1, hends'.2⟩
    | error abrupt m'' => rw [hr'] at hends'; exact ⟨hleads.trans hends'.1, hends'.2⟩
  | error abrupt m' =>
    rw [hr] at hends
    exact hends

/-- Looking at the heap changes nothing. -/
theorem Keeps.heap {f : Heap → Eval β} (hf : D.Keeps scope m (f m.heap) post') :
    D.Keeps scope m (Eval.heap >>= f) post' :=
  hf

theorem Keeps.changeHeap (post : Heap → Unit → Prop) {f : Heap → Heap}
    (hf : D.inv m.heap →
      D.inv (f m.heap) ∧ D.change scope m.heap (f m.heap) ∧ post (f m.heap) ()) :
    D.Keeps scope m (Eval.changeHeap f) post := by
  intro hi
  obtain ⟨hi', h', hpost⟩ := hf hi
  exact ⟨⟨hi', h'⟩, hpost⟩

theorem Keeps.allocate (post : Heap → Loc → Prop) {o : Object}
    (ho : D.inv m.heap → D.inv (m.heap.push o) ∧ D.change scope m.heap (m.heap.push o) ∧
      post (m.heap.push o) m.heap.next) :
    D.Keeps scope m (Eval.allocate o) post := by
  intro hi
  obtain ⟨hi', h', hpost⟩ := ho hi
  exact ⟨⟨hi', h'⟩, hpost⟩

theorem Keeps.locate {x : Eval α} (line : Int) (hx : D.Keeps scope m x post) :
    D.Keeps scope m (Eval.locate line x) post := by
  intro hi
  have hends := hx hi
  unfold Eval.locate
  cases hr : x m with
  | ok a m' => rw [hr] at hends; exact hends
  | error abrupt m' =>
    rw [hr] at hends
    cases abrupt with
    | returned v => exact hends
    | tooDeep => exact hends
    | failed f =>
      refine ⟨hends.1, ?_⟩
      show D.fault (f.locate line).cause
      rw [Fault.cause_locate]
      exact hends.2

theorem Keeps.functionBody {x : Eval Unit} {post : Heap → Unit → Prop}
    (hx : D.Keeps scope m x post) : D.Keeps scope m (Eval.functionBody x) D.value := by
  intro hi
  have hends := hx hi
  unfold Eval.functionBody
  cases hr : x m with
  | ok _ m' =>
    rw [hr] at hends
    exact ⟨hends.1, value_undefined m'.heap⟩
  | error abrupt m' =>
    rw [hr] at hends
    cases abrupt with
    | returned v => exact hends
    | failed f => exact hends
    | tooDeep => exact hends

/-- What a computation leads to, however it ends. -/
theorem Keeps.leads_after {x : Eval α} (hx : D.Keeps scope m x post) (hi : D.inv m.heap) :
    D.Leads scope m (Eval.after x m) := by
  have hends := hx hi
  unfold Eval.after
  cases hr : x m with
  | ok a m' => rw [hr] at hends; exact hends.1
  | error abrupt m' => rw [hr] at hends; exact hends.1

/-! ### Built-in functions -/

theorem keeps_print (args : List Value) : D.Keeps scope m (Eval.print args) D.value := by
  intro hi
  have hprint : ∃ m', Eval.print args m = .ok .undefined m' ∧ m'.heap = m.heap := by
    obtain ⟨heap, written, tracing, root⟩ := m
    cases tracing with
    | true => exact ⟨_, rfl, rfl⟩
    | false => exact ⟨_, rfl, rfl⟩
  obtain ⟨m', hr, heap⟩ := hprint
  rw [hr]
  exact ⟨⟨heap ▸ hi, heap ▸ D.change_refl scope m.heap⟩, value_undefined m'.heap⟩

theorem keeps_call (b : Builtin) (args : List Value) :
    D.Keeps scope m (b.call args) D.value := by
  unfold Builtin.call
  split
  · exact keeps_print args
  · next o x y =>
    refine Keeps.heap ?_
    have hresult := Operator.isResult_apply m.heap o x y
    cases hr : o.apply m.heap x y with
    | ok v =>
      rw [hr] at hresult
      obtain ⟨n, rfl⟩ := hresult
      exact Keeps.pure (D.value_plain fun _ => Value.noConfusion)
    | error cause =>
      rw [hr] at hresult
      exact Keeps.fail (D.fault_other hresult)
  · exact Keeps.fail (D.fault_other fun _ => FaultCause.noConfusion)

/-! ### The parts of a construct -/

/-- Evaluation of the parts of constructs keeps a discipline. -/
def Known (D : Discipline) (recur : Eval.Recur) : Prop :=
  ∀ scope m e, D.code m.heap scope e → D.Keeps scope m (recur scope e) D.value

variable {recur : Eval.Recur}

theorem keeps_expectObject (v : Value) :
    D.Keeps scope m (Eval.expectObject v) fun _ place => v = .ref place := by
  cases v with
  | ref place => exact Keeps.pure rfl
  | undefined => exact Keeps.fail (D.fault_other fun _ => FaultCause.noConfusion)
  | int n => exact Keeps.fail (D.fault_other fun _ => FaultCause.noConfusion)
  | str s => exact Keeps.fail (D.fault_other fun _ => FaultCause.noConfusion)

theorem keeps_expectFunction (subject : Heap → String) (v : Value) :
    D.Keeps scope m (Eval.expectFunction subject v) fun _ _ => True := by
  unfold Eval.expectFunction
  refine Keeps.heap ?_
  split
  · split
    · exact Keeps.pure trivial
    · exact Keeps.fail (D.fault_other fun _ => FaultCause.noConfusion)
  · exact Keeps.fail (D.fault_other fun _ => FaultCause.noConfusion)

theorem keeps_resolve {e : Expr} {name : String} (hc : D.code m.heap scope e)
    (hn : e.resolves? = some name) : D.Keeps scope m (Eval.resolve scope name) D.value := by
  unfold Eval.resolve
  refine Keeps.heap fun hi => ?_
  cases hl : m.heap.lookup? scope name with
  | some v => exact Keeps.pure (D.value_lookup hi hl) hi
  | none => exact Keeps.fail (D.fault_name hi hc hn hl) hi

theorem keeps_evalAll (hrec : D.Known recur) {es : List Expr}
    (hc : ∀ e ∈ es, D.code m.heap scope e) :
    D.Keeps scope m (Eval.evalAll (recur scope) es) fun h vs => ∀ v ∈ vs, D.value h v := by
  induction es generalizing m with
  | nil => exact Keeps.pure (List.forall_mem_nil _)
  | cons e es ih =>
    obtain ⟨he, hes⟩ := List.forall_mem_cons.mp hc
    refine (hrec scope m e he).bind fun v m₁ h₁ hv => ?_
    refine (ih fun e he => D.code_change h₁ (hes e he)).bind fun vs m₂ h₂ hvs => ?_
    exact Keeps.pure (List.forall_mem_cons.mpr ⟨D.value_change h₂ hv, hvs⟩)

/-- The slots of an object that is being made. -/
def Collected (D : Discipline) (h : Heap) (slots : Slots) : Prop :=
  slots.names.Nodup ∧ ∀ slot ∈ slots, D.value h slot.2

theorem Collected.set {h : Heap} {slots : Slots} {v : Value} (hs : D.Collected h slots)
    (name : String) (hv : D.value h v) : D.Collected h (slots.set name v) := by
  refine ⟨Slots.nodup_names_set hs.1, fun slot hm => ?_⟩
  rcases Slots.eq_or_mem_of_mem_set hm with rfl | hm
  · exact hv
  · exact hs.2 slot hm

theorem keeps_evalFields (hrec : D.Known recur) {fields : List (String × Expr)} {slots : Slots}
    (hc : ∀ e ∈ fields.map Prod.snd, D.code m.heap scope e) (hs : D.Collected m.heap slots) :
    D.Keeps scope m (Eval.evalFields (recur scope) slots fields) D.Collected := by
  induction fields generalizing m slots with
  | nil => exact Keeps.pure hs
  | cons field fields ih =>
    obtain ⟨he, hes⟩ := List.forall_mem_cons.mp hc
    refine (hrec scope m field.2 he).bind fun v m₁ h₁ hv => ?_
    have hs₁ : D.Collected m₁.heap slots :=
      ⟨hs.1, fun slot hm => D.value_change h₁ (hs.2 slot hm)⟩
    exact ih (fun e he => D.code_change h₁ (hes e he)) (hs₁.set field.1 hv)

/-! ### Blocks -/

/-- A construct may stand as a statement in a scope. -/
def Statement (D : Discipline) (h : Heap) (scope : Loc) (e : Expr) : Prop :=
  (∀ inner, e = .block inner → D.runs h scope inner) ∧
    ((∀ inner, e ≠ .block inner) → D.code h scope e)

theorem Statement.change {h h' : Heap} {e : Expr} (hc : D.change scope h h')
    (he : D.Statement h scope e) : D.Statement h' scope e :=
  ⟨fun inner heq => D.runs_change hc (he.1 inner heq), fun hne => D.code_change hc (he.2 hne)⟩

mutual

theorem keeps_runBlock (hrec : D.Known recur) {m : Machine} : ∀ {body : Block},
    D.runs m.heap scope body →
      D.Keeps scope m (Eval.runBlock (recur scope) body) fun _ _ => True
  | ⟨_, _⟩, hb =>
    keeps_runStatements hrec fun _ he =>
      ⟨fun _ heq => D.runs_nested hb (heq ▸ he), D.code_statement hb he⟩

theorem keeps_runStatements (hrec : D.Known recur) {m : Machine} : ∀ {es : List Expr},
    (∀ e ∈ es, D.Statement m.heap scope e) →
      D.Keeps scope m (Eval.runStatements (recur scope) es) fun _ _ => True
  | [], _ => Keeps.pure trivial
  | e :: es, hes => by
    obtain ⟨he, hes⟩ := List.forall_mem_cons.mp hes
    refine (keeps_runStatement hrec he).bind fun _ m₁ h₁ _ => ?_
    exact keeps_runStatements hrec fun e he => (hes e he).change h₁

theorem keeps_runStatement (hrec : D.Known recur) {m : Machine} : ∀ {e : Expr},
    D.Statement m.heap scope e →
      D.Keeps scope m (Eval.runStatement (recur scope) e) fun _ _ => True
  | e, he => by
    cases e with
    | block body => exact keeps_runBlock hrec (he.1 body rfl)
    | _ =>
      have hc := he.2 fun _ => Expr.noConfusion
      exact (hrec scope m _ hc).bind fun _ _ _ _ => Keeps.pure trivial

end

/-! ### Calls -/

/-- What is known of the scope that a call makes is known of the scope of the caller. -/
theorem Ends.widen {inner : Loc} {m' : Machine} {r : EStateM.Result Abrupt Machine α}
    (hr : D.Ends inner m' post r)
    (hchange : ∀ h, D.change inner m'.heap h → D.change scope m.heap h) : D.Ends scope m post r := by
  cases r with
  | ok a m'' => exact ⟨⟨hr.1.inv, hchange _ hr.1.change⟩, hr.2⟩
  | error abrupt m'' => exact ⟨⟨hr.1.inv, hchange _ hr.1.change⟩, hr.2⟩

theorem keeps_invoke (hrec : D.Known recur) (place : Loc) {receiver : Value} {args : List Value}
    (hreceiver : D.value m.heap receiver) (hargs : ∀ v ∈ args, D.value m.heap v) :
    D.Keeps scope m (Eval.invoke recur place receiver args) D.value := by
  unfold Eval.invoke
  refine Keeps.heap ?_
  split
  · exact keeps_call _ _
  · next name params body captured hn =>
    split
    · exact Keeps.fail (D.fault_other fun _ => FaultCause.noConfusion)
    · next hlength =>
      intro hi
      obtain ⟨hi', hc, hchange⟩ := D.enter hi hn hreceiver hargs (not_not.mp hlength)
      let m' : Machine := { m with heap := m.heap.enter params captured receiver args }
      have hbody : D.Keeps m.heap.next m' (do let _ ← recur m.heap.next (.block body))
          fun _ _ => True :=
        (hrec _ m' _ hc).bind fun _ _ _ _ => Keeps.pure trivial
      exact (hbody.functionBody hi').widen hchange
  · exact Keeps.fail (D.fault_other fun _ => FaultCause.noConfusion)
  · exact Keeps.fail (D.fault_other fun _ => FaultCause.noConfusion)

/-! ### Constructs -/

/-- What a field access yields. -/
theorem value_member {h : Heap} (hi : D.inv h) (place : Loc) (name : String) :
    D.value h ((h.lookup? place name).getD .undefined) := by
  cases hl : h.lookup? place name with
  | none => exact value_undefined h
  | some v => exact D.value_lookup hi hl

/-- Binding the name that a construct binds. -/
theorem keeps_bind {e : Expr} {name : String} {v : Value} (hc : D.code m.heap scope e)
    (hn : e.binds? = some name) (hv : D.value m.heap v) :
    D.Keeps scope m (Eval.bind scope name v) fun _ _ => True := by
  refine Keeps.changeHeap _ fun hi => ?_
  obtain ⟨hi', h'⟩ := D.bind hi hc hn hv
  exact ⟨hi', h', trivial⟩

theorem keeps_step_block (hrec : D.Known recur) {body : Block}
    (hc : D.code m.heap scope (.block body)) :
    D.Keeps scope m (Eval.step recur scope (.block body)) D.value := by
  simp only [Eval.step]
  refine (Keeps.changeHeap (fun h _ => D.runs h scope body) fun hi => D.declare hi hc).bind
    fun _ m₁ h₁ hb => ?_
  refine (keeps_runBlock hrec hb).bind fun _ m₂ h₂ _ => ?_
  exact Keeps.pure (value_undefined _)

theorem keeps_step_call (hrec : D.Known recur) {callee : Expr} {args : List Expr} {line : Int}
    (hc : D.code m.heap scope (.call callee args line)) :
    D.Keeps scope m (Eval.step recur scope (.call callee args line)) D.value := by
  simp only [Eval.step]
  refine (hrec scope m callee (D.code_operand hc List.mem_cons_self)).bind fun f m₁ h₁ hf => ?_
  refine (keeps_expectFunction _ f).bind fun place m₂ h₂ _ => ?_
  have hargs : ∀ e ∈ args, D.code m₂.heap scope e := by
    intro e he
    have hcode := D.code_operand hc (List.mem_cons_of_mem _ he)
    exact D.code_change h₂ (D.code_change h₁ hcode)
  refine (keeps_evalAll hrec hargs).bind fun vs m₃ h₃ hvs => ?_
  exact keeps_invoke hrec place (value_undefined _) hvs

theorem keeps_step_assign (hrec : D.Known recur) {name : String} {value : Expr} {declares : Bool}
    {line : Int} (hc : D.code m.heap scope (.assign name value declares line)) :
    D.Keeps scope m (Eval.step recur scope (.assign name value declares line)) D.value := by
  have hassign : ∀ m₁ : Machine, D.change scope m.heap m₁.heap →
      D.Keeps scope m₁ (do let v ← recur scope value; Eval.bind scope name v; return v)
        D.value := by
    intro m₁ h₁
    have hvalue := D.code_change h₁ (D.code_operand hc List.mem_cons_self)
    refine (hrec scope m₁ value hvalue).bind fun v m₂ h₂ hv => ?_
    have hc₂ := D.code_change h₂ (D.code_change h₁ hc)
    refine (keeps_bind hc₂ rfl hv).bind fun _ m₃ h₃ _ => ?_
    exact Keeps.pure (D.value_change h₃ hv)
  simp only [Eval.step]
  cases declares with
  | true => exact hassign m (D.change_refl scope m.heap)
  | false => exact (keeps_resolve hc rfl).bind fun _ m₁ h₁ _ => hassign m₁ h₁

theorem keeps_step_function {name : String} {params : List String} {binds : Bool} {body : Block}
    {line : Int} (hc : D.code m.heap scope (.function name params binds body line)) :
    D.Keeps scope m (Eval.step recur scope (.function name params binds body line)) D.value := by
  simp only [Eval.step]
  refine (Keeps.allocate (fun h place => D.value h (.ref place)) fun hi => D.make hi hc).bind
    fun place m₁ h₁ hv => ?_
  cases binds with
  | false => exact Keeps.pure hv
  | true =>
    refine (keeps_bind (D.code_change h₁ hc) rfl hv).bind fun _ m₂ h₂ _ => ?_
    exact Keeps.pure (D.value_change h₂ hv)

theorem keeps_step_choose (hrec : D.Known recur) {condition : Expr} {yes no : Block} {line : Int}
    (hc : D.code m.heap scope (.choose condition yes no line)) :
    D.Keeps scope m (Eval.step recur scope (.choose condition yes no line)) D.value := by
  simp only [Eval.step]
  refine (hrec scope m condition (D.code_operand hc List.mem_cons_self)).bind
    fun v m₁ h₁ hv => ?_
  obtain ⟨hyes, hno⟩ := D.runs_branches (D.code_change h₁ hc)
  cases v.truth? with
  | none => exact Keeps.pure (value_undefined _)
  | some taken =>
    cases taken with
    | true => exact (keeps_runBlock hrec hyes).bind fun _ _ _ _ => Keeps.pure (value_undefined _)
    | false => exact (keeps_runBlock hrec hno).bind fun _ _ _ _ => Keeps.pure (value_undefined _)

theorem keeps_step_object (hrec : D.Known recur) {fields : List (String × Expr)} {line : Int}
    (hc : D.code m.heap scope (.object fields line)) :
    D.Keeps scope m (Eval.step recur scope (.object fields line)) D.value := by
  simp only [Eval.step]
  have hempty : D.Collected m.heap [] := ⟨List.nodup_nil, List.forall_mem_nil _⟩
  refine (keeps_evalFields hrec (fun e => D.code_operand hc) hempty).bind
    fun slots m₁ h₁ hs => ?_
  refine (Keeps.allocate (fun h place => D.value h (.ref place)) fun hi =>
    D.collect hi hs.1 hs.2).bind fun place m₂ h₂ hv => ?_
  exact Keeps.pure hv

theorem keeps_step_field (hrec : D.Known recur) {receiver : Expr} {name : String} {line : Int}
    (hc : D.code m.heap scope (.field receiver name line)) :
    D.Keeps scope m (Eval.step recur scope (.field receiver name line)) D.value := by
  simp only [Eval.step]
  refine (hrec scope m receiver (D.code_operand hc List.mem_cons_self)).bind
    fun o m₁ h₁ ho => ?_
  refine (keeps_expectObject o).bind fun place m₂ h₂ _ => ?_
  exact Keeps.heap fun hi => Keeps.pure (value_member hi place name) hi

theorem keeps_step_setField (hrec : D.Known recur) {receiver value : Expr} {name : String}
    {line : Int} (hc : D.code m.heap scope (.setField receiver name value line)) :
    D.Keeps scope m (Eval.step recur scope (.setField receiver name value line)) D.value := by
  simp only [Eval.step]
  refine (hrec scope m receiver (D.code_operand hc List.mem_cons_self)).bind
    fun o m₁ h₁ ho => ?_
  refine (keeps_expectObject o).bind fun place m₂ h₂ hplace => ?_
  subst hplace
  have hc₂ := D.code_change h₂ (D.code_change h₁ hc)
  have hvalue := D.code_operand hc₂ (List.mem_cons_of_mem _ List.mem_cons_self)
  refine (hrec scope m₂ value hvalue).bind fun v m₃ h₃ hv => ?_
  have hplace := D.value_change h₃ (D.value_change h₂ ho)
  refine (Keeps.changeHeap (fun _ _ => True) fun hi => ?_).bind fun _ m₄ h₄ _ =>
    Keeps.pure (D.value_change h₄ hv)
  obtain ⟨hi', h'⟩ := D.setField hi (D.code_change h₃ hc₂) hplace hv
  exact ⟨hi', h', trivial⟩

theorem keeps_step_method (hrec : D.Known recur) {receiver : Expr} {name : String}
    {args : List Expr} {line : Int} (hc : D.code m.heap scope (.method receiver name args line)) :
    D.Keeps scope m (Eval.step recur scope (.method receiver name args line)) D.value := by
  simp only [Eval.step]
  refine (hrec scope m receiver (D.code_operand hc List.mem_cons_self)).bind
    fun o m₁ h₁ ho => ?_
  refine (keeps_expectObject o).bind fun place m₂ h₂ _ => ?_
  refine Keeps.heap ?_
  refine (keeps_expectFunction _ _).bind fun f m₃ h₃ _ => ?_
  have hargs : ∀ e ∈ args, D.code m₃.heap scope e := by
    intro e he
    have hcode := D.code_operand hc (List.mem_cons_of_mem _ he)
    exact D.code_change h₃ (D.code_change h₂ (D.code_change h₁ hcode))
  refine (keeps_evalAll hrec hargs).bind fun vs m₄ h₄ hvs => ?_
  have ho₄ := D.value_change h₄ (D.value_change h₃ (D.value_change h₂ ho))
  exact keeps_invoke hrec f ho₄ hvs

/-- A construct keeps a discipline if evaluation of its parts does. -/
theorem keeps_step (hrec : D.Known recur) {e : Expr} (hc : D.code m.heap scope e) :
    D.Keeps scope m (Eval.step recur scope e) D.value := by
  cases e with
  | block body => exact keeps_step_block hrec hc
  | literal value line =>
    refine Keeps.pure (D.value_plain fun place => ?_)
    cases value <;> exact Value.noConfusion
  | identifier name line => exact keeps_resolve hc rfl
  | call callee args line => exact keeps_step_call hrec hc
  | assign name value declares line => exact keeps_step_assign hrec hc
  | function name params binds body line => exact keeps_step_function hc
  | returns value line =>
    simp only [Eval.step]
    refine (hrec scope m value (D.code_operand hc List.mem_cons_self)).bind fun v m₁ h₁ hv => ?_
    exact Keeps.throw hv
  | choose condition yes no line => exact keeps_step_choose hrec hc
  | object fields line => exact keeps_step_object hrec hc
  | field receiver name line => exact keeps_step_field hrec hc
  | setField receiver name value line => exact keeps_step_setField hrec hc
  | method receiver name args line => exact keeps_step_method hrec hc

/-- **Evaluation keeps every discipline**, in every scope and at every depth. -/
theorem keeps_eval (D : Discipline) (depth : Nat) : D.Known (eval depth) := by
  induction depth with
  | zero => exact fun scope m e _ => Keeps.throw trivial
  | succ depth ih => exact fun scope m e hc => (keeps_step ih hc).locate e.line

/-! ### Scripts and entries -/

theorem keeps_lastValue (hrec : D.Known recur) {es : List Expr} {v : Value}
    (hc : ∀ e ∈ es, D.code m.heap scope e) (hv : D.value m.heap v) :
    D.Keeps scope m (lastValue (recur scope) v es) D.value := by
  induction es generalizing m v with
  | nil => exact Keeps.pure hv
  | cons e es ih =>
    obtain ⟨he, hes⟩ := List.forall_mem_cons.mp hc
    refine (hrec scope m e he).bind fun v' m₁ h₁ hv' => ?_
    exact ih (fun e he => D.code_change h₁ (hes e he)) hv'

/-- What running something may lead to. -/
def Results (D : Discipline) (scope : Loc) (m : Machine) (outcome : Outcome α) : Prop :=
  D.Leads scope m outcome.2 ∧ ∀ f, outcome.1 = .error (.failed f) → D.fault f.cause

theorem Leads.results_value {m' : Machine} (hl : D.Leads scope m m') (a : α) :
    D.Results scope m (.ok a, m') :=
  ⟨hl, fun _ hf => by cases hf⟩

theorem Leads.results_tooDeep {m' : Machine} (hl : D.Leads scope m m') :
    D.Results scope m ((.error .tooDeep, m') : Outcome α) :=
  ⟨hl, fun _ hf => by cases hf⟩

theorem Leads.results_failed {m' : Machine} {f : Fault} (hl : D.Leads scope m m')
    (hf : D.fault f.cause) : D.Results scope m ((.error (.failed f), m') : Outcome α) := by
  refine ⟨hl, ?_⟩
  rintro _ ⟨⟩
  exact hf

/-- Running a construct keeps every discipline. -/
theorem results_execute (D : Discipline) (depth : Nat) {e : Expr} (hi : D.inv m.heap)
    (hc : D.code m.heap scope e) : D.Results scope m (execute depth scope e m) := by
  have hends := D.keeps_eval depth scope m e hc hi
  unfold execute
  cases hr : eval depth scope e m with
  | ok v m' =>
    rw [hr] at hends
    exact hends.1.results_value v
  | error abrupt m' =>
    rw [hr] at hends
    cases abrupt with
    | returned v => exact hends.1.results_value v
    | failed f => exact hends.1.results_failed hends.2
    | tooDeep => exact hends.1.results_tooDeep

/-- Running the statements of an entry keeps every discipline that allows for each of them. -/
theorem results_runBody (D : Discipline) (depth : Nat) {body : Block} (hi : D.inv m.heap)
    (hc : D.code m.heap scope (.block body))
    (hstatements : ∀ h, D.runs h scope body → ∀ e ∈ body.statements, D.code h scope e) :
    D.Results scope m (runBody depth scope body m) := by
  have hkeeps : D.Keeps scope m (do
      Eval.declare scope body.declared
      lastValue (eval depth scope) .undefined body.statements) D.value := by
    refine (Keeps.changeHeap (fun h _ => D.runs h scope body) fun hi => D.declare hi hc).bind
      fun _ m₁ _ hb => ?_
    exact keeps_lastValue (D.keeps_eval depth) (hstatements m₁.heap hb) (value_undefined _)
  have hends := hkeeps hi
  unfold runBody
  dsimp only
  cases hr : (do
      Eval.declare scope body.declared
      lastValue (eval depth scope) .undefined body.statements : Eval Value) m with
  | ok v m' =>
    rw [hr] at hends
    exact hends.1.results_value _
  | error abrupt m' =>
    rw [hr] at hends
    cases abrupt with
    | returned v => exact hends.1.results_value _
    | failed f => exact hends.1.results_failed hends.2
    | tooDeep => exact hends.1.results_tooDeep

end Discipline

end Scriptlet
