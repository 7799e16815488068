import Scriptlet.Proofs.Evaluation.Growth

/-!
# Where a failure comes from

When a construct fails, then either one of its own checks fails, or the call that it makes, or else
something fails that it evaluates on the way. Both are spelled out here, construct by construct, for any
evaluation of parts: what a construct comes to evaluate, in which scope and on which machine, and what it
fails with by itself. Together this is all there is: a construct fails exactly when it fails by itself, or
comes to something that fails, and then the failure is the same one.

## What is proved

* `Row.evalAll_eq_error_iff`, `Starts.runStatements_eq_error_iff`: rows of operands and of statements fail
  where one of them does.
* `step_eq_failed_iff`: a construct fails by itself, or as something does that it comes to.
-/

namespace Scriptlet

open Eval

variable {α β : Type} {m m' : Machine}

/-- The machine as a function of the script is entered. -/
def Machine.enter (m : Machine) (params : List String) (scope : Loc) (receiver : Value)
    (args : List Value) : Machine :=
  { m with heap := m.heap.enter params scope receiver args }

/-- The machine as the statements of a block start. -/
def Machine.declared (m : Machine) (scope : Loc) (body : Block) : Machine :=
  { m with heap := m.heap.declare scope body }

/-! ### Computations -/

namespace Eval

variable {x : Eval α} {f : α → Eval β} {abrupt : Abrupt}

/-- A computation ends abruptly in its first step or in the others. -/
theorem bind_eq_error_iff :
    (x >>= f) m = .error abrupt m' ↔
      x m = .error abrupt m' ∨ ∃ a m₁, x m = .ok a m₁ ∧ f a m₁ = .error abrupt m' := by
  cases hx : x m with
  | ok a m₁ =>
    rw [bind_of_ok hx]
    constructor
    · exact fun h => .inr ⟨a, m₁, rfl, h⟩
    · rintro (⟨⟨⟩⟩ | ⟨_, _, ⟨⟩, h⟩)
      exact h
  | error abrupt' m₁ =>
    rw [bind_of_error hx]
    constructor
    · rintro ⟨⟩
      exact .inl rfl
    · rintro (⟨⟨⟩⟩ | ⟨_, _, ⟨⟩, _⟩)
      rfl

/-- Looking at the heap changes nothing. -/
theorem heap_bind {k : Heap → Eval β} : (heap >>= k) m = k m.heap m := rfl

theorem expectObject_bind {place : Loc} {k : Loc → Eval β} :
    (expectObject (.ref place) >>= k) m = k place m := rfl

/-- A value is computed from that of a computation. -/
theorem bind_pure_eq_error_iff {g : α → β} :
    (x >>= fun a => pure (g a)) m = .error abrupt m' ↔ x m = .error abrupt m' := by
  rw [bind_eq_error_iff]
  constructor
  · rintro (h | ⟨_, _, _, ⟨⟩⟩)
    exact h
  · exact .inl

theorem resolve_of_none {scope : Loc} {name : String} (h : m.heap.lookup? scope name = none) :
    resolve scope name m = .error (.failed ⟨.undefinedName name, none⟩) m := by
  rw [resolve, heap_bind, h]
  rfl

theorem expectObject_of_ne {v : Value} (h : ∀ place, v ≠ .ref place) :
    expectObject v m = .error (.failed ⟨.notObject (m.heap.describe v), none⟩) m := by
  cases v with
  | ref place => exact absurd rfl (h place)
  | undefined => rfl
  | int n => rfl
  | str s => rfl

theorem expectFunction_of_isFunction {subject : Heap → String} {place : Loc}
    (h : m.heap.isFunction (.ref place) = true) :
    expectFunction subject (.ref place) m = .ok place m := by
  show (if m.heap.isFunction (.ref place) then pure place else _ : Eval Loc) m = _
  rw [if_pos h]
  rfl

theorem expectFunction_of_not {subject : Heap → String} {v : Value}
    (h : m.heap.isFunction v = false) :
    expectFunction subject v m = .error (.failed ⟨.notFunction (subject m.heap), none⟩) m := by
  cases v with
  | ref place =>
    show (if m.heap.isFunction (.ref place) then _ else fail _ : Eval Loc) m = _
    rw [h]
    rfl
  | undefined => rfl
  | int n => rfl
  | str s => rfl

/-- A function value is at some place. -/
theorem exists_ref_of_isFunction {h : Heap} {v : Value} (hv : h.isFunction v = true) :
    ∃ place, v = .ref place := by
  cases v with
  | ref place => exact ⟨place, rfl⟩
  | undefined => cases hv
  | int n => cases hv
  | str s => cases hv

/-- A built-in function that fails changes nothing, and knows no line. -/
theorem call_eq_error {b : Builtin} {args : List Value} (h : b.call args m = .error abrupt m') :
    m' = m ∧ ∃ cause, abrupt = .failed ⟨cause, none⟩ := by
  unfold Builtin.call at h
  split at h
  · obtain ⟨heap, written, tracing, root⟩ := m
    cases tracing <;> cases h
  · next o a b =>
    rw [heap_bind] at h
    cases ho : o.apply m.heap a b with
    | ok v => rw [ho] at h; cases h
    | error cause =>
      rw [ho] at h
      cases h
      exact ⟨rfl, cause, rfl⟩
  · cases h
    exact ⟨rfl, _, rfl⟩

theorem functionBody_eq_failed_iff {x : Eval Unit} {f : Fault} :
    functionBody x m = .error (.failed f) m' ↔ x m = .error (.failed f) m' := by
  unfold functionBody
  cases hx : x m with
  | ok a m₁ => constructor <;> rintro ⟨⟩
  | error abrupt m₁ =>
    cases abrupt with
    | returned v => constructor <;> rintro ⟨⟩
    | failed fault => constructor <;> (rintro ⟨⟩; rfl)
    | tooDeep => constructor <;> rintro ⟨⟩

end Eval

/-! ### Rows -/

/-- Of a row that is evaluated from left to right, a construct comes to be evaluated. -/
inductive Row (run : Expr → Eval Value) : List Expr → Machine → Expr → Machine → Prop where
  /-- The first one. -/
  | here {e : Expr} {es : List Expr} {m : Machine} : Row run (e :: es) m e m
  /-- One after a first one that has a value. -/
  | later {first e : Expr} {es : List Expr} {m m₁ m' : Machine} {v : Value} :
    run first m = .ok v m₁ → Row run es m₁ e m' → Row run (first :: es) m e m'

/-- Of statements that run one after the other, also within blocks among them, one that is no block comes
to be evaluated. -/
inductive Starts (run : Expr → Eval Value) : List Expr → Machine → Expr → Machine → Prop where
  /-- The first one. -/
  | here {e : Expr} {es : List Expr} {m : Machine} :
    (∀ inner, e ≠ .block inner) → Starts run (e :: es) m e m
  /-- One in a block. -/
  | inside {inner : Block} {es : List Expr} {m : Machine} {e : Expr} {m' : Machine} :
    Starts run inner.statements m e m' → Starts run (.block inner :: es) m e m'
  /-- One after a first one that has run. -/
  | later {first e : Expr} {es : List Expr} {m m₁ m' : Machine} :
    runStatement run first m = .ok () m₁ → Starts run es m₁ e m' → Starts run (first :: es) m e m'

section Rows

variable {run : Expr → Eval Value} {abrupt : Abrupt} {e : Expr} {es : List Expr}

/-- What a row comes to: its first one, or what the others come to if that has a value. -/
theorem Row.cons_iff {Q : Expr → Machine → Prop} :
    (∃ e' m₁, Row run (e :: es) m e' m₁ ∧ Q e' m₁) ↔
      Q e m ∨ ∃ v m₁, run e m = .ok v m₁ ∧ ∃ e' m₂, Row run es m₁ e' m₂ ∧ Q e' m₂ := by
  constructor
  · rintro ⟨e', m₁, hrow, hq⟩
    cases hrow with
    | here => exact .inl hq
    | later hv hrow => exact .inr ⟨_, _, hv, _, _, hrow, hq⟩
  · rintro (hq | ⟨v, m₁, hv, e', m₂, hrow, hq⟩)
    · exact ⟨e, m, .here, hq⟩
    · exact ⟨e', m₂, .later hv hrow, hq⟩

theorem Row.not_nil {Q : Expr → Machine → Prop} : ¬∃ e' m₁, Row run [] m e' m₁ ∧ Q e' m₁ := by
  rintro ⟨_, _, ⟨⟩, _⟩

/-- Operands end abruptly where one of them does. -/
theorem evalAll_eq_error_iff :
    evalAll run es m = .error abrupt m' ↔
      ∃ e m₁, Row run es m e m₁ ∧ run e m₁ = .error abrupt m' := by
  induction es generalizing m with
  | nil => exact iff_of_false (fun h => by cases h) Row.not_nil
  | cons e es ih =>
    rw [evalAll, bind_eq_error_iff, Row.cons_iff]
    refine or_congr Iff.rfl (exists_congr fun v => exists_congr fun m₁ => and_congr_right fun _ => ?_)
    rw [bind_pure_eq_error_iff, ih]

/-- Fields end abruptly where one of their values does. -/
theorem evalFields_eq_error_iff {fields : List (String × Expr)} {slots : Slots} :
    evalFields run slots fields m = .error abrupt m' ↔
      ∃ e m₁, Row run (fields.map Prod.snd) m e m₁ ∧ run e m₁ = .error abrupt m' := by
  induction fields generalizing m slots with
  | nil => exact iff_of_false (fun h => by cases h) Row.not_nil
  | cons field fields ih =>
    rw [evalFields, bind_eq_error_iff, List.map_cons, Row.cons_iff]
    exact or_congr Iff.rfl
      (exists_congr fun v => exists_congr fun m₁ => and_congr_right fun _ => ih)

/-- The statements of an entry end abruptly where one of them does. -/
theorem lastValue_eq_error_iff {v : Value} :
    lastValue run v es m = .error abrupt m' ↔
      ∃ e m₁, Row run es m e m₁ ∧ run e m₁ = .error abrupt m' := by
  induction es generalizing m v with
  | nil => exact iff_of_false (fun h => by cases h) Row.not_nil
  | cons e es ih =>
    rw [lastValue, bind_eq_error_iff, Row.cons_iff]
    exact or_congr Iff.rfl
      (exists_congr fun v => exists_congr fun m₁ => and_congr_right fun _ => ih)

/-- What statements come to: what the first one comes to, or what the others do if that has run. -/
theorem Starts.cons_iff {Q : Expr → Machine → Prop} :
    (∃ e' m₁, Starts run (e :: es) m e' m₁ ∧ Q e' m₁) ↔
      (∃ e' m₁, Starts run [e] m e' m₁ ∧ Q e' m₁) ∨
        ∃ m₁, runStatement run e m = .ok () m₁ ∧ ∃ e' m₂, Starts run es m₁ e' m₂ ∧ Q e' m₂ := by
  constructor
  · rintro ⟨e', m₁, hstarts, hq⟩
    cases hstarts with
    | here hne => exact .inl ⟨_, _, .here hne, hq⟩
    | inside hinner => exact .inl ⟨_, _, .inside hinner, hq⟩
    | later hv hlater => exact .inr ⟨_, hv, _, _, hlater, hq⟩
  · rintro (⟨e', m₁, hstarts, hq⟩ | ⟨m₁, hv, e', m₂, hstarts, hq⟩)
    · cases hstarts with
      | here hne => exact ⟨_, _, .here hne, hq⟩
      | inside hinner => exact ⟨_, _, .inside hinner, hq⟩
      | later hv hlater => cases hlater
    · exact ⟨e', m₂, .later hv hstarts, hq⟩

theorem Starts.block_iff {inner : Block} {Q : Expr → Machine → Prop} :
    (∃ e' m₁, Starts run [.block inner] m e' m₁ ∧ Q e' m₁) ↔
      ∃ e' m₁, Starts run inner.statements m e' m₁ ∧ Q e' m₁ := by
  constructor
  · rintro ⟨e', m₁, hstarts, hq⟩
    cases hstarts with
    | here hne => exact absurd rfl (hne inner)
    | inside hinner => exact ⟨_, _, hinner, hq⟩
    | later _ hlater => cases hlater
  · rintro ⟨e', m₁, hstarts, hq⟩
    exact ⟨e', m₁, .inside hstarts, hq⟩

theorem Starts.single_iff (hne : ∀ inner, e ≠ .block inner) {Q : Expr → Machine → Prop} :
    (∃ e' m₁, Starts run [e] m e' m₁ ∧ Q e' m₁) ↔ Q e m := by
  constructor
  · rintro ⟨e', m₁, hstarts, hq⟩
    cases hstarts with
    | here _ => exact hq
    | inside _ => exact absurd rfl (hne _)
    | later _ hlater => cases hlater
  · exact fun hq => ⟨e, m, .here hne, hq⟩

mutual

/-- A block ends abruptly where one of its statements does. -/
theorem runBlock_eq_error_iff {m : Machine} (body : Block) :
    runBlock run body m = .error abrupt m' ↔
      ∃ e m₁, Starts run body.statements m e m₁ ∧ run e m₁ = .error abrupt m' := by
  obtain ⟨statements, line⟩ := body
  exact runStatements_eq_error_iff statements

theorem runStatements_eq_error_iff {m : Machine} (es : List Expr) :
    runStatements run es m = .error abrupt m' ↔
      ∃ e m₁, Starts run es m e m₁ ∧ run e m₁ = .error abrupt m' := by
  cases es with
  | nil => exact iff_of_false (fun h => by cases h) (by rintro ⟨_, _, ⟨⟩, _⟩)
  | cons e es =>
    rw [runStatements, bind_eq_error_iff, Starts.cons_iff, runStatement_eq_error_iff e]
    refine or_congr Iff.rfl ?_
    constructor
    · rintro ⟨_, m₁, hrun, hes⟩
      exact ⟨m₁, hrun, (runStatements_eq_error_iff es).mp hes⟩
    · rintro ⟨m₁, hrun, hes⟩
      exact ⟨(), m₁, hrun, (runStatements_eq_error_iff es).mpr hes⟩

theorem runStatement_eq_error_iff {m : Machine} (e : Expr) :
    runStatement run e m = .error abrupt m' ↔
      ∃ e' m₁, Starts run [e] m e' m₁ ∧ run e' m₁ = .error abrupt m' := by
  cases e with
  | block body =>
    rw [Starts.block_iff]
    exact runBlock_eq_error_iff body
  | _ =>
    rw [Starts.single_iff fun _ => Expr.noConfusion]
    exact bind_pure_eq_error_iff

end

end Rows

/-! ### Calls -/

section Calls

variable {recur : Recur} {place : Loc} {receiver : Value} {args : List Value} {name : String}

theorem invoke_builtin {b : Builtin} (hn : (m.heap.get place).nature = .function name (.builtin b)) :
    invoke recur place receiver args m = b.call args m := by
  rw [invoke, heap_bind, hn]

variable {params : List String} {body : Block} {captured : Loc}

theorem invoke_closure
    (hn : (m.heap.get place).nature = .function name (.closure params body captured))
    (hlength : args.length = params.length) :
    invoke recur place receiver args m =
      functionBody (do let _ ← recur m.heap.next (.block body))
        (m.enter params captured receiver args) := by
  rw [invoke, heap_bind, hn]
  dsimp only
  rw [if_neg (not_not.mpr hlength)]
  rfl

theorem invoke_wrongArity
    (hn : (m.heap.get place).nature = .function name (.closure params body captured))
    (hlength : args.length ≠ params.length) :
    invoke recur place receiver args m =
      .error (.failed ⟨.wrongArity name params.length args.length, none⟩) m := by
  rw [invoke, heap_bind, hn]
  dsimp only
  rw [if_pos hlength]
  rfl

theorem invoke_notInvocable (hn : ∀ name code, (m.heap.get place).nature ≠ .function name code) :
    invoke recur place receiver args m =
      .error (.failed ⟨.notInvocable (m.heap.render place), none⟩) m := by
  rw [invoke, heap_bind]
  cases hnature : (m.heap.get place).nature with
  | plain => rfl
  | scope parent => rfl
  | function name code => exact absurd hnature (hn name code)

end Calls

/-! ### Constructs -/

/-- The construct whose value a construct needs to be an object. -/
def Expr.receiver? : Expr → Option Expr
  | .field receiver _ _ | .setField receiver _ _ _ | .method receiver _ _ _ => some receiver
  | _ => none

theorem Expr.mem_operands_of_receiver? {e receiver : Expr} (h : e.receiver? = some receiver) :
    receiver ∈ e.operands := by
  cases e with
  | field _ _ _ => cases h; exact List.mem_cons_self
  | setField _ _ _ _ => cases h; exact List.mem_cons_self
  | method _ _ _ _ => cases h; exact List.mem_cons_self
  | _ => cases h

/-- What the field of an object holds: no value if it is not there. -/
def Heap.member (h : Heap) (place : Loc) (name : String) : Value :=
  (h.lookup? place name).getD .undefined

/-- A call gets as far as to call the function at a place, with a receiver and arguments. -/
inductive Invokes (recur : Recur) (scope : Loc) :
    Expr → Machine → Loc → Value → List Value → Machine → Prop where
  /-- The call of what has a function for a value. -/
  | call {callee : Expr} {args : List Expr} {line : Int} {m m₁ m' : Machine} {place : Loc}
      {vs : List Value} :
    recur scope callee m = .ok (.ref place) m₁ → m₁.heap.isFunction (.ref place) = true →
      evalAll (recur scope) args m₁ = .ok vs m' →
      Invokes recur scope (.call callee args line) m place .undefined vs m'
  /-- The call of a field of an object. -/
  | method {receiver : Expr} {name : String} {args : List Expr} {line : Int} {m m₁ m' : Machine}
      {object place : Loc} {vs : List Value} :
    recur scope receiver m = .ok (.ref object) m₁ → m₁.heap.member object name = .ref place →
      m₁.heap.isFunction (.ref place) = true → evalAll (recur scope) args m₁ = .ok vs m' →
      Invokes recur scope (.method receiver name args line) m place (.ref object) vs m'

/-- A construct fails by itself: one of its own checks fails, or the function that it calls does before any
construct of the script is evaluated for it. -/
inductive Raises (recur : Recur) (scope : Loc) : Expr → Machine → FaultCause → Machine → Prop where
  /-- A name that it needs has no value. -/
  | unbound {e : Expr} {m : Machine} {name : String} :
    e.resolves? = some name → m.heap.lookup? scope name = none →
      Raises recur scope e m (.undefinedName name) m
  /-- What it calls is not a function. -/
  | notFunction {callee : Expr} {args : List Expr} {line : Int} {m m' : Machine} {v : Value} :
    recur scope callee m = .ok v m' → m'.heap.isFunction v = false →
      Raises recur scope (.call callee args line) m (.notFunction (m'.heap.describe v)) m'
  /-- What should have fields is not an object. -/
  | notObject {e receiver : Expr} {m m' : Machine} {v : Value} :
    e.receiver? = some receiver → recur scope receiver m = .ok v m' → (∀ place, v ≠ .ref place) →
      Raises recur scope e m (.notObject (m'.heap.describe v)) m'
  /-- The field that it calls is not a function. -/
  | notMethod {receiver : Expr} {name : String} {args : List Expr} {line : Int} {m m' : Machine}
      {object : Loc} :
    recur scope receiver m = .ok (.ref object) m' →
      m'.heap.isFunction (m'.heap.member object name) = false →
      Raises recur scope (.method receiver name args line) m
        (.notFunction (name ++ " (" ++ m'.heap.describe (m'.heap.member object name) ++ ")")) m'
  /-- The function that it calls takes another number of arguments. -/
  | arity {e : Expr} {m m' : Machine} {place captured : Loc} {receiver : Value} {vs : List Value}
      {name : String} {params : List String} {body : Block} :
    Invokes recur scope e m place receiver vs m' →
      (m'.heap.get place).nature = .function name (.closure params body captured) →
      vs.length ≠ params.length →
      Raises recur scope e m (.wrongArity name params.length vs.length) m'
  /-- The built-in function that it calls fails. -/
  | builtin {e : Expr} {m m' : Machine} {place : Loc} {receiver : Value} {vs : List Value}
      {name : String} {b : Builtin} {cause : FaultCause} :
    Invokes recur scope e m place receiver vs m' →
      (m'.heap.get place).nature = .function name (.builtin b) →
      b.call vs m' = .error (.failed ⟨cause, none⟩) m' → Raises recur scope e m cause m'
  /-- What it calls is no function any more. -/
  | notInvocable {e : Expr} {m m' : Machine} {place : Loc} {receiver : Value} {vs : List Value} :
    Invokes recur scope e m place receiver vs m' →
      (∀ name code, (m'.heap.get place).nature ≠ .function name code) →
      Raises recur scope e m (.notInvocable (m'.heap.render place)) m'

/-- In the course of a construct, another construct comes to be evaluated, in a scope and on a machine. -/
inductive Reaches (recur : Recur) (scope : Loc) : Expr → Machine → Loc → Expr → Machine → Prop where
  /-- A statement of a block. -/
  | statement {body : Block} {m : Machine} {e : Expr} {m' : Machine} :
    Starts (recur scope) body.statements (m.declared scope body) e m' →
      Reaches recur scope (.block body) m scope e m'
  /-- What is called. -/
  | callee {callee : Expr} {args : List Expr} {line : Int} {m : Machine} :
    Reaches recur scope (.call callee args line) m scope callee m
  /-- An argument of a call. -/
  | argument {callee : Expr} {args : List Expr} {line : Int} {m m₁ : Machine} {v : Value} {e : Expr}
      {m' : Machine} :
    recur scope callee m = .ok v m₁ → m₁.heap.isFunction v = true →
      Row (recur scope) args m₁ e m' → Reaches recur scope (.call callee args line) m scope e m'
  /-- The value of an assignment. -/
  | assigned {name : String} {value : Expr} {declares : Bool} {line : Int} {m : Machine} :
    (declares = true ∨ (m.heap.lookup? scope name).isSome = true) →
      Reaches recur scope (.assign name value declares line) m scope value m
  /-- The value that is returned. -/
  | returned {value : Expr} {line : Int} {m : Machine} :
    Reaches recur scope (.returns value line) m scope value m
  /-- A condition. -/
  | condition {condition : Expr} {yes no : Block} {line : Int} {m : Machine} :
    Reaches recur scope (.choose condition yes no line) m scope condition m
  /-- A statement of the branch that is taken. -/
  | branch {condition : Expr} {yes no : Block} {line : Int} {m m₁ : Machine} {v : Value}
      {taken : Bool} {e : Expr} {m' : Machine} :
    recur scope condition m = .ok v m₁ → v.truth? = some taken →
      Starts (recur scope) (if taken then yes else no).statements m₁ e m' →
      Reaches recur scope (.choose condition yes no line) m scope e m'
  /-- The value of a field of an object that is made. -/
  | fieldValue {fields : List (String × Expr)} {line : Int} {m : Machine} {e : Expr} {m' : Machine} :
    Row (recur scope) (fields.map Prod.snd) m e m' →
      Reaches recur scope (.object fields line) m scope e m'
  /-- What should have fields. -/
  | receiver {e receiver : Expr} {m : Machine} :
    e.receiver? = some receiver → Reaches recur scope e m scope receiver m
  /-- The value that a field is set to. -/
  | setFieldValue {receiver value : Expr} {name : String} {line : Int} {m m' : Machine}
      {object : Loc} :
    recur scope receiver m = .ok (.ref object) m' →
      Reaches recur scope (.setField receiver name value line) m scope value m'
  /-- An argument of the call of a field. -/
  | methodArgument {receiver : Expr} {name : String} {args : List Expr} {line : Int}
      {m m₁ : Machine} {object : Loc} {e : Expr} {m' : Machine} :
    recur scope receiver m = .ok (.ref object) m₁ →
      m₁.heap.isFunction (m₁.heap.member object name) = true →
      Row (recur scope) args m₁ e m' →
      Reaches recur scope (.method receiver name args line) m scope e m'
  /-- The body of the function that is called, in a new scope. -/
  | body {e : Expr} {m m' : Machine} {place captured : Loc} {receiver : Value} {vs : List Value}
      {name : String} {params : List String} {body : Block} :
    Invokes recur scope e m place receiver vs m' →
      (m'.heap.get place).nature = .function name (.closure params body captured) →
      vs.length = params.length →
      Reaches recur scope e m m'.heap.next (.block body) (m'.enter params captured receiver vs)

/-- A construct fails by itself, or as something does that it comes to. -/
def Fails (recur : Recur) (scope : Loc) (e : Expr) (m : Machine) (f : Fault) (m' : Machine) : Prop :=
  (∃ cause, Raises recur scope e m cause m' ∧ f = ⟨cause, none⟩) ∨
    ∃ scope' e' m₁, Reaches recur scope e m scope' e' m₁ ∧
      recur scope' e' m₁ = .error (.failed f) m'

section Step

variable {recur : Recur} {scope : Loc} {e : Expr} {f : Fault}

theorem Fails.raised {cause : FaultCause} (h : Raises recur scope e m cause m') :
    Fails recur scope e m ⟨cause, none⟩ m' :=
  .inl ⟨cause, h, rfl⟩

theorem Fails.reached {scope' : Loc} {e' : Expr} {m₁ : Machine}
    (h : Reaches recur scope e m scope' e' m₁) (hf : recur scope' e' m₁ = .error (.failed f) m') :
    Fails recur scope e m f m' :=
  .inr ⟨scope', e', m₁, h, hf⟩

/-- The call of a field, by what the field holds. -/
theorem step_method (receiver : Expr) (name : String) (args : List Expr) (line : Int) :
    step recur scope (.method receiver name args line) = (do
      let o ← recur scope receiver
      let object ← expectObject o
      let h ← heap
      let f ← expectFunction (fun h' => name ++ " (" ++ h'.describe (h.member object name) ++ ")")
        (h.member object name)
      let vs ← evalAll (recur scope) args
      invoke recur f o vs) := by
  rw [step]
  rfl

/-! #### What fails, fails for one of these reasons -/

theorem Fails.of_resolve {name : String} {α : Type} {k : Value → Eval α}
    (hname : e.resolves? = some name)
    (h : (resolve scope name >>= k) m = .error (.failed f) m')
    (hk : ∀ v, m.heap.lookup? scope name = some v → k v m = .error (.failed f) m' →
      Fails recur scope e m f m') : Fails recur scope e m f m' := by
  cases hl : m.heap.lookup? scope name with
  | none =>
    rw [bind_of_error (resolve_of_none hl)] at h
    cases h
    exact .raised (.unbound hname hl)
  | some v =>
    rw [bind_of_ok (resolve_of_lookup? hl)] at h
    exact hk v hl h

theorem Fails.of_receiver {receiver : Expr} {k : Value → Loc → Eval Value}
    (hreceiver : e.receiver? = some receiver)
    (h : (do let o ← recur scope receiver; let place ← expectObject o; k o place) m =
      .error (.failed f) m')
    (hk : ∀ place m₁, recur scope receiver m = .ok (.ref place) m₁ →
      k (.ref place) place m₁ = .error (.failed f) m' → Fails recur scope e m f m') :
    Fails recur scope e m f m' := by
  rcases bind_eq_error_iff.mp h with h | ⟨v, m₁, hv, h⟩
  · exact .reached (.receiver hreceiver) h
  · cases v with
    | ref place => exact hk place m₁ hv h
    | undefined => cases h; exact .raised (.notObject hreceiver hv fun _ => Value.noConfusion)
    | int n => cases h; exact .raised (.notObject hreceiver hv fun _ => Value.noConfusion)
    | str s => cases h; exact .raised (.notObject hreceiver hv fun _ => Value.noConfusion)

/-- A call fails as the function does that it calls. -/
theorem Fails.of_invoke {place : Loc} {receiver : Value} {vs : List Value} {m₁ : Machine}
    (hi : Invokes recur scope e m place receiver vs m₁)
    (h : invoke recur place receiver vs m₁ = .error (.failed f) m') : Fails recur scope e m f m' := by
  cases hn : (m₁.heap.get place).nature with
  | plain =>
    have hno : ∀ name code, (m₁.heap.get place).nature ≠ .function name code := by
      intro _ _ heq
      rw [hn] at heq
      cases heq
    rw [invoke_notInvocable hno] at h
    cases h
    exact .raised (.notInvocable hi hno)
  | scope parent =>
    have hno : ∀ name code, (m₁.heap.get place).nature ≠ .function name code := by
      intro _ _ heq
      rw [hn] at heq
      cases heq
    rw [invoke_notInvocable hno] at h
    cases h
    exact .raised (.notInvocable hi hno)
  | function name code =>
    cases code with
    | builtin b =>
      rw [invoke_builtin hn] at h
      obtain ⟨rfl, cause, hcause⟩ := call_eq_error h
      cases hcause
      exact .raised (.builtin hi hn h)
    | closure params body captured =>
      by_cases hlength : vs.length = params.length
      · rw [invoke_closure hn hlength, functionBody_eq_failed_iff] at h
        exact .reached (.body hi hn hlength) (bind_pure_eq_error_iff.mp h)
      · rw [invoke_wrongArity hn hlength] at h
        cases h
        exact .raised (.arity hi hn hlength)

theorem Fails.of_call {callee : Expr} {args : List Expr} {line : Int}
    (h : step recur scope (.call callee args line) m = .error (.failed f) m') :
    Fails recur scope (.call callee args line) m f m' := by
  simp only [step] at h
  rcases bind_eq_error_iff.mp h with h | ⟨v, m₁, hv, h⟩
  · exact .reached .callee h
  · cases hfunction : m₁.heap.isFunction v with
    | false =>
      rw [bind_of_error (expectFunction_of_not hfunction)] at h
      cases h
      exact .raised (.notFunction hv hfunction)
    | true =>
      obtain ⟨place, rfl⟩ := exists_ref_of_isFunction hfunction
      rw [bind_of_ok (expectFunction_of_isFunction hfunction)] at h
      rcases bind_eq_error_iff.mp h with h | ⟨vs, m₂, hvs, h⟩
      · obtain ⟨e, m₂, hrow, h⟩ := evalAll_eq_error_iff.mp h
        exact .reached (.argument hv hfunction hrow) h
      · exact .of_invoke (.call hv hfunction hvs) h

theorem Fails.of_method {receiver : Expr} {name : String} {args : List Expr} {line : Int}
    (h : step recur scope (.method receiver name args line) m = .error (.failed f) m') :
    Fails recur scope (.method receiver name args line) m f m' := by
  rw [step_method] at h
  refine .of_receiver rfl h fun object m₁ ho h => ?_
  rw [heap_bind] at h
  cases hfunction : m₁.heap.isFunction (m₁.heap.member object name) with
  | false =>
    rw [bind_of_error (expectFunction_of_not hfunction)] at h
    cases h
    exact .raised (.notMethod ho hfunction)
  | true =>
    obtain ⟨place, hplace⟩ := exists_ref_of_isFunction hfunction
    have hcallable : m₁.heap.isFunction (.ref place) = true := hplace ▸ hfunction
    rw [hplace, bind_of_ok (expectFunction_of_isFunction hcallable)] at h
    rcases bind_eq_error_iff.mp h with h | ⟨vs, m₂, hvs, h⟩
    · obtain ⟨e, m₂, hrow, h⟩ := evalAll_eq_error_iff.mp h
      exact .reached (.methodArgument ho hfunction hrow) h
    · exact .of_invoke (.method ho hplace hcallable hvs) h

theorem Fails.of_assign {name : String} {value : Expr} {declares : Bool} {line : Int}
    (h : step recur scope (.assign name value declares line) m = .error (.failed f) m') :
    Fails recur scope (.assign name value declares line) m f m' := by
  simp only [step] at h
  have hassign : (declares = true ∨ (m.heap.lookup? scope name).isSome = true) →
      (do let v ← recur scope value; bind scope name v; return v : Eval Value) m =
        .error (.failed f) m' → Fails recur scope (.assign name value declares line) m f m' := by
    intro hallowed h
    rcases bind_eq_error_iff.mp h with h | ⟨v, m₁, hv, h⟩
    · exact .reached (.assigned hallowed) h
    · cases h
  cases declares with
  | true => exact hassign (.inl rfl) h
  | false =>
    refine Fails.of_resolve rfl h fun v hl h => hassign (.inr ?_) h
    rw [hl]
    rfl

theorem Fails.of_choose {condition : Expr} {yes no : Block} {line : Int}
    (h : step recur scope (.choose condition yes no line) m = .error (.failed f) m') :
    Fails recur scope (.choose condition yes no line) m f m' := by
  simp only [step] at h
  rcases bind_eq_error_iff.mp h with h | ⟨v, m₁, hv, h⟩
  · exact .reached .condition h
  · cases ht : v.truth? with
    | none => rw [ht] at h; cases h
    | some taken =>
      rw [ht] at h
      have hrun : runBlock (recur scope) (if taken then yes else no) m₁ = .error (.failed f) m' := by
        cases taken <;> exact bind_pure_eq_error_iff.mp h
      obtain ⟨e, m₂, hstarts, h⟩ := (runBlock_eq_error_iff _).mp hrun
      exact .reached (.branch hv ht hstarts) h

theorem Fails.of_step (h : step recur scope e m = .error (.failed f) m') :
    Fails recur scope e m f m' := by
  cases e with
  | block body =>
    simp only [step] at h
    have hrun : runBlock (recur scope) body (m.declared scope body) = .error (.failed f) m' :=
      bind_pure_eq_error_iff.mp h
    obtain ⟨e, m₁, hstarts, h⟩ := (runBlock_eq_error_iff body).mp hrun
    exact .reached (.statement hstarts) h
  | literal value line => cases h
  | call callee args line => exact .of_call h
  | identifier name line =>
    have hresolve : (resolve scope name >>= pure) m = .error (.failed f) m' := by
      rw [bind_pure]
      exact h
    exact .of_resolve rfl hresolve fun v hl h => by cases h
  | assign name value declares line => exact .of_assign h
  | function name params binds body line => cases binds <;> cases h
  | returns value line =>
    simp only [step] at h
    rcases bind_eq_error_iff.mp h with h | ⟨v, m₁, hv, h⟩
    · exact .reached .returned h
    · cases h
  | choose condition yes no line => exact .of_choose h
  | object fields line =>
    simp only [step] at h
    rcases bind_eq_error_iff.mp h with h | ⟨slots, m₁, hslots, h⟩
    · obtain ⟨e, m₂, hrow, h⟩ := evalFields_eq_error_iff.mp h
      exact .reached (.fieldValue hrow) h
    · cases h
  | field receiver name line =>
    simp only [step] at h
    exact .of_receiver rfl h fun place m₁ ho h => by cases h
  | setField receiver name value line =>
    simp only [step] at h
    refine .of_receiver rfl h fun place m₁ ho h => ?_
    rcases bind_eq_error_iff.mp h with h | ⟨v, m₂, hv, h⟩
    · exact .reached (.setFieldValue ho) h
    · cases h
  | method receiver name args line => exact .of_method h

/-! #### For each of these reasons it fails -/

/-- A call does what its function does, once it gets as far. -/
theorem Invokes.step_eq {place : Loc} {receiver : Value} {vs : List Value}
    (h : Invokes recur scope e m place receiver vs m') :
    step recur scope e m = invoke recur place receiver vs m' := by
  cases h with
  | call hcallee hfunction hargs =>
    rw [step, bind_of_ok hcallee, bind_of_ok (expectFunction_of_isFunction hfunction),
      bind_of_ok hargs]
  | method hreceiver hmember hfunction hargs =>
    rw [step_method, bind_of_ok hreceiver, expectObject_bind, heap_bind, hmember,
      bind_of_ok (expectFunction_of_isFunction hfunction), bind_of_ok hargs]

/-- What needs an object fails as looking for one does. -/
theorem step_eq_failed_of_receiver {receiver : Expr} (hreceiver : e.receiver? = some receiver)
    (h : (recur scope receiver >>= expectObject) m = .error (.failed f) m') :
    step recur scope e m = .error (.failed f) m' := by
  have hfirst : ∀ k : Value → Loc → Eval Value,
      (do let o ← recur scope receiver; let place ← expectObject o; k o place) m =
        .error (.failed f) m' := by
    intro k
    refine bind_eq_error_iff.mpr ?_
    rcases bind_eq_error_iff.mp h with h | ⟨v, m₁, hv, h⟩
    · exact .inl h
    · exact .inr ⟨v, m₁, hv, bind_of_error h⟩
  cases e with
  | field _ name line => cases hreceiver; rw [step]; exact hfirst _
  | setField _ name value line => cases hreceiver; rw [step]; exact hfirst _
  | method _ name args line => cases hreceiver; rw [step]; exact hfirst _
  | _ => cases hreceiver

theorem Raises.step_eq {cause : FaultCause} (h : Raises recur scope e m cause m') :
    step recur scope e m = .error (.failed ⟨cause, none⟩) m' := by
  cases h with
  | @unbound _ _ name hname hl =>
    cases e with
    | identifier _ line => cases hname; rw [step, resolve_of_none hl]
    | assign _ value declares line =>
      cases declares with
      | true => cases hname
      | false =>
        cases hname
        rw [step]
        exact bind_of_error (resolve_of_none hl)
    | _ => cases hname
  | notFunction hcallee hfunction =>
    rw [step, bind_of_ok hcallee, bind_of_error (expectFunction_of_not hfunction)]
  | notObject hreceiver hv hne =>
    exact step_eq_failed_of_receiver hreceiver ((bind_of_ok hv).trans (expectObject_of_ne hne))
  | notMethod hreceiver hfunction =>
    rw [step_method, bind_of_ok hreceiver, expectObject_bind, heap_bind,
      bind_of_error (expectFunction_of_not hfunction)]
  | arity hi hn hlength => rw [hi.step_eq, invoke_wrongArity hn hlength]
  | builtin hi hn hb => rw [hi.step_eq, invoke_builtin hn, hb]
  | notInvocable hi hn => rw [hi.step_eq, invoke_notInvocable hn]

theorem Reaches.step_eq {scope' : Loc} {e' : Expr} {m₁ : Machine}
    (h : Reaches recur scope e m scope' e' m₁)
    (hf : recur scope' e' m₁ = .error (.failed f) m') :
    step recur scope e m = .error (.failed f) m' := by
  cases h with
  | @statement body _ _ _ hstarts =>
    have hrun := (runBlock_eq_error_iff body).mpr ⟨e', m₁, hstarts, hf⟩
    rw [step]
    exact bind_of_error (m := m.declared scope body) hrun
  | callee => rw [step, bind_of_error hf]
  | argument hcallee hfunction hrow =>
    obtain ⟨place, rfl⟩ := exists_ref_of_isFunction hfunction
    rw [step, bind_of_ok hcallee, bind_of_ok (expectFunction_of_isFunction hfunction),
      bind_of_error (evalAll_eq_error_iff.mpr ⟨e', m₁, hrow, hf⟩)]
  | @assigned name value declares line _ hallowed =>
    rw [step]
    cases declares with
    | true => exact bind_of_error hf
    | false =>
      obtain ⟨v, hv⟩ := Option.isSome_iff_exists.mp (hallowed.resolve_left Bool.false_ne_true)
      exact (bind_of_ok (resolve_of_lookup? hv)).trans (bind_of_error hf)
  | returned => rw [step, bind_of_error hf]
  | condition => rw [step, bind_of_error hf]
  | @branch condition yes no line _ _ v taken _ _ hv ht hstarts =>
    have hrun := (runBlock_eq_error_iff (if taken then yes else no)).mpr ⟨e', m₁, hstarts, hf⟩
    rw [step, bind_of_ok hv, ht]
    cases taken <;> exact bind_of_error hrun
  | fieldValue hrow =>
    rw [step, bind_of_error (evalFields_eq_error_iff.mpr ⟨e', m₁, hrow, hf⟩)]
  | receiver hreceiver => exact step_eq_failed_of_receiver hreceiver (bind_of_error hf)
  | setFieldValue hreceiver =>
    rw [step, bind_of_ok hreceiver, expectObject_bind, bind_of_error hf]
  | methodArgument hreceiver hfunction hrow =>
    obtain ⟨place, hplace⟩ := exists_ref_of_isFunction hfunction
    rw [step_method, bind_of_ok hreceiver, expectObject_bind, heap_bind, hplace,
      bind_of_ok (expectFunction_of_isFunction (hplace ▸ hfunction)),
      bind_of_error (evalAll_eq_error_iff.mpr ⟨e', m₁, hrow, hf⟩)]
  | body hi hn hlength =>
    rw [hi.step_eq, invoke_closure hn hlength, functionBody_eq_failed_iff]
    exact bind_of_error hf

/-- **A construct fails by itself, or as something does that it comes to.** -/
theorem step_eq_failed_iff :
    step recur scope e m = .error (.failed f) m' ↔ Fails recur scope e m f m' := by
  refine ⟨Fails.of_step, ?_⟩
  rintro (⟨cause, hraises, rfl⟩ | ⟨scope', e', m₁, hreaches, hf⟩)
  · exact hraises.step_eq
  · exact hreaches.step_eq hf

end Step

end Scriptlet
