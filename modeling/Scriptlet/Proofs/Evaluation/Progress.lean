import Scriptlet.Proofs.Evaluation.Failing

/-!
# Part by part

A construct evaluates its parts one after the other, from left to right. In between it checks the values that
it has got so far: whether they are objects or functions, and whether a name has a value. What it does with
the values comes last. So at any time a construct stands somewhere in the row of its parts, with the values
of those before and the machine that they have left.

A block that stands in another one, or is a branch of a choice, runs in place, without binding its names
once more.

## What is proved

* `GoesOn`: a computation that goes through the parts of a construct in this way.
* `exists_goesOn`, `goesOn_runBlock`: constructs do, and blocks that run in place.
* `Progress.eq_of_refusal`, `Progress.eq_of_part`: how a construct ends where a check or a part of it does.
* `Progress.unique`: there is one way to go through the parts.
* `Progress.congr`: it depends on nothing but the parts that come up.
-/

namespace Scriptlet

open Eval

/-! ### Parts and checks -/

/-- A part of a construct, by what it is evaluated for. -/
inductive Part where
  /-- An operand, for its value. -/
  | operand (e : Expr)
  /-- A statement of a block, for its effects. -/
  | statement (e : Expr)
  /-- A branch of a choice, for its effects. -/
  | branch (body : Block)

/-- Evaluates a part. What is run for its effects has no value. -/
def Part.run (recur : Recur) (scope : Loc) : Part → Eval Value
  | operand e => recur scope e
  | statement e => do
    runStatement (recur scope) e
    return .undefined
  | branch body => do
    runBlock (recur scope) body
    return .undefined

namespace Heap

/-- Why a name cannot be used. -/
def unbound? (h : Heap) (scope : Loc) (name : String) : Option FaultCause :=
  if (h.lookup? scope name).isSome then none else some (.undefinedName name)

/-- Why a value cannot be called. -/
def notFunction? (h : Heap) (v : Value) : Option FaultCause :=
  if h.isFunction v then none else some (.notFunction (h.describe v))

/-- Why a value cannot have fields. -/
def notObject? (h : Heap) : Value → Option FaultCause
  | .ref _ => none
  | v => some (.notObject (h.describe v))

/-- Why a field of a value cannot be called. -/
def notMethod? (h : Heap) (name : String) : Value → Option FaultCause
  | .ref place =>
    if h.isFunction (h.member place name) then none
    else some (.notFunction (name ++ " (" ++ h.describe (h.member place name) ++ ")"))
  | v => some (.notObject (h.describe v))

variable {h : Heap} {scope : Loc} {name : String} {v : Value} {cause : FaultCause}

theorem unbound?_eq_none : h.unbound? scope name = none ↔ ∃ v, h.lookup? scope name = some v := by
  simp [unbound?, Option.isSome_iff_exists]

theorem unbound?_eq_some :
    h.unbound? scope name = some cause ↔
      h.lookup? scope name = none ∧ .undefinedName name = cause := by
  simp [unbound?]

theorem notFunction?_eq_none : h.notFunction? v = none ↔ h.isFunction v = true := by
  simp [notFunction?]

theorem notFunction?_eq_some :
    h.notFunction? v = some cause ↔ h.isFunction v = false ∧ .notFunction (h.describe v) = cause := by
  simp [notFunction?]

theorem notObject?_eq_none : h.notObject? v = none ↔ ∃ place, v = .ref place := by
  cases v <;> simp [notObject?]

theorem notObject?_eq_some :
    h.notObject? v = some cause ↔
      (∀ place, v ≠ .ref place) ∧ .notObject (h.describe v) = cause := by
  cases v <;> simp [notObject?]

theorem notMethod?_eq_none :
    h.notMethod? name v = none ↔
      ∃ object, v = .ref object ∧ h.isFunction (h.member object name) = true := by
  cases v <;> simp [notMethod?]

theorem notMethod?_eq_some :
    h.notMethod? name v = some cause ↔
      ((∀ place, v ≠ .ref place) ∧ .notObject (h.describe v) = cause) ∨
        ∃ object, v = .ref object ∧ h.isFunction (h.member object name) = false ∧
          .notFunction (name ++ " (" ++ h.describe (h.member object name) ++ ")") = cause := by
  cases v <;> simp [notMethod?]

end Heap

namespace Expr

/-- The part that comes after parts with the given values. -/
def part? : Expr → List Value → Option Part
  | block body, vs => body.statements[vs.length]?.map .statement
  | choose condition _ _ _, [] => some (.operand condition)
  | choose _ yes no _, [v] => v.truth?.map fun taken => .branch (if taken then yes else no)
  | choose _ _ _ _, _ :: _ :: _ => none
  | e, vs => e.operands[vs.length]?.map .operand

/-- Why a construct does not go on once its first parts have the given values. -/
def refusal? (h : Heap) (scope : Loc) : Expr → List Value → Option FaultCause
  | identifier name _, [] | assign name _ false _, [] => h.unbound? scope name
  | call _ _ _, [f] => h.notFunction? f
  | field _ _ _, [o] | setField _ _ _ _, [o] => h.notObject? o
  | method _ name _ _, [o] => h.notMethod? name o
  | _, _ => none

/-- After parts with the given values, a construct goes on with a part. -/
structure Awaits (e : Expr) (h : Heap) (scope : Loc) (vs : List Value) (part : Part) : Prop where
  /-- No check stops it. -/
  unrefused : e.refusal? h scope vs = none
  /-- The part comes next. -/
  next : e.part? vs = some part

/-- After parts with the given values, these parts are left, with no check in between. -/
structure Leaves (e : Expr) (scope : Loc) (vs : List Value) (parts : List Part) : Prop where
  /-- They come one after the other. -/
  next : ∀ ws, e.part? (vs ++ ws) = parts[ws.length]?
  /-- No check stops the construct after the first one. -/
  free : ∀ h w ws, e.refusal? h scope (vs ++ w :: ws) = none

namespace Leaves

variable {e : Expr} {scope : Loc} {vs : List Value} {part : Part} {parts : List Part} {h : Heap}

theorem eq_none (hleft : e.Leaves scope vs []) : e.part? vs = none := by
  simpa using hleft.next []

theorem eq_some (hleft : e.Leaves scope vs (part :: parts)) : e.part? vs = some part := by
  simpa using hleft.next []

theorem tail (hleft : e.Leaves scope vs (part :: parts)) (v : Value) :
    e.Leaves scope (vs ++ [v]) parts where
  next ws := by simpa using hleft.next (v :: ws)
  free h w ws := by simpa using hleft.free h v (w :: ws)

theorem free_tail (hleft : e.Leaves scope vs parts) (v : Value) :
    e.refusal? h scope (vs ++ [v]) = none :=
  hleft.free h v []

/-- The arguments of a call. -/
theorem call (callee : Expr) (args : List Expr) (line : Int) (scope : Loc) (f : Value) :
    (Expr.call callee args line).Leaves scope [f] (args.map .operand) where
  next ws := by
    rw [List.getElem?_map]
    rfl
  free _ _ _ := rfl

/-- The arguments of the call of a field. -/
theorem method (receiver : Expr) (name : String) (args : List Expr) (line : Int) (scope : Loc)
    (o : Value) : (Expr.method receiver name args line).Leaves scope [o] (args.map .operand) where
  next ws := by
    rw [List.getElem?_map]
    rfl
  free _ _ _ := rfl

end Leaves

end Expr

/-- After parts with the given values, a computation fails where a check of a construct does. -/
def Expr.Checked (e : Expr) (scope : Loc) (vs : List Value) (x : Eval Value) : Prop :=
  ∀ (m : Machine) (cause : FaultCause), e.refusal? m.heap scope vs = some cause →
    x m = .error (.failed ⟨cause, none⟩) m

theorem Expr.Checked.of_free {e : Expr} {scope : Loc} {vs : List Value} {x : Eval Value}
    (hfree : ∀ h, e.refusal? h scope vs = none) : e.Checked scope vs x := by
  intro m cause hcause
  rw [hfree] at hcause
  cases hcause

/-- The machine on which the parts of a construct start: the names that a block declares are bound. -/
def Machine.prepared (m : Machine) (scope : Loc) : Expr → Machine
  | .block body => m.declared scope body
  | _ => m

/-! ### Going through the parts -/

/-- What a computation does after the first parts of a construct have had their values: it fails if a check
does, and else evaluates the next part, if there is one, and goes on. -/
inductive GoesOn (recur : Recur) (scope : Loc) (e : Expr) : List Value → Eval Value → Prop where
  /-- The three things to be shown. -/
  | intro {vs : List Value} {x : Eval Value} (next : Machine → Part → Value → Eval Value) :
    e.Checked scope vs x →
    (∀ m part, e.Awaits m.heap scope vs part → x m = (part.run recur scope >>= next m part) m) →
    (∀ m part, e.Awaits m.heap scope vs part → ∀ v,
      GoesOn recur scope e (vs ++ [v]) (next m part v)) →
    GoesOn recur scope e vs x

namespace GoesOn

variable {recur : Recur} {scope : Loc} {e : Expr} {vs : List Value} {x : Eval Value}

/-- After the last part there is only its check. -/
theorem last (hnext : e.part? vs = none) (hchecked : e.Checked scope vs x) :
    GoesOn recur scope e vs x := by
  have hnone : ∀ (m : Machine) (part : Part), ¬ e.Awaits m.heap scope vs part := by
    intro m part ha
    have hsome := ha.next
    rw [hnext] at hsome
    cases hsome
  exact .intro (fun _ _ _ => x) hchecked (fun m part ha => absurd ha (hnone m part))
    fun m part ha => absurd ha (hnone m part)

/-- Without a check, the computation does what it likes after the last part. -/
theorem done (hnext : e.part? vs = none) (hfree : ∀ h, e.refusal? h scope vs = none) :
    GoesOn recur scope e vs x :=
  .last hnext (.of_free hfree)

/-- The next part is evaluated if no check fails. -/
theorem checkedPart (part : Part) (k : Machine → Value → Eval Value) (hnext : e.part? vs = some part)
    (hchecked : e.Checked scope vs x)
    (hx : ∀ m : Machine, e.refusal? m.heap scope vs = none →
      x m = (part.run recur scope >>= k m) m)
    (hk : ∀ m v, GoesOn recur scope e (vs ++ [v]) (k m v)) : GoesOn recur scope e vs x := by
  refine .intro (fun m _ => k m) hchecked (fun m part' ha => ?_) fun m _ _ => hk m
  obtain rfl : part = part' := Option.some.inj (hnext.symm.trans ha.next)
  exact hx m ha.unrefused

/-- Without a check, the next part is evaluated. -/
theorem part (part : Part) {k : Value → Eval Value} (hnext : e.part? vs = some part)
    (hfree : ∀ h, e.refusal? h scope vs = none) (hk : ∀ v, GoesOn recur scope e (vs ++ [v]) (k v)) :
    GoesOn recur scope e vs (part.run recur scope >>= k) :=
  .checkedPart part (fun _ => k) hnext (.of_free hfree) (fun _ _ => rfl) fun _ => hk

/-! ### Rows of parts -/

theorem evalAll_cons_bind {first : Expr} {es : List Expr} {k : List Value → Eval Value} :
    (Eval.evalAll (recur scope) (first :: es) >>= k) =
      ((Part.operand first).run recur scope >>= fun v =>
        Eval.evalAll (recur scope) es >>= fun ws => k (v :: ws)) := by
  rw [Eval.evalAll, bind_assoc]
  refine congrArg _ (funext fun v => ?_)
  rw [bind_assoc]
  simp only [pure_bind]

/-- The operands of a row that are left. -/
theorem evalAll {es : List Expr} (hleft : e.Leaves scope vs (es.map .operand))
    (hfree : ∀ h, e.refusal? h scope vs = none) (k : List Value → Eval Value) :
    GoesOn recur scope e vs (Eval.evalAll (recur scope) es >>= k) := by
  induction es generalizing vs k with
  | nil => exact .done hleft.eq_none hfree
  | cons first es ih =>
    rw [evalAll_cons_bind]
    exact .part _ hleft.eq_some hfree fun v => ih (hleft.tail v) (fun _ => hleft.free_tail v) _

/-- The fields of an object that are left. -/
theorem evalFields {fields : List (String × Expr)}
    (hleft : e.Leaves scope vs (fields.map fun field => .operand field.2))
    (hfree : ∀ h, e.refusal? h scope vs = none) (slots : Slots) (k : Slots → Eval Value) :
    GoesOn recur scope e vs (Eval.evalFields (recur scope) slots fields >>= k) := by
  induction fields generalizing vs slots with
  | nil => exact .done hleft.eq_none hfree
  | cons field fields ih =>
    have hrow : (Eval.evalFields (recur scope) slots (field :: fields) >>= k) =
        ((Part.operand field.2).run recur scope >>= fun v =>
          Eval.evalFields (recur scope) (slots.set field.1 v) fields >>= k) := by
      rw [Eval.evalFields, bind_assoc]
      rfl
    rw [hrow]
    exact .part _ hleft.eq_some hfree fun v => ih (hleft.tail v) (fun _ => hleft.free_tail v) _

/-- The statements of a block that are left. -/
theorem runStatements {es : List Expr} (hleft : e.Leaves scope vs (es.map .statement))
    (hfree : ∀ h, e.refusal? h scope vs = none) (k : Unit → Eval Value) :
    GoesOn recur scope e vs (Eval.runStatements (recur scope) es >>= k) := by
  induction es generalizing vs with
  | nil => exact .done hleft.eq_none hfree
  | cons first es ih =>
    have hrow : (Eval.runStatements (recur scope) (first :: es) >>= k) =
        ((Part.statement first).run recur scope >>= fun _ =>
          Eval.runStatements (recur scope) es >>= k) := by
      rw [Eval.runStatements, Part.run, bind_assoc, bind_assoc]
      simp only [pure_bind]
    rw [hrow]
    exact .part _ hleft.eq_some hfree fun v => ih (hleft.tail v) fun _ => hleft.free_tail v

/-- The operands after values that are checked. -/
theorem checkedRow {es : List Expr} (k : Machine → List Value → Eval Value)
    (hleft : e.Leaves scope vs (es.map .operand)) (hchecked : e.Checked scope vs x)
    (hx : ∀ m : Machine, e.refusal? m.heap scope vs = none →
      x m = (Eval.evalAll (recur scope) es >>= k m) m) : GoesOn recur scope e vs x := by
  cases es with
  | nil => exact .last hleft.eq_none hchecked
  | cons first es =>
    refine .checkedPart (.operand first)
      (fun m v => Eval.evalAll (recur scope) es >>= fun ws => k m (v :: ws)) hleft.eq_some hchecked
      (fun m hm => ?_) fun m v => .evalAll (hleft.tail v) (fun _ => hleft.free_tail v) _
    rw [hx m hm, evalAll_cons_bind]

end GoesOn

section Constructs

variable (recur : Recur) (scope : Loc)

/-- A block that runs in place goes through its statements. -/
theorem goesOn_runBlock (body : Block) :
    GoesOn recur scope (.block body) [] (do runBlock (recur scope) body; return .undefined) := by
  obtain ⟨statements, line⟩ := body
  refine .runStatements ⟨fun ws => ?_, fun _ _ _ => rfl⟩ (fun _ => rfl) _
  rw [List.getElem?_map]
  rfl

theorem goesOn_call (callee : Expr) (args : List Expr) (line : Int) :
    GoesOn recur scope (.call callee args line) [] (step recur scope (.call callee args line)) := by
  rw [step]
  refine .part (.operand callee) rfl (fun _ => rfl) fun f => ?_
  refine .checkedRow
    (fun _ vs => match f with | .ref place => invoke recur place .undefined vs | _ => pure .undefined)
    (.call callee args line scope f) (fun m cause hcause => ?_) fun m hm => ?_
  · obtain ⟨hf, rfl⟩ := Heap.notFunction?_eq_some.mp hcause
    exact bind_of_error (expectFunction_of_not hf)
  · have hf := Heap.notFunction?_eq_none.mp hm
    obtain ⟨place, rfl⟩ := exists_ref_of_isFunction hf
    exact bind_of_ok (expectFunction_of_isFunction hf)

theorem goesOn_method (receiver : Expr) (name : String) (args : List Expr) (line : Int) :
    GoesOn recur scope (.method receiver name args line) []
      (step recur scope (.method receiver name args line)) := by
  rw [step_method]
  refine .part (.operand receiver) rfl (fun _ => rfl) fun o => ?_
  -- which function is called depends on the machine on which the receiver is checked
  refine .checkedRow
    (fun m vs => do
      let object ← expectObject o
      match m.heap.member object name with
      | .ref place => invoke recur place o vs
      | _ => return .undefined)
    (.method receiver name args line scope o) (fun m cause hcause => ?_) fun m hm => ?_
  · rcases Heap.notMethod?_eq_some.mp hcause with ⟨ho, rfl⟩ | ⟨object, rfl, hmember, rfl⟩
    · exact bind_of_error (expectObject_of_ne ho)
    · rw [expectObject_bind, heap_bind]
      exact bind_of_error (expectFunction_of_not hmember)
  · obtain ⟨object, rfl, hmember⟩ := Heap.notMethod?_eq_none.mp hm
    obtain ⟨place, hplace⟩ := exists_ref_of_isFunction hmember
    rw [expectObject_bind, heap_bind, hplace,
      bind_of_ok (expectFunction_of_isFunction (hplace ▸ hmember))]
    refine bind_congr rfl fun vs m' _ => ?_
    rw [expectObject_bind, hplace]

theorem goesOn_assign (name : String) (value : Expr) (declares : Bool) (line : Int) :
    GoesOn recur scope (.assign name value declares line) []
      (step recur scope (.assign name value declares line)) := by
  rw [step]
  have hbind : ∀ v, GoesOn recur scope (.assign name value declares line) [v]
      (do bind scope name v; return v) := fun v => .done (by cases declares <;> rfl) fun _ => by
        cases declares <;> rfl
  cases declares with
  | true => exact .part (.operand value) rfl (fun _ => rfl) hbind
  | false =>
    refine .checkedPart (.operand value) (fun _ v => do bind scope name v; return v) rfl
      (fun m cause hcause => ?_) (fun m hm => ?_) fun _ => hbind
    · obtain ⟨hl, rfl⟩ := Heap.unbound?_eq_some.mp hcause
      exact bind_of_error (resolve_of_none hl)
    · obtain ⟨v, hv⟩ := Heap.unbound?_eq_none.mp hm
      exact bind_of_ok (resolve_of_lookup? hv)

theorem goesOn_choose (condition : Expr) (yes no : Block) (line : Int) :
    GoesOn recur scope (.choose condition yes no line) []
      (step recur scope (.choose condition yes no line)) := by
  rw [step]
  refine .part (.operand condition) rfl (fun _ => rfl) fun v => ?_
  cases ht : v.truth? with
  | none =>
    refine .done ?_ fun _ => rfl
    show v.truth?.map _ = none
    rw [ht]
    rfl
  | some taken =>
    have hnext : (Expr.choose condition yes no line).part? [v] =
        some (.branch (if taken then yes else no)) := by
      show v.truth?.map _ = _
      rw [ht]
      rfl
    have hbranch : GoesOn recur scope (.choose condition yes no line) [v]
        ((Part.branch (if taken then yes else no)).run recur scope) := by
      rw [← bind_pure (Part.run _ _ _)]
      exact .part _ hnext (fun _ => rfl) fun _ => .done rfl fun _ => rfl
    cases taken <;> exact hbranch

theorem goesOn_setField (receiver : Expr) (name : String) (value : Expr) (line : Int) :
    GoesOn recur scope (.setField receiver name value line) []
      (step recur scope (.setField receiver name value line)) := by
  rw [step]
  refine .part (.operand receiver) rfl (fun _ => rfl) fun o => ?_
  refine .checkedPart (.operand value)
    (fun _ v => do
      let place ← expectObject o
      bind place name v
      return v)
    rfl (fun m cause hcause => ?_) (fun m hm => ?_) fun _ _ => .done rfl fun _ => rfl
  · obtain ⟨ho, rfl⟩ := Heap.notObject?_eq_some.mp hcause
    exact bind_of_error (expectObject_of_ne ho)
  · obtain ⟨place, rfl⟩ := Heap.notObject?_eq_none.mp hm
    rfl

/-- **Evaluating a construct goes through its parts.** -/
theorem exists_goesOn (e : Expr) :
    ∃ x, GoesOn recur scope e [] x ∧ ∀ m, step recur scope e m = x (m.prepared scope e) := by
  cases e with
  | block body => exact ⟨_, goesOn_runBlock recur scope body, fun _ => rfl⟩
  | literal value line => exact ⟨_, .done rfl fun _ => rfl, fun _ => rfl⟩
  | call callee args line => exact ⟨_, goesOn_call recur scope callee args line, fun _ => rfl⟩
  | identifier name line =>
    refine ⟨_, .last rfl fun m cause hcause => ?_, fun _ => rfl⟩
    obtain ⟨hl, rfl⟩ := Heap.unbound?_eq_some.mp hcause
    rw [step, resolve_of_none hl]
  | assign name value declares line =>
    exact ⟨_, goesOn_assign recur scope name value declares line, fun _ => rfl⟩
  | function name params binds body line => exact ⟨_, .done rfl fun _ => rfl, fun _ => rfl⟩
  | returns value line =>
    refine ⟨_, ?_, fun _ => rfl⟩
    rw [step]
    exact .part (.operand value) rfl (fun _ => rfl) fun _ => .done rfl fun _ => rfl
  | choose condition yes no line =>
    exact ⟨_, goesOn_choose recur scope condition yes no line, fun _ => rfl⟩
  | object fields line =>
    refine ⟨_, ?_, fun _ => rfl⟩
    rw [step]
    refine .evalFields ⟨fun ws => ?_, fun _ _ _ => rfl⟩ (fun _ => rfl) _ _
    show ((fields.map Prod.snd)[ws.length]?.map Part.operand) = _
    rw [← List.getElem?_map, List.map_map]
    rfl
  | field receiver name line =>
    refine ⟨_, ?_, fun _ => rfl⟩
    rw [step]
    refine .part (.operand receiver) rfl (fun _ => rfl) fun o => .last rfl fun m cause hcause => ?_
    obtain ⟨ho, rfl⟩ := Heap.notObject?_eq_some.mp hcause
    exact bind_of_error (expectObject_of_ne ho)
  | setField receiver name value line =>
    exact ⟨_, goesOn_setField recur scope receiver name value line, fun _ => rfl⟩
  | method receiver name args line =>
    exact ⟨_, goesOn_method recur scope receiver name args line, fun _ => rfl⟩

end Constructs

/-! ### Progress -/

/-- The first parts of a construct have had the given values, one after the other, and left a machine. -/
inductive Progress (recur : Recur) (scope : Loc) (e : Expr) (m : Machine) : List Value → Machine → Prop where
  /-- No part has been evaluated. -/
  | start : Progress recur scope e m [] m
  /-- One more part has been. -/
  | next {vs : List Value} {part : Part} {v : Value} {m₁ m₂ : Machine} :
    Progress recur scope e m vs m₁ → e.Awaits m₁.heap scope vs part →
      part.run recur scope m₁ = .ok v m₂ → Progress recur scope e m (vs ++ [v]) m₂

/-- Another evaluation does the same with every part that comes up in a construct. -/
def Agrees (recur recur' : Recur) (scope : Loc) (e : Expr) (m : Machine) : Prop :=
  ∀ ⦃vs part m₁⦄, Progress recur scope e m vs m₁ → e.Awaits m₁.heap scope vs part →
    part.run recur' scope m₁ = part.run recur scope m₁

namespace Progress

variable {recur recur' : Recur} {scope : Loc} {e : Expr} {m m₁ m₂ : Machine} {vs ws : List Value}
  {x : Eval Value}

/-- What is left to be done after the first parts. -/
theorem exists_rest (h : Progress recur scope e m vs m₁) (hx : GoesOn recur scope e [] x) :
    ∃ y, GoesOn recur scope e vs y ∧ x m = y m₁ := by
  -- by induction on the parts that have been evaluated, each of which leaves what comes behind it
  induction h with
  | start => exact ⟨x, hx, rfl⟩
  | @next vs part v m₁ m₂ _ ha hv ih =>
    obtain ⟨y, ⟨k, -, hpart, hk⟩, hxy⟩ := ih
    refine ⟨k m₁ part v, hk m₁ part ha v, ?_⟩
    rw [hxy, hpart m₁ part ha, bind_of_ok hv]

/-- The construct fails where a check does. -/
theorem eq_of_refusal {cause : FaultCause} (h : Progress recur scope e m vs m₁)
    (hx : GoesOn recur scope e [] x) (hcause : e.refusal? m₁.heap scope vs = some cause) :
    x m = .error (.failed ⟨cause, none⟩) m₁ := by
  obtain ⟨y, ⟨k, hchecked, -, -⟩, hxy⟩ := h.exists_rest hx
  rw [hxy, hchecked m₁ cause hcause]

/-- The construct ends abruptly where a part does. -/
theorem eq_of_part {part : Part} {abrupt : Abrupt} (h : Progress recur scope e m vs m₁)
    (hx : GoesOn recur scope e [] x) (ha : e.Awaits m₁.heap scope vs part)
    (hpart : part.run recur scope m₁ = .error abrupt m₂) : x m = .error abrupt m₂ := by
  obtain ⟨y, ⟨k, -, hy, -⟩, hxy⟩ := h.exists_rest hx
  rw [hxy, hy m₁ part ha, bind_of_error hpart]

/-- There is one way to go through the parts. -/
theorem unique (h : Progress recur scope e m vs m₁) (h' : Progress recur scope e m ws m₂)
    (hlength : vs.length = ws.length) : vs = ws ∧ m₁ = m₂ := by
  induction h generalizing ws m₂ with
  | start =>
    cases h' with
    | start => exact ⟨rfl, rfl⟩
    | next _ _ _ => simp at hlength
  | next _ ha hv ih =>
    cases h' with
    | start => simp at hlength
    | next h' ha' hv' =>
      obtain ⟨rfl, rfl⟩ := ih h' (by simpa using hlength)
      obtain rfl := Option.some.inj (ha.next.symm.trans ha'.next)
      obtain ⟨rfl, rfl⟩ := EStateM.Result.ok.inj (hv.symm.trans hv')
      exact ⟨rfl, rfl⟩

/-- Where no part has a value, there is no more progress. -/
theorem length_le_of_stuck (h : Progress recur scope e m vs m₁)
    (hstuck : ∀ part v m₂, e.Awaits m₁.heap scope vs part → part.run recur scope m₁ ≠ .ok v m₂)
    (h' : Progress recur scope e m ws m₂) : ws.length ≤ vs.length := by
  induction h' with
  | start => exact Nat.zero_le _
  | next h' ha hv ih =>
    rw [List.length_append, List.length_singleton]
    rcases Nat.lt_or_eq_of_le ih with hlt | heq
    · exact hlt
    · obtain ⟨rfl, rfl⟩ := h.unique h' heq.symm
      exact absurd hv (hstuck _ _ _ ha)

/-- Where the next part ends abruptly, there is no more progress. -/
theorem length_le_of_part {part : Part} {abrupt : Abrupt} {m' : Machine}
    (h : Progress recur scope e m vs m₁) (ha : e.Awaits m₁.heap scope vs part)
    (hpart : part.run recur scope m₁ = .error abrupt m') (h' : Progress recur scope e m ws m₂) :
    ws.length ≤ vs.length := by
  refine h.length_le_of_stuck (fun part' v m'' ha' hv => ?_) h'
  obtain rfl := Option.some.inj (ha.next.symm.trans ha'.next)
  cases hpart.symm.trans hv

/-- Progress depends on nothing but the parts that come up. -/
theorem congr (hagrees : Agrees recur recur' scope e m) (h : Progress recur scope e m vs m₁) :
    Progress recur' scope e m vs m₁ := by
  induction h with
  | start => exact .start
  | next h ha hv ih => exact .next ih ha ((hagrees h ha).trans hv)

/-- The operands of a row make progress as they have values. -/
theorem evalAll {es : List Expr} (h : Progress recur scope e m vs m₁)
    (hleft : e.Leaves scope vs (es.map .operand)) (hfree : e.refusal? m₁.heap scope vs = none)
    (hes : Eval.evalAll (recur scope) es m₁ = .ok ws m₂) : Progress recur scope e m (vs ++ ws) m₂ := by
  induction es generalizing vs m₁ ws with
  | nil =>
    cases hes
    rwa [List.append_nil]
  | cons first es ih =>
    obtain ⟨v, m', hv, hes⟩ := bind_eq_ok_iff.mp hes
    obtain ⟨ws', _, hws, ⟨⟩⟩ := bind_eq_ok_iff.mp hes
    rw [List.append_cons]
    exact ih (h.next ⟨hfree, hleft.eq_some⟩ hv) (hleft.tail v) (hleft.free_tail v) hws

end Progress

theorem length_of_evalAll {run : Expr → Eval Value} {es : List Expr} {vs : List Value} {m m' : Machine}
    (h : evalAll run es m = .ok vs m') : vs.length = es.length := by
  induction es generalizing m vs with
  | nil =>
    cases h
    rfl
  | cons e es ih =>
    obtain ⟨v, m₁, -, h⟩ := bind_eq_ok_iff.mp h
    obtain ⟨ws, m₂, hws, ⟨⟩⟩ := bind_eq_ok_iff.mp h
    exact congrArg (· + 1) (ih hws)

/-- An evaluation that does the same with the parts has the same values for a row of them. -/
theorem Agrees.evalAll_eq {recur recur' : Recur} {scope : Loc} {e : Expr} {m m₁ : Machine}
    {vs : List Value} {es : List Expr} (hagrees : Agrees recur recur' scope e m)
    (h : Progress recur scope e m vs m₁) (hleft : e.Leaves scope vs (es.map .operand))
    (hfree : e.refusal? m₁.heap scope vs = none) :
    evalAll (recur' scope) es m₁ = evalAll (recur scope) es m₁ := by
  induction es generalizing vs m₁ with
  | nil => rfl
  | cons first es ih =>
    have ha : e.Awaits m₁.heap scope vs (.operand first) := ⟨hfree, hleft.eq_some⟩
    refine bind_congr (hagrees h ha) fun v m₂ hv => ?_
    have hfirst : recur scope first m₁ = .ok v m₂ := (hagrees h ha).symm.trans hv
    exact bind_congr (ih (h.next ha hfirst) (hleft.tail v) (hleft.free_tail v)) fun _ _ _ => rfl

end Scriptlet
