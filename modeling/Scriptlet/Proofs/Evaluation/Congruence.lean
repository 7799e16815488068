import Scriptlet.Proofs.Evaluation.Growth

/-!
# Relations that evaluation respects

Some relations between computations hold of two runs of the same code as soon as they hold of its smallest
steps: they go through sequences, and what runs for a construct on a line and as the body of a function.
Such a relation needs to be looked at step by step only once, here. What a bound on depth can change, and
what tracing can change, are the two that are used.

## What is proved

* `Congruence.step`: a construct is related to itself, if evaluation of its parts is related.
* `Congruence.eval`: so evaluation of anything is.
-/

namespace Scriptlet

/-- A relation between computations that evaluation respects. -/
structure Congruence where
  /-- The second computation is to the first one as it should. -/
  rel {α : Type} : Eval α → Eval α → Prop
  -- how computations are put together
  pure {α : Type} (a : α) : rel (Pure.pure a) (Pure.pure a)
  throw {α : Type} (abrupt : Abrupt) : rel (throw abrupt : Eval α) (throw abrupt)
  bind {α β : Type} {x y : Eval α} {f g : α → Eval β} :
    rel x y → (∀ a, rel (f a) (g a)) → rel (x >>= f) (y >>= g)
  locate {α : Type} {x y : Eval α} (line : Int) :
    rel x y → rel (Eval.locate line x) (Eval.locate line y)
  functionBody {x y : Eval Unit} :
    rel x y → rel (Eval.functionBody x) (Eval.functionBody y)
  -- what they do to the machine
  heap : rel Eval.heap Eval.heap
  bindAll (place : Loc) (bindings : List (String × Value)) :
    rel (Eval.changeHeap fun h => h.bindAll place bindings)
      (Eval.changeHeap fun h => h.bindAll place bindings)
  allocate (o : Object) : rel (Eval.allocate o) (Eval.allocate o)
  print (args : List Value) : rel (Eval.print args) (Eval.print args)

namespace Congruence

variable {C : Congruence} {α β : Type}

/-! ### Small steps -/

theorem fail (cause : FaultCause) : C.rel (Eval.fail cause : Eval α) (Eval.fail cause) :=
  C.throw _

theorem bindOne (place : Loc) (name : String) (v : Value) :
    C.rel (Eval.bind place name v) (Eval.bind place name v) :=
  C.bindAll place [(name, v)]

theorem resolve (scope : Loc) (name : String) :
    C.rel (Eval.resolve scope name) (Eval.resolve scope name) := by
  refine C.bind C.heap fun h => ?_
  cases h.lookup? scope name with
  | some v => exact C.pure v
  | none => exact fail _

theorem expectObject (v : Value) : C.rel (Eval.expectObject v) (Eval.expectObject v) := by
  cases v with
  | ref place => exact C.pure place
  | _ => exact C.bind C.heap fun h => fail _

theorem expectFunction (subject : Heap → String) (v : Value) :
    C.rel (Eval.expectFunction subject v) (Eval.expectFunction subject v) := by
  refine C.bind C.heap fun h => ?_
  cases v with
  | ref place =>
    show C.rel (if _ then _ else _) (if _ then _ else _)
    split
    · exact C.pure place
    · exact fail _
  | _ => exact fail _

theorem ofExcept (r : Except FaultCause α) : C.rel (Eval.ofExcept r) (Eval.ofExcept r) := by
  cases r with
  | ok a => exact C.pure a
  | error cause => exact fail cause

theorem call (b : Builtin) (args : List Value) : C.rel (b.call args) (b.call args) := by
  cases b with
  | print => exact C.print args
  | operator o =>
    match args with
    | [x, y] => exact C.bind C.heap fun h => ofExcept _
    | [] | [_] | _ :: _ :: _ :: _ => exact fail _

/-! ### The parts of a construct -/

section Parts

variable {recur recur' : Eval.Recur}

theorem evalAll (hrec : ∀ scope e, C.rel (recur scope e) (recur' scope e)) (scope : Loc)
    (es : List Expr) :
    C.rel (Eval.evalAll (recur scope) es) (Eval.evalAll (recur' scope) es) := by
  induction es with
  | nil => exact C.pure []
  | cons e es ih => exact C.bind (hrec scope e) fun v => C.bind ih fun vs => C.pure _

theorem evalFields (hrec : ∀ scope e, C.rel (recur scope e) (recur' scope e)) (scope : Loc)
    (fields : List (String × Expr)) (slots : Slots) :
    C.rel (Eval.evalFields (recur scope) slots fields)
      (Eval.evalFields (recur' scope) slots fields) := by
  induction fields generalizing slots with
  | nil => exact C.pure slots
  | cons field fields ih => exact C.bind (hrec scope field.2) fun v => ih _

theorem lastValue {evaluate evaluate' : Expr → Eval Value}
    (hrec : ∀ e, C.rel (evaluate e) (evaluate' e)) (v : Value) (es : List Expr) :
    C.rel (lastValue evaluate v es) (lastValue evaluate' v es) := by
  induction es generalizing v with
  | nil => exact C.pure v
  | cons e es ih => exact C.bind (hrec e) ih

mutual

theorem runBlock (hrec : ∀ scope e, C.rel (recur scope e) (recur' scope e)) (scope : Loc) :
    ∀ body : Block, C.rel (Eval.runBlock (recur scope) body) (Eval.runBlock (recur' scope) body)
  | ⟨statements, _⟩ => runStatements hrec scope statements

theorem runStatements (hrec : ∀ scope e, C.rel (recur scope e) (recur' scope e))
    (scope : Loc) : ∀ es : List Expr,
      C.rel (Eval.runStatements (recur scope) es) (Eval.runStatements (recur' scope) es)
  | [] => C.pure ()
  | e :: es => C.bind (runStatement hrec scope e) fun _ => runStatements hrec scope es

theorem runStatement (hrec : ∀ scope e, C.rel (recur scope e) (recur' scope e))
    (scope : Loc) (e : Expr) :
    C.rel (Eval.runStatement (recur scope) e) (Eval.runStatement (recur' scope) e) := by
  cases e with
  | block body => exact runBlock hrec scope body
  | _ => exact C.bind (hrec scope _) fun _ => C.pure ()

end

theorem invoke (hrec : ∀ scope e, C.rel (recur scope e) (recur' scope e)) (place : Loc)
    (receiver : Value) (args : List Value) :
    C.rel (Eval.invoke recur place receiver args) (Eval.invoke recur' place receiver args) := by
  refine C.bind C.heap fun h => ?_
  cases (h.get place).nature with
  | plain => exact fail _
  | scope parent => exact fail _
  | function name code =>
    cases code with
    | builtin b => exact call b args
    | closure params body scope =>
      show C.rel (if _ then _ else _) (if _ then _ else _)
      split
      · exact fail _
      · refine C.bind (C.allocate _) fun frame => ?_
        refine C.bind (bindOne frame _ _) fun _ => C.bind (C.bindAll frame _) fun _ => ?_
        exact C.functionBody (C.bind (hrec frame (.block body)) fun _ => C.pure ())

/-! ### Constructs -/

/-- **A construct is related to itself**, if evaluation of its parts is related. -/
theorem step (hrec : ∀ scope e, C.rel (recur scope e) (recur' scope e)) (scope : Loc)
    (e : Expr) : C.rel (Eval.step recur scope e) (Eval.step recur' scope e) := by
  cases e with
  | block body =>
    refine C.bind (C.bindAll scope _) fun _ => ?_
    exact C.bind (runBlock hrec scope body) fun _ => C.pure _
  | literal value line => exact C.pure value.value
  | identifier name line => exact resolve scope name
  | call callee args line =>
    refine C.bind (hrec scope callee) fun f => C.bind (expectFunction _ f) fun place => ?_
    exact C.bind (evalAll hrec scope args) fun vs => invoke hrec place .undefined vs
  | assign name value declares line =>
    cases declares with
    | true => exact C.bind (hrec scope value) fun v => C.bind (bindOne scope name v) fun _ => C.pure v
    | false =>
      refine C.bind (resolve scope name) fun _ => ?_
      exact C.bind (hrec scope value) fun v => C.bind (bindOne scope name v) fun _ => C.pure v
  | function name params binds body line =>
    refine C.bind (C.allocate _) fun place => ?_
    cases binds with
    | true => exact C.bind (bindOne scope name _) fun _ => C.pure _
    | false => exact C.pure _
  | returns value line => exact C.bind (hrec scope value) fun v => C.throw _
  | choose condition yes no line =>
    refine C.bind (hrec scope condition) fun v => ?_
    cases v.truth? with
    | none => exact C.pure _
    | some truth =>
      cases truth with
      | true => exact C.bind (runBlock hrec scope yes) fun _ => C.pure _
      | false => exact C.bind (runBlock hrec scope no) fun _ => C.pure _
  | object fields line =>
    refine C.bind (evalFields hrec scope fields []) fun slots => ?_
    exact C.bind (C.allocate _) fun place => C.pure _
  | field receiver name line =>
    refine C.bind (hrec scope receiver) fun v => C.bind (expectObject v) fun place => ?_
    exact C.bind C.heap fun h => C.pure _
  | setField receiver name value line =>
    refine C.bind (hrec scope receiver) fun o => C.bind (expectObject o) fun place => ?_
    refine C.bind (hrec scope value) fun v => ?_
    exact C.bind (bindOne place name v) fun _ => C.pure v
  | method receiver name args line =>
    refine C.bind (hrec scope receiver) fun o => C.bind (expectObject o) fun place => ?_
    refine C.bind C.heap fun h => C.bind (expectFunction _ _) fun f => ?_
    exact C.bind (evalAll hrec scope args) fun vs => invoke hrec f o vs

end Parts

/-- **Evaluation of anything is related to itself.** -/
theorem eval (C : Congruence) (depth : Nat) (scope : Loc) (e : Expr) :
    C.rel (eval depth scope e) (eval depth scope e) := by
  induction depth generalizing scope e with
  | zero => exact C.throw .tooDeep
  | succ depth ih => exact C.locate e.line (step ih scope e)

end Congruence

end Scriptlet
