import Scriptlet.Proofs.Evaluation.Growth

/-!
# Two runs in step

The same code is run on two machines whose heaps differ in something that code can hardly see. A lockstep
says what may be different, and lists what has to be shown for it: names and fields are found alike, what is
printed is the same, and the same can be done to both heaps. Then whatever the first run comes to, unless
it fails, the second one comes to as well, with the same values and the same output, and the heaps at the
end differ in nothing else. The second run may nest constructs more deeply.

## What is proved

* `Lockstep.follows_step`: constructs stay in step if evaluation of their parts does.
* `Lockstep.follows_eval`: evaluation stays in step, in every scope.
-/

namespace Scriptlet

/-- How two heaps may differ while the same code runs on them. -/
structure Lockstep where
  /-- The second heap differs from the first one as it may. -/
  rel : Heap → Heap → Prop
  -- what code can see
  next {h h' : Heap} : rel h h' → h'.next = h.next
  nature {h h' : Heap} (place : Loc) : rel h h' → (h'.get place).nature = (h.get place).nature
  /-- The second heap may have a name bound to no value that the first one does not have at all. -/
  lookup {h h' : Heap} (place : Loc) (name : String) : rel h h' →
    h'.lookup? place name = h.lookup? place name ∨
      h.lookup? place name = none ∧ h'.lookup? place name = some .undefined
  display {h h' : Heap} (v : Value) : rel h h' → h'.display v = h.display v
  -- what code can do
  bind {h h' : Heap} (place : Loc) (name : String) (v : Value) :
    rel h h' → rel (h.bind place name v) (h'.bind place name v)
  push {h h' : Heap} (o : Object) : rel h h' → rel (h.push o) (h'.push o)

namespace Lockstep

variable {L : Lockstep} {α β : Type} {m m' : Machine}

/-- The second machine differs from the first one as it may, and only in its heap. -/
structure Agree (L : Lockstep) (m m' : Machine) : Prop where
  /-- The heaps differ as they may. -/
  heap : L.rel m.heap m'.heap
  /-- The same has been written. -/
  written : m'.written = m.written
  /-- Tracing is on in both or in none. -/
  tracing : m'.tracing = m.tracing

/-- The second run ends like the first one, unless that one fails. -/
inductive Matches (L : Lockstep) :
    EStateM.Result Abrupt Machine α → EStateM.Result Abrupt Machine α → Prop where
  /-- Both have the same value. -/
  | ok {a : α} {m m' : Machine} : L.Agree m m' → L.Matches (.ok a m) (.ok a m')
  /-- Both return the same value. -/
  | returned {v : Value} {m m' : Machine} : L.Agree m m' →
    L.Matches (.error (.returned v) m) (.error (.returned v) m')
  /-- The first one fails. -/
  | failed {fault : Fault} {m : Machine} {r : EStateM.Result Abrupt Machine α} :
    L.Matches (.error (.failed fault) m) r
  /-- The first one nests constructs too deeply. -/
  | tooDeep {m : Machine} {r : EStateM.Result Abrupt Machine α} : L.Matches (.error .tooDeep m) r

theorem Matches.exists_ok {a : α} {m : Machine} {r : EStateM.Result Abrupt Machine α}
    (h : L.Matches (.ok a m) r) : ∃ m', r = .ok a m' ∧ L.Agree m m' := by
  cases h with
  | ok hm => exact ⟨_, rfl, hm⟩

/-- From machines that agree, the second computation ends like the first one, unless that one fails. -/
def Follows (L : Lockstep) (x y : Eval α) : Prop := ∀ m m', L.Agree m m' → L.Matches (x m) (y m')

/-! ### Computations -/

theorem Agree.bindAll (hm : L.Agree m m') (place : Loc) (bindings : List (String × Value)) :
    L.Agree { m with heap := m.heap.bindAll place bindings }
      { m' with heap := m'.heap.bindAll place bindings } := by
  refine ⟨?_, hm.written, hm.tracing⟩
  have hall : ∀ h h', L.rel h h' → L.rel (h.bindAll place bindings) (h'.bindAll place bindings) := by
    induction bindings with
    | nil => exact fun _ _ hr => hr
    | cons binding bindings ih => exact fun h h' hr => ih _ _ (L.bind place _ _ hr)
  exact hall _ _ hm.heap

variable {x y : Eval α} {f g : α → Eval β}

theorem follows_pure (a : α) : L.Follows (pure a) (pure a) := fun _ _ hm => .ok hm

theorem follows_return (v : Value) :
    L.Follows (throw (.returned v) : Eval α) (throw (.returned v)) :=
  fun _ _ hm => .returned hm

theorem follows_fail (cause : FaultCause) (y : Eval α) : L.Follows (Eval.fail cause) y :=
  fun _ _ _ => .failed

theorem Follows.bind (hx : L.Follows x y) (hf : ∀ a, L.Follows (f a) (g a)) :
    L.Follows (x >>= f) (y >>= g) := by
  intro m m' hm
  have hmatches := hx m m' hm
  show L.Matches (EStateM.bind x f m) (EStateM.bind y g m')
  unfold EStateM.bind
  generalize x m = r, y m' = r' at hmatches
  cases hmatches with
  | ok hm₁ => exact hf _ _ _ hm₁
  | returned hm₁ => exact .returned hm₁
  | failed => exact .failed
  | tooDeep => exact .tooDeep

theorem follows_changeHeap {c : Heap → Heap} (hc : ∀ h h', L.rel h h' → L.rel (c h) (c h')) :
    L.Follows (Eval.changeHeap c) (Eval.changeHeap c) :=
  fun _ _ hm => .ok ⟨hc _ _ hm.heap, hm.written, hm.tracing⟩

theorem follows_bind (place : Loc) (name : String) (v : Value) :
    L.Follows (Eval.bind place name v) (Eval.bind place name v) :=
  follows_changeHeap fun _ _ => L.bind place name v

theorem follows_declare (scope : Loc) (names : List String) :
    L.Follows (Eval.declare scope names) (Eval.declare scope names) :=
  fun _ _ hm => .ok (hm.bindAll scope _)

theorem follows_allocate (o : Object) : L.Follows (Eval.allocate o) (Eval.allocate o) := by
  intro m m' hm
  have hagree : L.Agree { m with heap := m.heap.push o } { m' with heap := m'.heap.push o } :=
    ⟨L.push o hm.heap, hm.written, hm.tracing⟩
  show L.Matches (.ok m.heap.next _) (.ok m'.heap.next _)
  rw [L.next hm.heap]
  exact .ok hagree

theorem Follows.locate (line : Int) (hx : L.Follows x y) :
    L.Follows (Eval.locate line x) (Eval.locate line y) := by
  intro m m' hm
  have hmatches := hx m m' hm
  unfold Eval.locate
  generalize x m = r, y m' = r' at hmatches
  cases hmatches with
  | ok hm₁ => exact .ok hm₁
  | returned hm₁ => exact .returned hm₁
  | failed => exact .failed
  | tooDeep => exact .tooDeep

/-- A function has the value that its body returns. -/
theorem Follows.functionBody {x y : Eval Unit} (hx : L.Follows x y) :
    L.Follows (Eval.functionBody x) (Eval.functionBody y) := by
  intro m m' hm
  have hmatches := hx m m' hm
  unfold Eval.functionBody
  generalize x m = r, y m' = r' at hmatches
  cases hmatches with
  | ok hm₁ => exact .ok hm₁
  | returned hm₁ => exact .ok hm₁
  | failed => exact .failed
  | tooDeep => exact .tooDeep

/-! ### What code can see -/

/-- What looks at the heap only to fail, or to go on in the same way. -/
theorem follows_heap {f g : Heap → Eval β}
    (hf : ∀ h h', L.rel h h' → L.Follows (f h) (g h')) :
    L.Follows (Eval.heap >>= f) (Eval.heap >>= g) :=
  fun m m' hm => hf m.heap m'.heap hm.heap m m' hm

theorem lookup_eq_some {h h' : Heap} (hr : L.rel h h') {place : Loc} {name : String} {v : Value}
    (hl : h.lookup? place name = some v) : h'.lookup? place name = some v := by
  rcases L.lookup place name hr with heq | ⟨hnone, -⟩
  · rw [heq, hl]
  · rw [hnone] at hl
    cases hl

/-- A field that one heap does not have has no value in the other either. -/
theorem member_eq {h h' : Heap} (hr : L.rel h h') (place : Loc) (name : String) :
    (h'.lookup? place name).getD .undefined = (h.lookup? place name).getD .undefined := by
  rcases L.lookup place name hr with heq | ⟨hnone, hundefined⟩
  · rw [heq]
  · rw [hnone, hundefined, Option.getD_none, Option.getD_some]

theorem follows_resolve (scope : Loc) (name : String) :
    L.Follows (Eval.resolve scope name) (Eval.resolve scope name) := by
  refine follows_heap fun h h' hr => ?_
  cases hl : h.lookup? scope name with
  | none => exact follows_fail _ _
  | some v =>
    rw [lookup_eq_some hr hl]
    exact follows_pure v

theorem isFunction_eq {h h' : Heap} (hr : L.rel h h') (v : Value) :
    h'.isFunction v = h.isFunction v := by
  cases v with
  | ref place => rw [Heap.isFunction, Heap.isFunction, Object.isFunction, Object.isFunction,
      L.nature place hr]
  | _ => rfl

theorem follows_expectObject (v : Value) :
    L.Follows (Eval.expectObject v) (Eval.expectObject v) := by
  cases v with
  | ref place => exact follows_pure place
  | _ => exact follows_heap fun _ _ _ => follows_fail _ _

theorem follows_expectFunction (subject subject' : Heap → String) (v : Value) :
    L.Follows (Eval.expectFunction subject v) (Eval.expectFunction subject' v) := by
  refine follows_heap fun h h' hr => ?_
  cases v with
  | ref place =>
    rw [isFunction_eq hr]
    cases h.isFunction (.ref place) with
    | true => exact follows_pure place
    | false => exact follows_fail _ _
  | _ => exact follows_fail _ _

theorem displayQuoted_eq {h h' : Heap} (hr : L.rel h h') (v : Value) :
    h'.displayQuoted v = h.displayQuoted v := by
  cases v with
  | ref place => exact L.display (.ref place) hr
  | _ => rfl

theorem printLine_eq {h h' : Heap} (hr : L.rel h h') (args : List Value) :
    h'.printLine args = h.printLine args := by
  have hdisplay : args.map h'.display = args.map h.display :=
    List.map_congr_left fun v _ => L.display v hr
  unfold Heap.printLine
  rw [hdisplay]

theorem traceLine_eq {h h' : Heap} (hr : L.rel h h') (args : List Value) :
    h'.traceLine args = h.traceLine args := by
  have hquoted : args.map h'.displayQuoted = args.map h.displayQuoted :=
    List.map_congr_left fun v _ => displayQuoted_eq hr v
  unfold Heap.traceLine
  rw [hquoted]

theorem Agree.writeLine (hm : L.Agree m m') (channel : Channel) (line : String) :
    L.Agree (m.writeLine channel line) (m'.writeLine channel line) where
  heap := hm.heap
  written := congrArg (Array.push · (channel, line ++ "\n")) hm.written
  tracing := hm.tracing

theorem follows_print (args : List Value) : L.Follows (Eval.print args) (Eval.print args) := by
  intro m m' hm
  rw [Eval.print_eq, Eval.print_eq, printLine_eq hm.heap, traceLine_eq hm.heap, hm.tracing]
  refine .ok (Agree.writeLine ?_ _ _)
  split
  · exact hm.writeLine _ _
  · exact hm

theorem integers_bind_eq_ok {h : Heap} {o : Operator} {a b v : Value}
    {f : Int × Int → Except FaultCause Value} (hv : h.integers o a b >>= f = .ok v) (h' : Heap) :
    h'.integers o a b >>= f = .ok v := by
  cases a with
  | int m =>
    cases b with
    | int n => exact hv
    | _ => cases hv
  | _ => cases hv

theorem order_bind_eq_ok {h : Heap} {a b v : Value} {f : Ordering → Except FaultCause Value}
    (hv : h.order a b >>= f = .ok v) (h' : Heap) : h'.order a b >>= f = .ok v := by
  unfold Heap.order at hv ⊢
  cases ho : a.order? b with
  | none => rw [ho] at hv; cases hv
  | some order => rw [ho] at hv; exact hv

/-- What an operator yields has nothing to do with the heap. -/
theorem apply_eq_ok {h : Heap} {o : Operator} {a b v : Value} (hv : o.apply h a b = .ok v)
    (h' : Heap) : o.apply h' a b = .ok v := by
  cases o with
  | add | sub | mul | div | mod => exact integers_bind_eq_ok hv h'
  | eq | ne => exact hv
  | lt | le | gt | ge => exact order_bind_eq_ok hv h'

theorem follows_call (b : Builtin) (args : List Value) : L.Follows (b.call args) (b.call args) := by
  unfold Builtin.call
  split
  · exact follows_print args
  · next o x y =>
    refine follows_heap fun h h' _ => ?_
    cases hv : o.apply h x y with
    | error cause => exact follows_fail _ _
    | ok v =>
      rw [apply_eq_ok hv h']
      exact follows_pure v
  · exact follows_fail _ _

/-! ### The parts of a construct -/

/-- Evaluation of the parts of constructs stays in step. -/
def Known (L : Lockstep) (recur recur' : Eval.Recur) : Prop :=
  ∀ scope e, L.Follows (recur scope e) (recur' scope e)

variable {recur recur' : Eval.Recur}

theorem follows_evalAll (hrec : L.Known recur recur') (scope : Loc) (es : List Expr) :
    L.Follows (Eval.evalAll (recur scope) es) (Eval.evalAll (recur' scope) es) := by
  induction es with
  | nil => exact follows_pure _
  | cons e es ih =>
    refine (hrec scope e).bind fun v => ?_
    exact ih.bind fun vs => follows_pure _

theorem follows_evalFields (hrec : L.Known recur recur') (scope : Loc)
    (fields : List (String × Expr)) (slots : Slots) :
    L.Follows (Eval.evalFields (recur scope) slots fields)
      (Eval.evalFields (recur' scope) slots fields) := by
  induction fields generalizing slots with
  | nil => exact follows_pure _
  | cons field fields ih => exact (hrec scope field.2).bind fun v => ih _

mutual

theorem follows_runBlock (hrec : L.Known recur recur') (scope : Loc) : ∀ body : Block,
    L.Follows (Eval.runBlock (recur scope) body) (Eval.runBlock (recur' scope) body)
  | ⟨statements, _⟩ => follows_runStatements hrec scope statements

theorem follows_runStatements (hrec : L.Known recur recur') (scope : Loc) : ∀ es : List Expr,
    L.Follows (Eval.runStatements (recur scope) es) (Eval.runStatements (recur' scope) es)
  | [] => follows_pure _
  | e :: es => (follows_runStatement hrec scope e).bind fun _ => follows_runStatements hrec scope es

theorem follows_runStatement (hrec : L.Known recur recur') (scope : Loc) (e : Expr) :
    L.Follows (Eval.runStatement (recur scope) e) (Eval.runStatement (recur' scope) e) := by
  cases e with
  | block body => exact follows_runBlock hrec scope body
  | _ => exact (hrec scope _).bind fun _ => follows_pure _

end

theorem follows_invoke (hrec : L.Known recur recur') (place : Loc) (receiver : Value)
    (args : List Value) :
    L.Follows (Eval.invoke recur place receiver args) (Eval.invoke recur' place receiver args) := by
  refine follows_heap fun h h' hr => ?_
  rw [L.nature place hr]
  cases (h.get place).nature with
  | plain => exact follows_fail _ _
  | scope parent => exact follows_fail _ _
  | function name code =>
    cases code with
    | builtin b => exact follows_call b args
    | closure params body scope =>
      show L.Follows (if _ then _ else _) (if _ then _ else _)
      split
      · exact follows_fail _ _
      · refine (follows_allocate _).bind fun frame => ?_
        refine (follows_bind frame _ receiver).bind fun _ => ?_
        refine Follows.bind (fun _ _ hm => .ok (hm.bindAll frame _)) fun _ => ?_
        exact ((hrec frame _).bind fun _ => follows_pure _).functionBody

/-! ### Constructs -/

/-- What a construct does stays in step if evaluation of its parts does. -/
theorem follows_step (hrec : L.Known recur recur') (scope : Loc) (e : Expr) :
    L.Follows (Eval.step recur scope e) (Eval.step recur' scope e) := by
  cases e with
  | block body =>
    refine (follows_declare scope _).bind fun _ => ?_
    exact (follows_runBlock hrec scope body).bind fun _ => follows_pure _
  | literal value line => exact follows_pure _
  | identifier name line => exact follows_resolve scope name
  | call callee args line =>
    refine (hrec scope callee).bind fun f => ?_
    refine (follows_expectFunction _ _ f).bind fun place => ?_
    refine (follows_evalAll hrec scope args).bind fun vs => ?_
    exact follows_invoke hrec place .undefined vs
  | assign name value declares line =>
    have hbind : L.Follows (recur scope value >>= fun v => Eval.bind scope name v >>= fun _ => pure v)
        (recur' scope value >>= fun v => Eval.bind scope name v >>= fun _ => pure v) :=
      (hrec scope value).bind fun v => (follows_bind scope name v).bind fun _ => follows_pure v
    cases declares with
    | true => exact hbind
    | false => exact (follows_resolve scope name).bind fun _ => hbind
  | function name params binds body line =>
    refine (follows_allocate _).bind fun place => ?_
    cases binds with
    | true => exact (follows_bind scope name _).bind fun _ => follows_pure _
    | false => exact follows_pure _
  | returns value line => exact (hrec scope value).bind fun v => follows_return v
  | choose condition yes no line =>
    refine (hrec scope condition).bind fun v => ?_
    cases v.truth? with
    | none => exact follows_pure _
    | some truth =>
      cases truth with
      | true => exact (follows_runBlock hrec scope yes).bind fun _ => follows_pure _
      | false => exact (follows_runBlock hrec scope no).bind fun _ => follows_pure _
  | object fields line =>
    refine (follows_evalFields hrec scope fields []).bind fun slots => ?_
    exact (follows_allocate _).bind fun place => follows_pure _
  | field receiver name line =>
    refine (hrec scope receiver).bind fun v => ?_
    refine (follows_expectObject v).bind fun place => ?_
    refine follows_heap fun h h' hr => ?_
    rw [member_eq hr]
    exact follows_pure _
  | setField receiver name value line =>
    refine (hrec scope receiver).bind fun o => ?_
    refine (follows_expectObject o).bind fun place => ?_
    refine (hrec scope value).bind fun v => ?_
    exact (follows_bind place name v).bind fun _ => follows_pure v
  | method receiver name args line =>
    refine (hrec scope receiver).bind fun o => ?_
    refine (follows_expectObject o).bind fun place => ?_
    refine follows_heap fun h h' hr => ?_
    rw [member_eq hr]
    refine (follows_expectFunction _ _ _).bind fun f => ?_
    refine (follows_evalAll hrec scope args).bind fun vs => ?_
    exact follows_invoke hrec f o vs

/-- **Evaluation stays in step**, at every depth and at any greater one. -/
theorem follows_eval (L : Lockstep) {depth depth' : Nat} (hd : depth ≤ depth') :
    L.Known (eval depth) (eval depth') := by
  induction depth generalizing depth' with
  | zero => exact fun _ _ _ _ _ => .tooDeep
  | succ depth ih =>
    obtain ⟨depth', rfl⟩ := Nat.exists_eq_add_one.mpr (Nat.lt_of_lt_of_le (Nat.succ_pos depth) hd)
    intro scope e
    exact (follows_step (ih (Nat.le_of_succ_le_succ hd)) scope e).locate e.line

end Lockstep

end Scriptlet
