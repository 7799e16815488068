import Scriptlet.Proofs.Evaluation.Growth
import Scriptlet.Proofs.Evaluation.Tame

/-!
# Runs in another guise

The same script runs on two heaps, one of which is the other in a guise: its objects lie behind others, and
its variables have other names, which the code has as well. Then the second run does what the first one does,
in that guise. It writes the same, ends with the same value, or fails for the same reason on the same line,
and never comes near the objects in front.

## What is proved

* `Guise.follows_step`: constructs follow in their guise if evaluation of their parts does.
* `Guise.follows_eval`: evaluation follows in its guise, in every scope and at every depth.
* `Guise.agree_execute`, `Guise.agree_runBody`: so does what is run to its end.
-/

namespace Scriptlet

/-! ### Renamed failures -/

/-- The cause with the variable in it renamed. -/
def FaultCause.rename (f : String → String) : FaultCause → FaultCause
  | .undefinedName name => .undefinedName (f name)
  | cause => cause

/-- The failure with the variable in it renamed. -/
def Fault.rename (f : String → String) (fault : Fault) : Fault := ⟨fault.cause.rename f, fault.line⟩

/-- The failure with the variable in it renamed. -/
def Failure.rename (f : String → String) : Failure → Failure
  | .failed fault => .failed (fault.rename f)
  | failure => failure

theorem FaultCause.rename_of_ne (f : String → String) {cause : FaultCause}
    (h : ∀ name, cause ≠ .undefinedName name) : cause.rename f = cause := by
  cases cause with
  | undefinedName name => exact absurd rfl (h name)
  | _ => rfl

theorem Failure.rename_id (f : Failure) : f.rename id = f := by
  cases f with
  | failed fault =>
    obtain ⟨cause, line⟩ := fault
    cases cause <;> rfl
  | _ => rfl

theorem Fault.locate_rename (f : String → String) (fault : Fault) (line : Int) :
    (fault.rename f).locate line = (fault.locate line).rename f := by
  obtain ⟨cause, known⟩ := fault
  cases known with
  | some l => rfl
  | none =>
    by_cases hline : line = 0
    · simp [Fault.locate, Fault.rename, hline]
    · simp [Fault.locate, Fault.rename, hline]

namespace Guise

variable {G : Guise} {h : Heap} {m m' : Machine} {n : String}

/-! ### Runs -/

/-- The machine in its guise. -/
def machine (G : Guise) (m : Machine) : Machine := ⟨G.heap m.heap, m.written, m.tracing, G.place m.root⟩

theorem written_machine (m : Machine) : (G.machine m).written = m.written := rfl

/-- Changing the heap in its guise. -/
theorem machine_heap (m : Machine) {h : Heap} {h' : Heap} (heq : h' = G.heap h) :
    { G.machine m with heap := h' } = G.machine { m with heap := h } := by
  rw [heq]
  rfl

variable {α β α' β' : Type}

/-- What a run may make of a machine. -/
structure Leads (G : Guise) (m m' : Machine) : Prop where
  /-- The heap can still be put in the guise. -/
  tame : G.Tame m'.heap
  /-- It is a later one. -/
  grows : m.heap.Extends m'.heap
  /-- The global scope is where it was. -/
  root : m'.root = m.root

/-- A run that started on a machine ends, and another one ends in the same way in its guise. What the two
yield is as stated. -/
inductive Ends (G : Guise) (m : Machine) (post : Heap → α → β → Prop) :
    EStateM.Result Abrupt Machine α → EStateM.Result Abrupt Machine β → Prop where
  /-- Both have a value. -/
  | ok {a : α} {b : β} {m' : Machine} : G.Leads m m' → post m'.heap a b →
    G.Ends m post (.ok a m') (.ok b (G.machine m'))
  /-- Both return a value. -/
  | returned {v : Value} {m' : Machine} : G.Leads m m' →
    G.Ends m post (.error (.returned v) m') (.error (.returned (G.value v)) (G.machine m'))
  /-- Both fail for the same reason on the same line. -/
  | failed {fault : Fault} {m' : Machine} : G.Leads m m' →
    G.Ends m post (.error (.failed fault) m')
      (.error (.failed (fault.rename G.name)) (G.machine m'))
  /-- Both nest constructs too deeply. -/
  | tooDeep {m' : Machine} : G.Leads m m' →
    G.Ends m post (.error .tooDeep m') (.error .tooDeep (G.machine m'))

/-- From a machine on a tame heap, a computation ends in a way, and another one ends in the same way from
the machine in its guise. -/
def Follows (G : Guise) (m : Machine) (x : Eval α) (y : Eval β) (post : Heap → α → β → Prop) : Prop :=
  G.Tame m.heap → G.Ends m post (x m) (y (G.machine m))

/-- The second value is the first one in its guise. -/
def SameValue (G : Guise) (_ : Heap) (v v' : Value) : Prop := v' = G.value v

/-- Nothing is said of what is yielded. -/
def Anything (_ : Heap) (_ : α) (_ : β) : Prop := True

variable {x : Eval α} {y : Eval β} {f : α → Eval α'} {g : β → Eval β'}
  {post : Heap → α → β → Prop} {post' : Heap → α' → β' → Prop}

/-! ### Computations -/

theorem Leads.refl (ht : G.Tame m.heap) : G.Leads m m := ⟨ht, .refl _, rfl⟩

theorem Leads.trans {m'' : Machine} (hl : G.Leads m m') (hl' : G.Leads m' m'') : G.Leads m m'' :=
  ⟨hl'.tame, hl.grows.trans hl'.grows, hl'.root.trans hl.root⟩

theorem Ends.trans {r : EStateM.Result Abrupt Machine α} {r' : EStateM.Result Abrupt Machine β}
    (hl : G.Leads m m') (hr : G.Ends m' post r r') : G.Ends m post r r' := by
  cases hr with
  | ok hl' hp => exact .ok (hl.trans hl') hp
  | returned hl' => exact .returned (hl.trans hl')
  | failed hl' => exact .failed (hl.trans hl')
  | tooDeep hl' => exact .tooDeep (hl.trans hl')

theorem follows_pure {a : α} {b : β} (hp : post m.heap a b) : G.Follows m (pure a) (pure b) post := by
  intro ht
  exact .ok (.refl ht) hp

theorem follows_return (v : Value) :
    G.Follows m (throw (.returned v) : Eval α) (throw (.returned (G.value v)) : Eval β) post := by
  intro ht
  exact .returned (.refl ht)

theorem follows_failName (n : String) : G.Follows m (Eval.fail (.undefinedName n) : Eval α)
    (Eval.fail (.undefinedName (G.name n)) : Eval β) post := by
  intro ht
  exact .failed (.refl ht)

/-- A failure that is not about a name. -/
theorem follows_fail {cause : FaultCause} (hcause : ∀ name, cause ≠ .undefinedName name) :
    G.Follows m (Eval.fail cause : Eval α) (Eval.fail cause : Eval β) post := by
  intro ht
  have hends : G.Ends m post (.error (.failed ⟨cause, none⟩) m)
      (.error (.failed (Fault.rename G.name ⟨cause, none⟩)) (G.machine m)) := .failed (.refl ht)
  rw [Fault.rename, FaultCause.rename_of_ne G.name hcause] at hends
  exact hends

theorem Follows.bind (hx : G.Follows m x y post)
    (hf : ∀ a b m', m.heap.Extends m'.heap → post m'.heap a b →
      G.Follows m' (f a) (g b) post') : G.Follows m (x >>= f) (y >>= g) post' := by
  intro ht
  have hends := hx ht
  show G.Ends m post' (EStateM.bind x f m) (EStateM.bind y g (G.machine m))
  unfold EStateM.bind
  generalize x m = r, y (G.machine m) = r' at hends
  cases hends with
  | ok hl hp => exact (hf _ _ _ hl.grows hp hl.tame).trans hl
  | returned hl => exact .returned hl
  | failed hl => exact .failed hl
  | tooDeep hl => exact .tooDeep hl

/-- What goes on with a value goes on with it in its guise. -/
theorem Follows.bind_value {x y : Eval Value} {f : Value → Eval α'} {g : Value → Eval β'}
    (hx : G.Follows m x y G.SameValue)
    (hf : ∀ v m', m.heap.Extends m'.heap → G.Follows m' (f v) (g (G.value v)) post') :
    G.Follows m (x >>= f) (y >>= g) post' :=
  hx.bind fun v _ m' h' hv => hv ▸ hf v m' h'

/-- Looking at the heap. -/
theorem Follows.heap {f : Heap → Eval α'} {g : Heap → Eval β'}
    (hf : G.Tame m.heap → G.Follows m (f m.heap) (g (G.heap m.heap)) post') :
    G.Follows m (Eval.heap >>= f) (Eval.heap >>= g) post' :=
  fun ht => hf ht ht

theorem Follows.locate (line : Int) (hx : G.Follows m x y post) :
    G.Follows m (Eval.locate line x) (Eval.locate line y) post := by
  intro ht
  have hends := hx ht
  unfold Eval.locate
  generalize x m = r, y (G.machine m) = r' at hends
  cases hends with
  | ok hl hp => exact .ok hl hp
  | returned hl => exact .returned hl
  | tooDeep hl => exact .tooDeep hl
  | failed hl =>
    dsimp only
    rw [Fault.locate_rename]
    exact .failed hl

theorem Follows.functionBody {x y : Eval Unit} {post : Heap → Unit → Unit → Prop}
    (hx : G.Follows m x y post) :
    G.Follows m (Eval.functionBody x) (Eval.functionBody y) G.SameValue := by
  intro ht
  have hends := hx ht
  unfold Eval.functionBody
  generalize x m = r, y (G.machine m) = r' at hends
  cases hends with
  | ok hl _ => exact .ok hl rfl
  | returned hl => exact .ok hl rfl
  | failed hl => exact .failed hl
  | tooDeep hl => exact .tooDeep hl

/-- Binding a name, which stays as it is if it can be seen. -/
theorem follows_bind {p : Loc} (hn : G.isVariable n = true)
    (hplain : (m.heap.get p).nature = .plain → G.name n = n) (v : Value) :
    G.Follows m (Eval.bind p n v) (Eval.bind (G.place p) (G.name n) (G.value v)) Anything := by
  intro ht
  have hheap := heap_bind ht.named hn p v
  have hmachine : Eval.bind (G.place p) (G.name n) (G.value v) (G.machine m) =
      .ok () (G.machine { m with heap := m.heap.bind p n v }) :=
    congrArg (EStateM.Result.ok ()) (machine_heap m hheap)
  rw [hmachine]
  exact .ok ⟨ht.bind hn hplain v, Heap.extends_bind _ _ _ _, rfl⟩ trivial

/-- Binding a variable in a scope. -/
theorem follows_bind_scope {scope : Loc} (hs : m.heap.IsScope scope) (hn : G.isVariable n = true)
    (v : Value) :
    G.Follows m (Eval.bind scope n v) (Eval.bind (G.place scope) (G.name n) (G.value v)) Anything := by
  refine follows_bind hn (fun hplain => ?_) v
  obtain ⟨parent, hs⟩ := hs
  rw [hs] at hplain
  cases hplain

/-- Binding a name that stays as it is. -/
theorem follows_bind_label (p : Loc) (hn : G.isLabel n = true) (v : Value) :
    G.Follows m (Eval.bind p n v) (Eval.bind (G.place p) n (G.value v)) Anything := by
  obtain ⟨hvariable, hname⟩ := isLabel_iff.mp hn
  have hbind := follows_bind hvariable (fun _ => hname) v (m := m) (p := p)
  rwa [hname] at hbind

theorem follows_declare {scope : Loc} {body : Block} (hs : m.heap.IsScope scope)
    (hbody : body.all G.admits = true) :
    G.Follows m (Eval.declare scope body.declared)
      (Eval.declare (G.place scope) (body.rename G.name).declared) Anything := by
  intro ht
  have hbindings : (body.rename G.name).declared.map (fun name => (name, Value.undefined)) =
      G.slots (body.declared.map fun name => (name, Value.undefined)) := by
    rw [body.declared_rename, slots, List.map_map, List.map_map]
    rfl
  have hheap := heap_bindAll ht.named (isVariable_of_declared hbody) scope
  rw [← hbindings] at hheap
  have hmachine : Eval.declare (G.place scope) (body.rename G.name).declared (G.machine m) =
      .ok () (G.machine { m with heap := m.heap.declare scope body }) :=
    congrArg (EStateM.Result.ok ()) (machine_heap m hheap)
  rw [hmachine]
  exact .ok ⟨ht.declare hs hbody, Heap.extends_bindAll _ _ _, rfl⟩ trivial

theorem follows_allocate {o : Object} (ho : G.Tame m.heap → G.Tame (m.heap.push o)) :
    G.Follows m (Eval.allocate o) (Eval.allocate (G.object o)) fun _ p q => q = G.place p := by
  intro ht
  have hmachine : Eval.allocate (G.object o) (G.machine m) =
      .ok (G.place m.heap.next) (G.machine { m with heap := m.heap.push o }) := by
    rw [← next_heap]
    exact congrArg (EStateM.Result.ok _) (machine_heap m (heap_push m.heap o))
  rw [hmachine]
  exact .ok ⟨ho ht, Heap.extends_push _ _, rfl⟩ rfl

/-! ### What code can see -/

theorem follows_resolve (scope : Loc) (hn : G.isVariable n = true) :
    G.Follows m (Eval.resolve scope n) (Eval.resolve (G.place scope) (G.name n)) G.SameValue := by
  refine Follows.heap fun ht => ?_
  rw [lookup?_heap ht.named ht.ordered hn]
  cases m.heap.lookup? scope n with
  | some v => exact follows_pure rfl
  | none => exact follows_failName n

/-- What a field access yields. -/
theorem member_heap (ht : G.Tame h) (p : Loc) (hn : G.isLabel n = true) :
    ((G.heap h).lookup? (G.place p) n).getD .undefined =
      G.value ((h.lookup? p n).getD .undefined) := by
  obtain ⟨hvariable, hname⟩ := isLabel_iff.mp hn
  have hlookup := lookup?_heap ht.named ht.ordered hvariable p
  rw [hname] at hlookup
  rw [hlookup]
  cases h.lookup? p n <;> rfl

theorem follows_expectObject (v : Value) : G.Follows m (Eval.expectObject v)
    (Eval.expectObject (G.value v)) fun _ p q => v = .ref p ∧ q = G.place p := by
  have hfail : ∀ v : Value, G.Follows m
      (do Eval.fail (.notObject ((← Eval.heap).describe v)) : Eval Loc)
      (do Eval.fail (.notObject ((← Eval.heap).describe (G.value v))) : Eval Loc)
      fun _ p q => v = .ref p ∧ q = G.place p := by
    intro v
    refine Follows.heap fun ht => ?_
    rw [describe_value ht.visible]
    exact follows_fail fun _ => FaultCause.noConfusion
  cases v with
  | ref p => exact follows_pure ⟨rfl, rfl⟩
  | undefined => exact hfail .undefined
  | int n => exact hfail (.int n)
  | str s => exact hfail (.str s)

theorem follows_expectFunction {subject subject' : Heap → String}
    (hsubject : G.Tame m.heap → subject' (G.heap m.heap) = subject m.heap) (v : Value) :
    G.Follows m (Eval.expectFunction subject v) (Eval.expectFunction subject' (G.value v))
      fun _ p q => q = G.place p := by
  refine Follows.heap fun ht => ?_
  rw [hsubject ht]
  cases v with
  | ref p =>
    have hfunction := isFunction_value (G := G) m.heap (.ref p)
    rw [value] at hfunction ⊢
    dsimp only
    rw [hfunction]
    split
    · exact follows_pure rfl
    · exact follows_fail fun _ => FaultCause.noConfusion
  | _ => exact follows_fail fun _ => FaultCause.noConfusion

/-! ### Built-in functions -/

theorem printLine_heap (ht : G.Tame h) (args : List Value) :
    (G.heap h).printLine (args.map G.value) = h.printLine args := by
  have hdisplay : (args.map G.value).map (G.heap h).display = args.map h.display := by
    rw [List.map_map]
    exact List.map_congr_left fun v _ => display_value ht.visible v
  unfold Heap.printLine
  rw [hdisplay]

theorem traceLine_heap (ht : G.Tame h) (args : List Value) :
    (G.heap h).traceLine (args.map G.value) = h.traceLine args := by
  have hquoted : (args.map G.value).map (G.heap h).displayQuoted = args.map h.displayQuoted := by
    rw [List.map_map]
    exact List.map_congr_left fun v _ => displayQuoted_value ht.visible v
  unfold Heap.traceLine
  rw [hquoted]

theorem follows_print (args : List Value) :
    G.Follows m (Eval.print args) (Eval.print (args.map G.value)) G.SameValue := by
  intro ht
  have hwritten : ∀ m', m'.heap = m.heap → m'.root = m.root →
      G.Ends m G.SameValue (.ok .undefined m') (.ok .undefined (G.machine m')) :=
    fun m' hheap hroot => .ok ⟨hheap ▸ ht, hheap ▸ .refl _, hroot⟩ rfl
  rw [Eval.print_eq, Eval.print_eq, machine]
  dsimp only
  rw [printLine_heap ht, traceLine_heap ht]
  split
  · exact hwritten ((m.writeLine _ _).writeLine _ _) rfl rfl
  · exact hwritten (m.writeLine _ _) rfl rfl

/-- What an operator yields, or why it fails. -/
theorem apply_heap (ht : G.Tame h) (o : Operator) (a b : Value) :
    o.apply (G.heap h) (G.value a) (G.value b) = o.apply h a b := by
  have hinteger : ∀ v, (G.heap h).integer o (G.value v) = h.integer o v := by
    intro v
    have htyped := displayTyped_value (G := G) ht.visible v
    cases v with
    | int n => rfl
    | _ => exact congrArg (fun s => Except.error (FaultCause.notInteger o s)) htyped
  have hintegers : (G.heap h).integers o (G.value a) (G.value b) = h.integers o a b := by
    rw [Heap.integers, hinteger, hinteger, Heap.integers]
  have horder : (G.heap h).order (G.value a) (G.value b) = h.order a b := by
    rw [Heap.order, order?_value, displayTyped_value ht.visible, displayTyped_value ht.visible,
      Heap.order]
  cases o with
  | add | sub | mul | div | mod => simp only [Operator.apply, hintegers]
  | eq | ne => simp only [Operator.apply, equals_value]
  | lt | le | gt | ge => simp only [Operator.apply, horder]

theorem follows_call (b : Builtin) (args : List Value) :
    G.Follows m (b.call args) (b.call (args.map G.value)) G.SameValue := by
  cases b with
  | print => exact follows_print args
  | operator o =>
    match args with
    | [x, y] =>
      refine Follows.heap fun ht => ?_
      rw [apply_heap ht]
      have hresult := Operator.isResult_apply m.heap o x y
      cases hr : o.apply m.heap x y with
      | ok v =>
        rw [hr] at hresult
        obtain ⟨n, rfl⟩ := hresult
        exact follows_pure rfl
      | error cause =>
        rw [hr] at hresult
        exact follows_fail hresult
    | [] => exact follows_fail fun _ => FaultCause.noConfusion
    | [x] => exact follows_fail fun _ => FaultCause.noConfusion
    | x :: y :: z :: more =>
      have hlength : ((x :: y :: z :: more).map G.value).length = (x :: y :: z :: more).length :=
        List.length_map G.value
      show G.Follows m (Eval.fail (.wrongArity o.sign 2 _))
        (Eval.fail (.wrongArity o.sign 2 ((x :: y :: z :: more).map G.value).length)) _
      rw [hlength]
      exact follows_fail fun _ => FaultCause.noConfusion

/-! ### The parts of a construct -/

/-- Evaluation of the parts of constructs follows in its guise. -/
def Known (G : Guise) (recur : Eval.Recur) : Prop :=
  ∀ scope m e, m.heap.IsScope scope → e.all G.admits = true →
    G.Follows m (recur scope e) (recur (G.place scope) (e.rename G.name)) G.SameValue

variable {recur : Eval.Recur} {scope : Loc}

theorem follows_evalAll (hrec : G.Known recur) {es : List Expr} (hs : m.heap.IsScope scope)
    (hes : allIn G.admits es = true) :
    G.Follows m (Eval.evalAll (recur scope) es)
      (Eval.evalAll (recur (G.place scope)) (renameAll G.name es))
      fun _ vs vs' => vs' = vs.map G.value := by
  induction es generalizing m with
  | nil => exact follows_pure rfl
  | cons e es ih =>
    rw [allIn, Bool.and_eq_true] at hes
    refine (hrec scope m e hs hes.1).bind_value fun v m₁ h₁ => ?_
    refine (ih (h₁.isScope hs) hes.2).bind fun vs vs' m₂ h₂ hvs => ?_
    refine follows_pure ?_
    rw [hvs, List.map_cons]

/-- The bindings of an object that is being made, in their guise. Its names can be seen. -/
def SameSlots (G : Guise) (_ : Heap) (s s' : Slots) : Prop :=
  s' = G.slots s ∧ ∀ n ∈ s.names, G.isLabel n = true

theorem SameSlots.set {s s' : Slots} (hs : G.SameSlots h s s') (hn : G.isLabel n = true) (v : Value) :
    G.SameSlots h (s.set n v) (s'.set n (G.value v)) := by
  obtain ⟨rfl, hnames⟩ := hs
  obtain ⟨hvariable, hname⟩ := isLabel_iff.mp hn
  have hset := set_slots (fun m hm => (isLabel_iff.mp (hnames m hm)).1) hvariable v (s := s)
  rw [hname] at hset
  refine ⟨hset, fun m hm => ?_⟩
  obtain ⟨slot, hslot, rfl⟩ := List.mem_map.mp hm
  rcases Slots.eq_or_mem_of_mem_set hslot with rfl | hslot
  · exact hn
  · exact hnames _ (List.mem_map_of_mem hslot)

theorem follows_evalFields (hrec : G.Known recur) {fields : List (String × Expr)} {s s' : Slots}
    (hs : m.heap.IsScope scope) (hlabels : (fields.all fun field => G.isLabel field.1) = true)
    (hfields : allInFields G.admits fields = true) (hslots : G.SameSlots m.heap s s') :
    G.Follows m (Eval.evalFields (recur scope) s fields)
      (Eval.evalFields (recur (G.place scope)) s' (renameFields G.name fields)) G.SameSlots := by
  induction fields generalizing m s s' with
  | nil => exact follows_pure hslots
  | cons field fields ih =>
    rw [List.all_cons, Bool.and_eq_true] at hlabels
    rw [allInFields, Bool.and_eq_true] at hfields
    refine (hrec scope m field.2 hs hfields.1).bind_value fun v m₁ h₁ => ?_
    exact ih (h₁.isScope hs) hlabels.2 hfields.2 (hslots.set hlabels.1 v)

mutual

theorem follows_runBlock (hrec : G.Known recur) {m : Machine} : ∀ {body : Block},
    m.heap.IsScope scope → body.all G.admits = true →
      G.Follows m (Eval.runBlock (recur scope) body)
        (Eval.runBlock (recur (G.place scope)) (body.rename G.name)) Anything
  | ⟨_, _⟩, hs, hbody => follows_runStatements hrec hs hbody

theorem follows_runStatements (hrec : G.Known recur) {m : Machine} : ∀ {es : List Expr},
    m.heap.IsScope scope → allIn G.admits es = true →
      G.Follows m (Eval.runStatements (recur scope) es)
        (Eval.runStatements (recur (G.place scope)) (renameAll G.name es)) Anything
  | [], _, _ => follows_pure trivial
  | e :: es, hs, hes => by
    rw [allIn, Bool.and_eq_true] at hes
    refine (follows_runStatement hrec hs hes.1).bind fun _ _ m₁ h₁ _ => ?_
    exact follows_runStatements hrec (h₁.isScope hs) hes.2

theorem follows_runStatement (hrec : G.Known recur) {m : Machine} : ∀ {e : Expr},
    m.heap.IsScope scope → e.all G.admits = true →
      G.Follows m (Eval.runStatement (recur scope) e)
        (Eval.runStatement (recur (G.place scope)) (e.rename G.name)) Anything
  | e, hs, he => by
    cases e with
    | block body => exact follows_runBlock hrec hs (Expr.all_block.mp he).2
    | _ => exact (hrec scope m _ hs he).bind fun _ _ _ _ _ => follows_pure trivial

end

/-! ### Calls -/

theorem follows_invoke (hrec : G.Known recur) (p : Loc) (receiver : Value) (args : List Value) :
    G.Follows m (Eval.invoke recur p receiver args)
      (Eval.invoke recur (G.place p) (G.value receiver) (args.map G.value)) G.SameValue := by
  refine Follows.heap fun ht => ?_
  rw [nature_heap, render_heap ht.visible]
  cases hn : (m.heap.get p).nature with
  | plain => exact follows_fail fun _ => FaultCause.noConfusion
  | scope parent => exact follows_fail fun _ => FaultCause.noConfusion
  | function name code =>
    cases code with
    | builtin b => exact follows_call b args
    | closure params body captured =>
      obtain ⟨hcaptured, hparams, hbody⟩ := ht.captured p name params body captured hn
      show G.Follows m (if args.length ≠ params.length then _ else _)
        (if (args.map G.value).length ≠ (params.map G.name).length
          then Eval.fail (.wrongArity name (params.map G.name).length (args.map G.value).length)
          else _) _
      rw [List.length_map, List.length_map]
      split
      · exact follows_fail fun _ => FaultCause.noConfusion
      · intro _
        let m' : Machine := { m with heap := m.heap.enter params captured receiver args }
        have hleads : G.Leads m m' :=
          ⟨ht.enter hcaptured hparams receiver args, m.heap.extends_enter params captured receiver args,
            rfl⟩
        have hframe : m'.heap.IsScope m.heap.next :=
          ⟨some captured, m.heap.nature_enter params captured receiver args⟩
        have hrun : G.Follows m' (do let _ ← recur m.heap.next (.block body))
            (do let _ ← recur (G.place m.heap.next) (.block (body.rename G.name))) Anything :=
          (hrec m.heap.next m' (.block body) hframe (Expr.all_block.mpr ⟨rfl, hbody⟩)).bind
            fun _ _ _ _ _ => follows_pure trivial
        have hends := (hrun.functionBody hleads.tame).trans hleads
        rw [← machine_heap m (heap_enter ht captured hparams receiver args), ← next_heap] at hends
        exact hends

/-! ### Constructs -/

theorem follows_step_block (hrec : G.Known recur) {body : Block} (hs : m.heap.IsScope scope)
    (he : (Expr.block body).all G.admits = true) :
    G.Follows m (Eval.step recur scope (.block body))
      (Eval.step recur (G.place scope) ((Expr.block body).rename G.name)) G.SameValue := by
  have hbody := (Expr.all_block.mp he).2
  simp only [Expr.rename, Eval.step]
  refine (follows_declare hs hbody).bind fun _ _ m₁ h₁ _ => ?_
  exact (follows_runBlock hrec (h₁.isScope hs) hbody).bind fun _ _ _ _ _ => follows_pure rfl

theorem follows_step_call (hrec : G.Known recur) {callee : Expr} {args : List Expr} {line : Int}
    (hs : m.heap.IsScope scope) (he : (Expr.call callee args line).all G.admits = true) :
    G.Follows m (Eval.step recur scope (.call callee args line))
      (Eval.step recur (G.place scope) ((Expr.call callee args line).rename G.name))
      G.SameValue := by
  simp only [Expr.all, Bool.and_eq_true] at he
  simp only [Expr.rename, Eval.step]
  refine (hrec scope m callee hs he.1.2).bind_value fun f m₁ h₁ => ?_
  have hsubject : G.Tame m₁.heap → (G.heap m₁.heap).describe (G.value f) = m₁.heap.describe f :=
    fun ht => describe_value ht.visible f
  refine (follows_expectFunction hsubject f).bind fun p p' m₂ h₂ hp => ?_
  obtain rfl := hp
  refine (follows_evalAll hrec (h₂.isScope (h₁.isScope hs)) he.2).bind fun vs vs' m₃ h₃ hvs => ?_
  obtain rfl := hvs
  exact follows_invoke hrec p .undefined vs

theorem follows_step_assign (hrec : G.Known recur) {name : String} {value : Expr} {declares : Bool}
    {line : Int} (hs : m.heap.IsScope scope)
    (he : (Expr.assign name value declares line).all G.admits = true) :
    G.Follows m (Eval.step recur scope (.assign name value declares line))
      (Eval.step recur (G.place scope) ((Expr.assign name value declares line).rename G.name))
      G.SameValue := by
  rw [Expr.all, Bool.and_eq_true] at he
  obtain ⟨hname, hvalue⟩ := he
  have hassign : ∀ m₁ : Machine, m.heap.Extends m₁.heap → G.Follows m₁
      (do let v ← recur scope value; Eval.bind scope name v; return v)
      (do let v ← recur (G.place scope) (value.rename G.name)
          Eval.bind (G.place scope) (G.name name) v; return v) G.SameValue := by
    intro m₁ h₁
    refine (hrec scope m₁ value (h₁.isScope hs) hvalue).bind_value fun v m₂ h₂ => ?_
    refine (follows_bind_scope (h₂.isScope (h₁.isScope hs)) hname v).bind fun _ _ _ _ _ => ?_
    exact follows_pure rfl
  simp only [Expr.rename, Eval.step]
  cases declares with
  | true => exact hassign m (.refl _)
  | false => exact (follows_resolve scope hname).bind fun _ _ m₁ h₁ _ => hassign m₁ h₁

theorem follows_step_function {name : String} {params : List String} {binds : Bool} {body : Block}
    {line : Int} (hs : m.heap.IsScope scope)
    (he : (Expr.function name params binds body line).all G.admits = true) :
    G.Follows m (Eval.step recur scope (.function name params binds body line))
      (Eval.step recur (G.place scope) ((Expr.function name params binds body line).rename G.name))
      G.SameValue := by
  rw [Expr.all, Bool.and_eq_true, admits, Bool.and_eq_true] at he
  obtain ⟨⟨hname, hparams⟩, hbody⟩ := he
  have hmake : G.Tame m.heap → G.Tame (m.heap.push ⟨.function name (.closure params body scope), []⟩) := by
    intro ht
    refine ht.push ?_ (List.forall_mem_nil _) ?_
    · rintro _ ⟨⟩
    · rintro _ _ _ _ ⟨⟩
      exact ⟨hs, hparams, hbody⟩
  simp only [Expr.rename, Eval.step]
  refine (follows_allocate hmake).bind fun p p' m₁ h₁ hp => ?_
  obtain rfl := hp
  cases binds with
  | false => exact follows_pure rfl
  | true =>
    refine (follows_bind_label scope hname (.ref p)).bind fun _ _ _ _ _ => ?_
    exact follows_pure rfl

theorem follows_step_choose (hrec : G.Known recur) {condition : Expr} {yes no : Block} {line : Int}
    (hs : m.heap.IsScope scope) (he : (Expr.choose condition yes no line).all G.admits = true) :
    G.Follows m (Eval.step recur scope (.choose condition yes no line))
      (Eval.step recur (G.place scope) ((Expr.choose condition yes no line).rename G.name))
      G.SameValue := by
  simp only [Expr.all, Bool.and_eq_true] at he
  obtain ⟨⟨⟨-, hcondition⟩, hyes⟩, hno⟩ := he
  simp only [Expr.rename, Eval.step]
  refine (hrec scope m condition hs hcondition).bind_value fun v m₁ h₁ => ?_
  rw [truth?_value]
  have hs₁ := h₁.isScope hs
  cases v.truth? with
  | none => exact follows_pure rfl
  | some taken =>
    cases taken with
    | true => exact (follows_runBlock hrec hs₁ hyes).bind fun _ _ _ _ _ => follows_pure rfl
    | false => exact (follows_runBlock hrec hs₁ hno).bind fun _ _ _ _ _ => follows_pure rfl

theorem follows_step_object (hrec : G.Known recur) {fields : List (String × Expr)} {line : Int}
    (hs : m.heap.IsScope scope) (he : (Expr.object fields line).all G.admits = true) :
    G.Follows m (Eval.step recur scope (.object fields line))
      (Eval.step recur (G.place scope) ((Expr.object fields line).rename G.name)) G.SameValue := by
  rw [Expr.all, Bool.and_eq_true] at he
  have hempty : G.SameSlots m.heap [] [] := ⟨rfl, List.forall_mem_nil _⟩
  simp only [Expr.rename, Eval.step]
  refine (follows_evalFields hrec hs he.1 he.2 hempty).bind fun s s' m₁ h₁ hslots => ?_
  obtain ⟨rfl, hnames⟩ := hslots
  have hmake : G.Tame m₁.heap → G.Tame (m₁.heap.push ⟨.plain, s⟩) := by
    intro ht
    refine ht.push ?_ hnames fun _ _ _ _ => Nature.noConfusion
    rintro _ ⟨⟩
  refine (follows_allocate hmake).bind fun p p' m₂ h₂ hp => ?_
  obtain rfl := hp
  exact follows_pure rfl

theorem follows_step_field (hrec : G.Known recur) {receiver : Expr} {name : String} {line : Int}
    (hs : m.heap.IsScope scope) (he : (Expr.field receiver name line).all G.admits = true) :
    G.Follows m (Eval.step recur scope (.field receiver name line))
      (Eval.step recur (G.place scope) ((Expr.field receiver name line).rename G.name))
      G.SameValue := by
  rw [Expr.all, Bool.and_eq_true] at he
  simp only [Expr.rename, Eval.step]
  refine (hrec scope m receiver hs he.2).bind_value fun v m₁ h₁ => ?_
  refine (follows_expectObject v).bind fun p p' m₂ h₂ hp => ?_
  obtain ⟨-, rfl⟩ := hp
  refine Follows.heap fun ht => ?_
  rw [member_heap ht p he.1]
  exact follows_pure rfl

theorem follows_step_setField (hrec : G.Known recur) {receiver value : Expr} {name : String}
    {line : Int} (hs : m.heap.IsScope scope)
    (he : (Expr.setField receiver name value line).all G.admits = true) :
    G.Follows m (Eval.step recur scope (.setField receiver name value line))
      (Eval.step recur (G.place scope) ((Expr.setField receiver name value line).rename G.name))
      G.SameValue := by
  simp only [Expr.all, Bool.and_eq_true] at he
  obtain ⟨⟨hname, hreceiver⟩, hvalue⟩ := he
  simp only [Expr.rename, Eval.step]
  refine (hrec scope m receiver hs hreceiver).bind_value fun o m₁ h₁ => ?_
  refine (follows_expectObject o).bind fun p p' m₂ h₂ hp => ?_
  obtain ⟨-, rfl⟩ := hp
  refine (hrec scope m₂ value (h₂.isScope (h₁.isScope hs)) hvalue).bind_value fun v m₃ h₃ => ?_
  refine (follows_bind_label p hname v).bind fun _ _ _ _ _ => ?_
  exact follows_pure rfl

theorem follows_step_method (hrec : G.Known recur) {receiver : Expr} {name : String}
    {args : List Expr} {line : Int} (hs : m.heap.IsScope scope)
    (he : (Expr.method receiver name args line).all G.admits = true) :
    G.Follows m (Eval.step recur scope (.method receiver name args line))
      (Eval.step recur (G.place scope) ((Expr.method receiver name args line).rename G.name))
      G.SameValue := by
  simp only [Expr.all, Bool.and_eq_true] at he
  obtain ⟨⟨hname, hreceiver⟩, hargs⟩ := he
  simp only [Expr.rename, Eval.step]
  refine (hrec scope m receiver hs hreceiver).bind_value fun o m₁ h₁ => ?_
  refine (follows_expectObject o).bind fun p p' m₂ h₂ hp => ?_
  obtain ⟨-, rfl⟩ := hp
  refine Follows.heap fun ht => ?_
  rw [member_heap ht p hname]
  have hsubject : ∀ v, G.Tame m₂.heap → name ++ " (" ++ (G.heap m₂.heap).describe (G.value v) ++ ")" =
      name ++ " (" ++ m₂.heap.describe v ++ ")" := by
    intro v ht
    rw [describe_value ht.visible]
  refine (follows_expectFunction (hsubject _) _).bind fun f f' m₃ h₃ hf => ?_
  obtain rfl := hf
  have hs₃ := h₃.isScope (h₂.isScope (h₁.isScope hs))
  refine (follows_evalAll hrec hs₃ hargs).bind fun vs vs' m₄ h₄ hvs => ?_
  obtain rfl := hvs
  exact follows_invoke hrec f o vs

/-- A construct follows in its guise if evaluation of its parts does. -/
theorem follows_step (hrec : G.Known recur) {e : Expr} (hs : m.heap.IsScope scope)
    (he : e.all G.admits = true) : G.Follows m (Eval.step recur scope e)
      (Eval.step recur (G.place scope) (e.rename G.name)) G.SameValue := by
  cases e with
  | block body => exact follows_step_block hrec hs he
  | literal value line =>
    refine follows_pure ?_
    cases value <;> rfl
  | identifier name line => exact follows_resolve scope he
  | call callee args line => exact follows_step_call hrec hs he
  | assign name value declares line => exact follows_step_assign hrec hs he
  | function name params binds body line => exact follows_step_function hs he
  | returns value line =>
    rw [Expr.all, Bool.and_eq_true] at he
    simp only [Expr.rename, Eval.step]
    refine (hrec scope m value hs he.2).bind_value fun v m₁ h₁ => ?_
    exact follows_return v
  | choose condition yes no line => exact follows_step_choose hrec hs he
  | object fields line => exact follows_step_object hrec hs he
  | field receiver name line => exact follows_step_field hrec hs he
  | setField receiver name value line => exact follows_step_setField hrec hs he
  | method receiver name args line => exact follows_step_method hrec hs he

/-- **Evaluation follows in its guise**, in every scope and at every depth. -/
theorem follows_eval (G : Guise) (depth : Nat) : G.Known (eval depth) := by
  induction depth with
  | zero => exact fun _ _ _ _ _ ht => .tooDeep (.refl ht)
  | succ depth ih =>
    intro scope m e hs he
    rw [eval, eval, Expr.line_rename]
    exact (follows_step ih hs he).locate e.line

/-! ### Scripts and entries -/

theorem follows_lastValue (hrec : G.Known recur) {es : List Expr} {v : Value}
    (hs : m.heap.IsScope scope) (hes : allIn G.admits es = true) :
    G.Follows m (lastValue (recur scope) v es)
      (lastValue (recur (G.place scope)) (G.value v) (renameAll G.name es)) G.SameValue := by
  induction es generalizing m v with
  | nil => exact follows_pure rfl
  | cons e es ih =>
    rw [allIn, Bool.and_eq_true] at hes
    refine (hrec scope m e hs hes.1).bind_value fun v m₁ h₁ => ?_
    exact ih (h₁.isScope hs) hes.2

/-- The second outcome is the first one in its guise, and the first one is as it may be. -/
structure Agree (G : Guise) (m : Machine) (f : α → β) (o : Outcome α) (o' : Outcome β) : Prop where
  /-- Both have a value, or fail for the same reason on the same line. -/
  result : o'.1 = (o.1.map f).mapError (Failure.rename G.name)
  /-- The machine afterwards is the same. -/
  machine : o'.2 = G.machine o.2
  /-- The first machine afterwards is as it may be. -/
  leads : G.Leads m o.2

/-- Constructs that are run to their end do the same in their guise. -/
theorem agree_execute (depth : Nat) {e : Expr} (ht : G.Tame m.heap) (hs : m.heap.IsScope scope)
    (he : e.all G.admits = true) :
    G.Agree m G.value (execute depth scope e m)
      (execute depth (G.place scope) (e.rename G.name) (G.machine m)) := by
  have hends := G.follows_eval depth scope m e hs he ht
  unfold execute
  generalize eval depth scope e m = r,
    eval depth (G.place scope) (e.rename G.name) (G.machine m) = r' at hends
  cases hends with
  | ok hl hv => exact ⟨congrArg Except.ok hv, rfl, hl⟩
  | returned hl => exact ⟨rfl, rfl, hl⟩
  | failed hl => exact ⟨rfl, rfl, hl⟩
  | tooDeep hl => exact ⟨rfl, rfl, hl⟩

theorem isSilent_rename (f : String → String) (body : Block) :
    (body.rename f).isSilent = body.isSilent := by
  have hexpr : ∀ e : Expr, (e.rename f).isSilent = e.isSilent := by
    intro e
    cases e <;> rfl
  obtain ⟨statements, line⟩ := body
  simp only [Block.rename, Block.isSilent, Block.statements, renameAll_eq_map, List.getLast?_map]
  cases statements.getLast? with
  | none => rfl
  | some e => exact hexpr e

/-- What an entry answers, in its guise. -/
def reply (G : Guise) (r : Reply) : Reply := ⟨G.value r.value, r.silent⟩

/-- Entries do the same in their guise. -/
theorem agree_runBody (depth : Nat) {body : Block} (ht : G.Tame m.heap) (hs : m.heap.IsScope scope)
    (hbody : body.all G.admits = true) :
    G.Agree m G.reply (runBody depth scope body m)
      (runBody depth (G.place scope) (body.rename G.name) (G.machine m)) := by
  have hrun : G.Follows m
      (do Eval.declare scope body.declared
          lastValue (eval depth scope) .undefined body.statements)
      (do Eval.declare (G.place scope) (body.rename G.name).declared
          lastValue (eval depth (G.place scope)) .undefined (body.rename G.name).statements)
      G.SameValue := by
    refine (follows_declare hs hbody).bind fun _ _ m₁ h₁ _ => ?_
    obtain ⟨statements, line⟩ := body
    exact follows_lastValue (G.follows_eval depth) (h₁.isScope hs) hbody
  have hends := hrun ht
  unfold runBody
  dsimp only
  rw [isSilent_rename]
  generalize (do
      Eval.declare scope body.declared
      lastValue (eval depth scope) .undefined body.statements : Eval Value) m = r,
    (do
      Eval.declare (G.place scope) (body.rename G.name).declared
      lastValue (eval depth (G.place scope)) .undefined
        (body.rename G.name).statements : Eval Value) (G.machine m) = r' at hends
  cases hends with
  | ok hl hv =>
    obtain rfl := hv
    exact ⟨rfl, rfl, hl⟩
  | returned hl => exact ⟨rfl, rfl, hl⟩
  | failed hl => exact ⟨rfl, rfl, hl⟩
  | tooDeep hl => exact ⟨rfl, rfl, hl⟩

end Guise

end Scriptlet
