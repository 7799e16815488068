import Scriptlet.Proofs.Evaluation.Persistence
import Scriptlet.Proofs.Session.Entries

/-!
# Bindings in sessions

A session comes from one machine to a later one by running constructs and entries, to whatever end or only
up to some moment, by binding what is declared, and by making fresh global scopes. On the way no object loses
a name, no name changes its place, and a name that is found from an object is found from it ever after.

## What is proved

* `Machine.Later.retains`: the heap of a later machine retains that of the one before.
* `Machine.later_eval`, `Machine.later_runSource`, `Machine.later_submit`: evaluation, scripts and entries
  lead to later machines.
* `Machine.bindings_stay`: bindings are never lost or moved.
-/

namespace Scriptlet

/-! ### Moments of runs -/

/-- What can be run. -/
inductive Task where
  /-- A construct, in a scope. -/
  | construct (scope : Loc) (e : Expr)
  /-- The statements of an entry, in a scope. -/
  | entry (scope : Loc) (body : Block)

/-- Runs until a machine comes up at which to stop, before or after a construct. -/
def Task.until (stop : Loc → Expr → Machine → Bool) (depth : Nat) : Task → Eval Value
  | construct scope e => evalUntil stop depth scope e
  | entry scope body => do
    Eval.declare scope body.declared
    lastValue (evalUntil stop depth scope) .undefined body.statements

namespace Task

/-- The machine at the moment at which a run stops. -/
def moment (stop : Loc → Expr → Machine → Bool) (depth : Nat) (task : Task) (m : Machine) : Machine :=
  Eval.after (task.until stop depth) m

/-- The machine at the end of a run. -/
def ending (depth : Nat) (task : Task) (m : Machine) : Machine :=
  task.moment (fun _ _ _ => false) depth m

variable {stop stop' : Loc → Expr → Machine → Bool} {depth : Nat} {m : Machine}

theorem retains_moment (task : Task) : m.heap.Retains (task.moment stop depth m).heap := by
  cases task with
  | construct scope e =>
    exact ((retention.keeps_evalUntil stop depth scope m e trivial).leads_after trivial).change
  | entry scope body =>
    have hkeeps : retention.Keeps scope m ((entry scope body).until stop depth) fun _ _ => True :=
      Discipline.keeps_entry (retention.keeps_evalUntil stop depth) trivial fun _ _ _ _ => trivial
    exact (hkeeps.leads_after trivial).change

theorem isCut_until (h : ∀ scope e m, stop' scope e m = true → stop scope e m = true) (task : Task) :
    IsCut (task.until stop depth) (task.until stop' depth) := by
  cases task with
  | construct scope e => exact isCut_evalUntil h depth scope e
  | entry scope body =>
    exact (cutting.bindAll scope _).bind fun _ =>
      cutting.lastValue (isCut_evalUntil h depth scope) _ _

/-- From a moment of a run to a later one, the heap retains what there is. -/
theorem retains_of_moments (h : ∀ scope e m, stop' scope e m = true → stop scope e m = true)
    (task : Task) :
    (task.moment stop depth m).heap.Retains (task.moment stop' depth m).heap where
  toExtends := (isCut_until h task).extends_after m
  nodup place hd :=
    -- names that are different at the first moment were so before the run, and it keeps them so
    (task.retains_moment).nodup place (task.retains_moment.toExtends.nodup_of_nodup hd)

theorem ending_construct (scope : Loc) (e : Expr) :
    (construct scope e).ending depth m = Eval.after (eval depth scope e) m := by
  rw [ending, moment, Task.until, evalUntil_never]

theorem ending_entry (scope : Loc) (body : Block) :
    (entry scope body).ending depth m = (runBody depth scope body m).2 := by
  rw [ending, moment, Task.until, evalUntil_never]
  unfold runBody Eval.after
  dsimp only
  cases (do
      Eval.declare scope body.declared
      lastValue (eval depth scope) .undefined body.statements : Eval Value) m with
  | ok v m' => rfl
  | error abrupt m' => cases abrupt <;> rfl

end Task

/-! ### Later machines -/

namespace Machine

/-- A machine that a session comes to later. -/
inductive Later : Machine → Machine → Prop where
  /-- Something is run, to its end or up to some moment. -/
  | run (task : Task) (depth : Nat) (stop : Loc → Expr → Machine → Bool) (m : Machine) :
    Later m (task.moment stop depth m)
  /-- Of two moments of a run, the later one stops at nothing that the earlier one does not stop at. -/
  | goesOn (task : Task) (depth : Nat) {stop stop' : Loc → Expr → Machine → Bool} (m : Machine) :
    (∀ scope e m, stop' scope e m = true → stop scope e m = true) →
      Later (task.moment stop depth m) (task.moment stop' depth m)
  /-- What a construct declares is bound. -/
  | declared (scope : Loc) (e : Expr) (m : Machine) :
    Later m { m with heap := m.heap.bindAll scope (e.declared.map fun name => (name, .undefined)) }
  /-- A fresh global scope is made. -/
  | reset (m : Machine) : Later m m.reset
  /-- The heap stays as it is. -/
  | aside {m m' : Machine} : m'.heap = m.heap → Later m m'
  /-- One thing comes after the other. -/
  | trans {m m' m'' : Machine} : Later m m' → Later m' m'' → Later m m''

variable {m m' : Machine} {depth : Nat}

/-- **The heap of a later machine retains that of the one before.** -/
theorem Later.retains (h : m.Later m') : m.heap.Retains m'.heap := by
  induction h with
  | run task depth stop m => exact task.retains_moment
  | goesOn task depth m hstop => exact Task.retains_of_moments hstop task
  | declared scope e m => exact Heap.retains_bindAll m.heap scope _
  | reset m => exact Heap.retains_createGlobals m.heap
  | aside hheap => exact hheap ▸ .refl _
  | trans _ _ ih ih' => exact ih.trans ih'

theorem Later.congr {m'' : Machine} (h : m.Later m') (hheap : m''.heap = m'.heap) : m.Later m'' :=
  h.trans (.aside hheap)

theorem later_eval (depth : Nat) (scope : Loc) (e : Expr) (m : Machine) :
    m.Later (Eval.after (eval depth scope e) m) := by
  rw [← Task.ending_construct]
  exact .run _ _ _ m

theorem later_runSource (depth : Nat) (scope : Loc) (source : String) (m : Machine) :
    m.Later (runSource depth scope source m).2 := by
  unfold runSource
  split
  · exact .aside rfl
  · next script _ =>
    have hmachine : (execute depth scope (.block script.body) m).2 =
        Eval.after (eval depth scope (.block script.body)) m := by
      unfold execute Eval.after
      cases eval depth scope (.block script.body) m with
      | ok v m' => rfl
      | error abrupt m' => cases abrupt <;> rfl
    rw [hmachine]
    exact later_eval depth scope _ m

theorem later_runEntry (depth : Nat) (scope : Loc) (source : String) (m : Machine) :
    m.Later (runEntry depth scope source m).2 := by
  unfold runEntry
  split
  · exact .aside rfl
  · rw [← Task.ending_entry]
    exact .run _ _ _ m

theorem later_submit (depth : Nat) (text : String) (m : Machine) :
    m.Later (Session.submit depth text m) := by
  rcases Session.submit_cases depth text m with h | ⟨command, -, h⟩ | ⟨-, h⟩
  · rw [h]
    exact .aside rfl
  · rw [h]
    cases command with
    | reset => exact (Later.reset m).congr rfl
    | _ => exact .aside rfl
  · rw [h]
    exact (later_runEntry depth m.root _ m).congr (Session.tells_answer _).heap

/-! ### Bindings -/

/-- A literal of an object puts a new object on the heap, with the fields in the order in which they come up
first. -/
theorem exists_of_eval_object {depth : Nat} {scope : Loc} {fields : List (String × Expr)} {line : Int}
    {v : Value} (h : eval depth scope (.object fields line) m = .ok v m') :
    ∃ place, v = .ref place ∧ m.heap.next ≤ place ∧ (m'.heap.get place).nature = .plain ∧
      (m'.heap.get place).slots.names = (fields.map Prod.fst).eraseDups := by
  obtain ⟨depth, rfl⟩ : ∃ d, depth = d + 1 := by
    cases depth with
    | zero => cases h
    | succ depth => exact ⟨depth, rfl⟩
  rw [eval, Eval.locate_eq_ok_iff, Eval.step] at h
  obtain ⟨slots, m₁, hfields, h⟩ := Eval.bind_eq_ok_iff.mp h
  cases h
  have hkeeps : growth.Keeps scope m (Eval.evalFields (eval depth scope) [] fields) growth.Collected :=
    Discipline.keeps_evalFields (growth.keeps_eval depth) (fun _ _ => trivial)
      ⟨List.nodup_nil, List.forall_mem_nil _⟩
  have hleads := hkeeps.leads_of_ok trivial hfields
  have hget : (m₁.heap.push ⟨.plain, slots⟩).get m₁.heap.next = ⟨.plain, slots⟩ :=
    m₁.heap.get_push_self _
  refine ⟨m₁.heap.next, rfl, hleads.change.next_le, congrArg Object.nature hget, ?_⟩
  have hnames : slots.names = ([] ++ fields.map Prod.fst).eraseDups := names_evalFields rfl hfields
  exact (congrArg (fun o : Object => o.slots.names) hget).trans hnames

/-- **Bindings are never lost or moved.** Evaluation of a construct in a scope, a script, and an entry of a
session lead to a later machine, however they end. From any machine to a later one, also from one moment of
a run to another:

* the names that an object had come first among those that it has, in their order;
* names that were different still are, and those in a new object are;
* a name that was found from an object is found from it;
* a plain object shows its fields in the order in which they were bound first: those that it had, and behind
  them those that were bound since. In a new one they are in the order in which they come up first. -/
theorem bindings_stay (m : Machine) :
    (∀ depth scope e, m.Later (Eval.after (eval depth scope e) m)) ∧
    (∀ depth scope source, m.Later (runSource depth scope source m).2) ∧
    (∀ depth text, m.Later (Session.submit depth text m)) ∧
    (∀ depth scope fields line v m', eval depth scope (.object fields line) m = .ok v m' →
      ∃ place, v = .ref place ∧ m.heap.next ≤ place ∧ (m'.heap.get place).nature = .plain ∧
        (m'.heap.get place).slots.names = (fields.map Prod.fst).eraseDups) ∧
    ∀ m', m.Later m' →
      (∀ place, (m.heap.get place).slots.names <+: (m'.heap.get place).slots.names) ∧
      (∀ place, (m.heap.get place).slots.names.Nodup → (m'.heap.get place).slots.names.Nodup) ∧
      (∀ scope name, (m.heap.lookup? scope name).isSome → (m'.heap.lookup? scope name).isSome) ∧
      ∀ place, place < m.heap.next → (m.heap.get place).nature = .plain →
        ∃ kept added : Slots, kept.names = (m.heap.get place).slots.names ∧
          m'.heap.render place = "\x7b" ++
            String.intercalate ", " ((kept ++ added).map (m'.heap.fieldText place)) ++ "\x7d" := by
  refine ⟨fun depth scope e => later_eval depth scope e m,
    fun depth scope source => later_runSource depth scope source m,
    fun depth text => later_submit depth text m,
    fun _ _ _ _ _ _ h => exists_of_eval_object h, fun m' hlater => ?_⟩
  have hretains := hlater.retains
  refine ⟨hretains.names_prefix, hretains.nodup, fun _ _ => hretains.isSome_lookup?, ?_⟩
  intro place hp hn
  obtain ⟨kept, added, hslots, hkept⟩ := Slots.exists_append_of_prefix (hretains.names place hp)
  refine ⟨kept, added, hkept, ?_⟩
  rw [Heap.render_plain ((hretains.nature place hp).trans hn), hslots]

/-- The machine after an object with the fields `b` and `a` has been made, a field `c` has been set, and a name
without a value has been come upon. -/
def afterMissing : Machine :=
  let fields : List (String × Expr) :=
    [("b", .literal (.int 1) 1), ("a", .literal (.int 2) 1), ("b", .literal (.int 3) 1)]
  let statements : List Expr :=
    [.assign "o" (.object fields 1) true 1,
      .setField (.identifier "o" 2) "c" (.literal (.int 4) 2) 2, .identifier "missing" 3]
  Eval.after (eval 5 Heap.globals (.block ⟨statements, 1⟩)) (.start false)

/-- After its failure, setting `d` and then `a` leaves `o` and the fields of its object where they are. -/
theorem bindings_stay_afterMissing :
    let set : Expr := .block ⟨[.setField (.identifier "o" 4) "d" (.literal (.int 5) 4) 4,
      .setField (.identifier "o" 5) "a" (.literal (.int 6) 5) 5], 4⟩
    let m := Eval.after (eval 5 Heap.globals set) afterMissing
    (afterMissing.Later m ∧ 13 < afterMissing.heap.next ∧
      (afterMissing.heap.get 13).nature = .plain ∧
      (afterMissing.heap.get 13).slots.names = ["b", "a", "c"]) ∧
    (m.heap.get 13).slots.names.Nodup ∧ (m.heap.lookup? Heap.globals "o").isSome ∧
    ∃ kept added : Slots, kept.names = ["b", "a", "c"] ∧
      m.heap.render 13 = "\x7b" ++
        String.intercalate ", " ((kept ++ added).map (m.heap.fieldText 13)) ++ "\x7d" := by
  intro set m
  obtain ⟨heval, -, -, -, hkept⟩ := bindings_stay afterMissing
  have hlater : afterMissing.Later m := heval 5 Heap.globals set
  obtain ⟨-, hnodup, hfound, hshown⟩ := hkept m hlater
  have hlt : 13 < afterMissing.heap.next := by decide
  have hplain : (afterMissing.heap.get 13).nature = .plain := rfl
  have hnames : (afterMissing.heap.get 13).slots.names = ["b", "a", "c"] := by decide
  refine ⟨⟨hlater, hlt, hplain, hnames⟩, hnodup 13 (by rw [hnames]; decide), ?_, ?_⟩
  · exact hfound Heap.globals "o" (by decide)
  · obtain ⟨kept, added, hnames', hrender⟩ := hshown 13 hlt hplain
    exact ⟨kept, added, hnames'.trans hnames, hrender⟩

end Machine

end Scriptlet
