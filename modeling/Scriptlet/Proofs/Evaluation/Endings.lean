import Scriptlet.Proofs.Evaluation.Progress

/-!
# Ending midway

A construct can end before all of its parts have been evaluated: because one of them ends abruptly, or because
a check of its own fails in between. Either way what is left of it does not happen. The parts that would come
next are never evaluated, no function is called, and the machine is as the last part left it. A failure gets
the line of the construct if it has none.

That a part is not evaluated is said by how the end depends on it: not at all. Whatever an evaluation does that
does the same with the parts that come up, the construct ends in the same way.

## What is proved

* `Progress.endsAfter_of_part`, `Progress.endsAfter_of_refusal`: a construct ends where a part or a check
  makes it end.
* `Invokes.endsAfter_of_arity`: the number of arguments is checked when all of them have values.
* `abrupt_end_cuts_through`: the abrupt end of a part is the end of every construct.
* `failed_check_has_no_effect`: where the checks of each construct stand among its parts.
-/

namespace Scriptlet

open Eval

/-! ### Ends -/

/-- An abrupt end, as a construct on a line hands it on: a failure gets the line if it has none. -/
def Abrupt.located (line : Int) : Abrupt → Abrupt
  | failed fault => failed (fault.locate line)
  | returned v => returned v
  | tooDeep => tooDeep

theorem Eval.locate_of_error {x : Eval Value} {m m' : Machine} {abrupt : Abrupt} (line : Int)
    (h : x m = .error abrupt m') : locate line x m = .error (abrupt.located line) m' := by
  rw [locate, h]
  cases abrupt <;> rfl

/-- A construct ends abruptly when a number of its parts have been come to. -/
structure EndsAfter (depth : Nat) (scope : Loc) (e : Expr) (m : Machine) (count : Nat) (abrupt : Abrupt)
    (m' : Machine) : Prop where
  /-- This is how it ends. -/
  outcome : eval (depth + 1) scope e m = .error (abrupt.located e.line) m'
  /-- Only so many parts come up. -/
  few : ∀ vs part m₁, Progress (eval depth) scope e (m.prepared scope e) vs m₁ →
    e.Awaits m₁.heap scope vs part → vs.length < count
  /-- What anything else does makes no difference. -/
  settled : ∀ recur, Agrees (eval depth) recur scope e (m.prepared scope e) →
    step recur scope e m = .error abrupt m'

section Ends

variable {depth : Nat} {scope : Loc} {e : Expr} {m m₁ m₂ : Machine} {vs : List Value} {part : Part}
  {abrupt : Abrupt} {cause : FaultCause}

/-- How a construct ends is settled by the parts that come up. -/
theorem EndsAfter.of_settled {count : Nat}
    (few : ∀ vs part m₁, Progress (eval depth) scope e (m.prepared scope e) vs m₁ →
      e.Awaits m₁.heap scope vs part → vs.length < count)
    (settled : ∀ recur, Agrees (eval depth) recur scope e (m.prepared scope e) →
      step recur scope e m = .error abrupt m₁) : EndsAfter depth scope e m count abrupt m₁ where
  outcome := locate_of_error e.line (settled (eval depth) fun _ _ _ _ _ => rfl)
  few := few
  settled := settled

/-- **A construct ends where one of its parts does.** -/
theorem Progress.endsAfter_of_part (h : Progress (eval depth) scope e (m.prepared scope e) vs m₁)
    (ha : e.Awaits m₁.heap scope vs part) (hpart : part.run (eval depth) scope m₁ = .error abrupt m₂) :
    EndsAfter depth scope e m (vs.length + 1) abrupt m₂ := by
  refine .of_settled (fun _ _ _ h' _ => Nat.lt_succ_of_le (h.length_le_of_part ha hpart h'))
    fun recur hagrees => ?_
  -- an evaluation that does the same with the parts comes to the same part, on the same machine
  obtain ⟨x, hx, hstep⟩ := exists_goesOn recur scope e
  rw [hstep, (h.congr hagrees).eq_of_part hx ha ((hagrees h ha).trans hpart)]

/-- **A construct ends where one of its checks fails.** -/
theorem Progress.endsAfter_of_refusal (h : Progress (eval depth) scope e (m.prepared scope e) vs m₁)
    (hcause : e.refusal? m₁.heap scope vs = some cause) :
    EndsAfter depth scope e m vs.length (.failed ⟨cause, none⟩) m₁ := by
  have hstuck : ∀ part, ¬e.Awaits m₁.heap scope vs part := by
    intro part ha
    have hnone := ha.unrefused
    rw [hcause] at hnone
    cases hnone
  refine .of_settled (fun ws part m' h' ha => ?_) fun recur hagrees => ?_
  · -- a part that comes up with as many values would have passed the check that fails
    refine Nat.lt_of_le_of_ne (h.length_le_of_stuck (fun part v m'' ha => absurd ha (hstuck part)) h') ?_
    intro heq
    obtain ⟨rfl, rfl⟩ := h.unique h' heq.symm
    exact hstuck part ha
  · obtain ⟨x, hx, hstep⟩ := exists_goesOn recur scope e
    rw [hstep, (h.congr hagrees).eq_of_refusal hx hcause]

/-- A block that runs in place ends where one of its statements does. -/
theorem Progress.runBlock_eq_error {recur : Recur} {body : Block}
    (h : Progress recur scope (.block body) m vs m₁)
    (ha : (Expr.block body).Awaits m₁.heap scope vs part)
    (hpart : part.run recur scope m₁ = .error abrupt m₂) :
    runBlock (recur scope) body m = .error abrupt m₂ :=
  bind_pure_eq_error_iff.mp (h.eq_of_part (goesOn_runBlock recur scope body) ha hpart)

end Ends

/-! ### Calls -/

section Calls

variable {recur recur' : Recur} {depth : Nat} {scope place : Loc} {e : Expr} {m m' : Machine}
  {receiver : Value} {args : List Value}

/-- A call that gets as far as to call a function has the values of all its parts. -/
theorem Invokes.exists_progress (h : Invokes recur scope e m place receiver args m') :
    ∃ first, Progress recur scope e (m.prepared scope e) (first :: args) m' ∧
      (first :: args).length = e.operands.length := by
  cases h with
  | @call callee es line _ m₁ _ _ _ hcallee hfunction hargs =>
    have hfirst : Progress recur scope (.call callee es line) m [.ref place] m₁ :=
      .next .start ⟨rfl, rfl⟩ hcallee
    have hfree := Heap.notFunction?_eq_none.mpr hfunction
    exact ⟨_, hfirst.evalAll (.call callee es line scope _) hfree hargs,
      congrArg (· + 1) (length_of_evalAll hargs)⟩
  | @method object name es line _ m₁ _ place _ _ hreceiver hmember hfunction hargs =>
    have hfirst : Progress recur scope (.method object name es line) m [.ref _] m₁ :=
      .next .start ⟨rfl, rfl⟩ hreceiver
    have hfree := Heap.notMethod?_eq_none.mpr ⟨_, rfl, hmember ▸ hfunction⟩
    exact ⟨_, hfirst.evalAll (.method object name es line scope _) hfree hargs,
      congrArg (· + 1) (length_of_evalAll hargs)⟩

/-- Nothing but its parts decides which function a call calls, and with what. -/
theorem Invokes.congr (hagrees : Agrees recur recur' scope e (m.prepared scope e))
    (h : Invokes recur scope e m place receiver args m') :
    Invokes recur' scope e m place receiver args m' := by
  cases h with
  | @call callee es line _ m₁ _ _ _ hcallee hfunction hargs =>
    have hstart : (Expr.call callee es line).Awaits m.heap scope [] (.operand callee) := ⟨rfl, rfl⟩
    have hfree := Heap.notFunction?_eq_none.mpr hfunction
    have hrow := hagrees.evalAll_eq (.next .start hstart hcallee)
      (.call callee es line scope _) hfree
    exact .call ((hagrees .start hstart).trans hcallee) hfunction (hrow.trans hargs)
  | @method object name es line _ m₁ _ _ place _ hreceiver hmember hfunction hargs =>
    have hstart : (Expr.method object name es line).Awaits m.heap scope [] (.operand object) :=
      ⟨rfl, rfl⟩
    have hfree := Heap.notMethod?_eq_none.mpr ⟨_, rfl, hmember ▸ hfunction⟩
    have hrow := hagrees.evalAll_eq (.next .start hstart hreceiver)
      (.method object name es line scope _) hfree
    exact .method ((hagrees .start hstart).trans hreceiver) hmember hfunction (hrow.trans hargs)

/-- A call that calls a function has no more parts than its operands. -/
theorem Invokes.length_lt (h : Invokes recur scope e m place receiver args m') {vs : List Value}
    {part : Part} (hnext : e.part? vs = some part) : vs.length < e.operands.length := by
  have hsome : e.operands[vs.length]?.map .operand = some part := by
    cases h <;> exact hnext
  obtain ⟨operand, hoperand, -⟩ := Option.map_eq_some_iff.mp hsome
  exact (List.getElem?_eq_some_iff.mp hoperand).1

/-- A call that has a part left calls nothing where that part ends it. -/
theorem Progress.not_invokes {vs : List Value} {part : Part} {abrupt : Abrupt} {m₁ m₂ : Machine}
    (h : Progress recur scope e (m.prepared scope e) vs m₁) (ha : e.Awaits m₁.heap scope vs part)
    (hpart : part.run recur scope m₁ = .error abrupt m₂) :
    ¬Invokes recur scope e m place receiver args m' := by
  intro hi
  -- a call that calls a function has the values of all operands, one more than there are here
  obtain ⟨first, hall, hlength⟩ := hi.exists_progress
  have hlt := hi.length_lt ha.next
  have hle := h.length_le_of_part ha hpart hall
  omega

/-- The function at a place takes a number of arguments. -/
inductive Heap.Expects (h : Heap) (place : Loc) : String → Nat → Prop where
  /-- A function of the script takes as many as it has parameters. -/
  | closure {name : String} {params : List String} {body : Block} {captured : Loc} :
    (h.get place).nature = .function name (.closure params body captured) →
      Heap.Expects h place name params.length
  /-- An operator takes two. -/
  | operator {name : String} {o : Operator} :
    (h.get place).nature = .function name (.builtin (.operator o)) → Heap.Expects h place o.sign 2

theorem Heap.Expects.invoke_eq {name : String} {expected : Nat} (h : m.heap.Expects place name expected)
    (hlength : args.length ≠ expected) :
    invoke recur place receiver args m =
      .error (.failed ⟨.wrongArity name expected args.length, none⟩) m := by
  cases h with
  | closure hn => exact invoke_wrongArity hn hlength
  | operator hn =>
    rw [invoke_builtin hn]
    match args, hlength with
    | [], _ => rfl
    | [_], _ => rfl
    | [_, _], hlength => exact absurd rfl hlength
    | _ :: _ :: _ :: _, _ => rfl

/-- **The number of arguments is checked when all of them have values**, and before anything else is done. -/
theorem Invokes.endsAfter_of_arity {name : String} {expected : Nat}
    (h : Invokes (eval depth) scope e m place receiver args m')
    (hexpects : m'.heap.Expects place name expected) (hlength : args.length ≠ expected) :
    EndsAfter depth scope e m e.operands.length (.failed ⟨.wrongArity name expected args.length, none⟩)
      m' :=
  .of_settled (fun _ _ _ _ ha => h.length_lt ha.next) fun recur hagrees => by
    rw [(h.congr hagrees).step_eq, hexpects.invoke_eq hlength]

end Calls

/-! ### The two results -/

/-- **An abrupt end cuts through every construct.** When the first parts of a construct have had values, no
check has failed, and the next part ends abruptly, then the construct ends in the same way, but for the line
that a failure may get. No later part is evaluated, and nothing that is no part of it has been: no function is
called. The machine is as the part left it. A block that runs in place does the same, without adding a
line. -/
theorem abrupt_end_cuts_through {depth : Nat} {scope : Loc} {e : Expr} {m m₁ m₂ : Machine}
    {vs : List Value} {part : Part} {abrupt : Abrupt}
    (hprogress : Progress (eval depth) scope e (m.prepared scope e) vs m₁)
    (hnext : e.Awaits m₁.heap scope vs part)
    (hpart : part.run (eval depth) scope m₁ = .error abrupt m₂) :
    EndsAfter depth scope e m (vs.length + 1) abrupt m₂ ∧
      (∀ place receiver args m', ¬Invokes (eval depth) scope e m place receiver args m') ∧
      ∀ body m₀, e = .block body → Progress (eval depth) scope e m₀ vs m₁ →
        runBlock (eval depth scope) body m₀ = .error abrupt m₂ := by
  refine ⟨hprogress.endsAfter_of_part hnext hpart,
    fun _ _ _ _ => hprogress.not_invokes hnext hpart, ?_⟩
  rintro body m₀ rfl hplace
  exact hplace.runBlock_eq_error hnext hpart

/-- A function returns from within the arguments of a call: `print(x = 3, return x, y = 4)`, if it could be
written. -/
def returningArgument : Expr :=
  .call (.identifier "print" 1) [.assign "x" (.literal (.int 3) 1) true 1,
    .returns (.identifier "x" 1) 1, .assign "y" (.literal (.int 4) 1) true 1] 1

/-- The first argument has bound `x` when the second one returns, and neither `y` is bound nor anything
printed. -/
theorem abrupt_end_cuts_through_returningArgument :
    let m := Machine.start false
    let m₁ := { m with heap := m.heap.bind Heap.globals "x" (.int 3) }
    let print := (m.heap.lookup? Heap.globals "print").getD .undefined
    Progress (eval 2) Heap.globals returningArgument m [print, .int 3] m₁ ∧
      EndsAfter 2 Heap.globals returningArgument m 3 (.returned (.int 3)) m₁ := by
  intro m m₁ print
  have hcallee : Progress (eval 2) Heap.globals returningArgument m [print] m :=
    .next .start ⟨rfl, rfl⟩ rfl
  have hfirst : Progress (eval 2) Heap.globals returningArgument m [print, .int 3] m₁ :=
    hcallee.next ⟨rfl, rfl⟩ rfl
  exact ⟨hfirst, (abrupt_end_cuts_through hfirst ⟨rfl, rfl⟩ rfl).1⟩

/-- A construct fails by itself when a number of its parts have been come to. -/
structure FailsAfter (depth : Nat) (scope : Loc) (e : Expr) (m : Machine) (count : Nat)
    (cause : FaultCause) (m' : Machine) : Prop
    extends EndsAfter depth scope e m count (.failed ⟨cause, none⟩) m' where
  /-- The failure is on the line of the construct, if it has one. -/
  line : eval (depth + 1) scope e m =
    .error (.failed ⟨cause, if e.line = 0 then none else some e.line⟩) m'

section Fails

variable {depth : Nat} {scope : Loc} {e operand : Expr} {m m' : Machine} {v : Value} {cause : FaultCause}

theorem EndsAfter.failsAfter {count : Nat}
    (h : EndsAfter depth scope e m count (.failed ⟨cause, none⟩) m') :
    FailsAfter depth scope e m count cause m' where
  toEndsAfter := h
  line := by
    have hline : (Fault.mk cause none).locate e.line =
        ⟨cause, if e.line = 0 then none else some e.line⟩ :=
      (apply_ite (Fault.mk cause) _ _ _).symm
    rw [h.outcome, Abrupt.located, hline]

/-- A construct that binds nothing before its first operand fails by itself after it. -/
theorem FailsAfter.of_first (hprepared : m.prepared scope e = m) (hfree : e.refusal? m.heap scope [] = none)
    (hnext : e.part? [] = some (.operand operand)) (hv : eval depth scope operand m = .ok v m')
    (hcause : e.refusal? m'.heap scope [v] = some cause) : FailsAfter depth scope e m 1 cause m' := by
  have hprogress : Progress (eval depth) scope e (m.prepared scope e) [v] m' := by
    rw [hprepared]
    exact .next .start ⟨hfree, hnext⟩ hv
  exact (hprogress.endsAfter_of_refusal hcause).failsAfter

end Fails

/-- **A check that fails has no effect of its own.** -/
theorem failed_check_has_no_effect (depth : Nat) (scope : Loc) (m : Machine) :
    (∀ name value line, m.heap.lookup? scope name = none →
      FailsAfter depth scope (.assign name value false line) m 0 (.undefinedName name) m) ∧
    (∀ callee args line f m₁, eval depth scope callee m = .ok f m₁ → m₁.heap.isFunction f = false →
      FailsAfter depth scope (.call callee args line) m 1 (.notFunction (m₁.heap.describe f)) m₁) ∧
    (∀ receiver name args line o m₁, eval depth scope receiver m = .ok o m₁ → (∀ place, o ≠ .ref place) →
      FailsAfter depth scope (.method receiver name args line) m 1
        (.notObject (m₁.heap.describe o)) m₁) ∧
    (∀ receiver name args line place m₁, eval depth scope receiver m = .ok (.ref place) m₁ →
      m₁.heap.isFunction (m₁.heap.member place name) = false →
      FailsAfter depth scope (.method receiver name args line) m 1
        (.notFunction (name ++ " (" ++ m₁.heap.describe (m₁.heap.member place name) ++ ")")) m₁) ∧
    (∀ receiver name value line o m₁, eval depth scope receiver m = .ok o m₁ → (∀ place, o ≠ .ref place) →
      FailsAfter depth scope (.setField receiver name value line) m 1
        (.notObject (m₁.heap.describe o)) m₁) ∧
    (∀ e place receiver args m₁ name expected, Invokes (eval depth) scope e m place receiver args m₁ →
      m₁.heap.Expects place name expected → args.length ≠ expected →
      (∃ first, Progress (eval depth) scope e (m.prepared scope e) (first :: args) m₁) ∧
        FailsAfter depth scope e m e.operands.length (.wrongArity name expected args.length) m₁) := by
  refine ⟨?_, ?_, ?_, ?_, ?_, ?_⟩
  · intro name value line hname
    have hcause : (Expr.assign name value false line).refusal? m.heap scope [] = _ :=
      Heap.unbound?_eq_some.mpr ⟨hname, rfl⟩
    exact (Progress.endsAfter_of_refusal (e := .assign name value false line) .start hcause).failsAfter
  · intro callee args line f m₁ hf hfunction
    exact .of_first rfl rfl rfl hf (Heap.notFunction?_eq_some.mpr ⟨hfunction, rfl⟩)
  · intro receiver name args line o m₁ ho hne
    exact .of_first rfl rfl rfl ho (Heap.notMethod?_eq_some.mpr (.inl ⟨hne, rfl⟩))
  · intro receiver name args line place m₁ ho hmember
    exact .of_first rfl rfl rfl ho (Heap.notMethod?_eq_some.mpr (.inr ⟨place, rfl, hmember, rfl⟩))
  · intro receiver name value line o m₁ ho hne
    exact .of_first rfl rfl rfl ho (Heap.notObject?_eq_some.mpr ⟨hne, rfl⟩)
  · intro e place receiver args m₁ name expected hi hexpects hlength
    obtain ⟨first, hprogress, -⟩ := hi.exists_progress
    exact ⟨⟨first, hprogress⟩, (hi.endsAfter_of_arity hexpects hlength).failsAfter⟩

/-- `x = print(1)` without an `x`, `({ f: 1 }).f(print(2))` and `+(x = 3)`. -/
theorem failed_check_has_no_effect_start :
    let m := Machine.start false
    let printed (n : Int) : Expr := .call (.identifier "print" 1) [.literal (.int n) 1] 1
    let made : Machine := { m with heap := m.heap.push ⟨.plain, [("f", .int 1)]⟩ }
    let bound : Machine := { m with heap := m.heap.bind Heap.globals "x" (.int 3) }
    FailsAfter 3 Heap.globals (.assign "x" (printed 1) false 2) m 0 (.undefinedName "x") m ∧
      FailsAfter 3 Heap.globals
        (.method (.object [("f", .literal (.int 1) 1)] 1) "f" [printed 2] 0) m 1
        (.notFunction ("f (" ++ made.heap.describe (.int 1) ++ ")")) made ∧
      FailsAfter 3 Heap.globals
        (.call (.identifier "+" 1) [.assign "x" (.literal (.int 3) 1) true 1] 1) m 2
        (.wrongArity "+" 2 1) bound := by
  intro m printed made bound
  obtain ⟨hassign, -, -, hmethod, -, harity⟩ := failed_check_has_no_effect 3 Heap.globals m
  have hmember : made.heap.member 13 "f" = .int 1 := rfl
  have hreceiver : eval 3 Heap.globals (.object [("f", .literal (.int 1) 1)] 1) m = .ok (.ref 13) made :=
    rfl
  have hi : Invokes (eval 3) Heap.globals
      (.call (.identifier "+" 1) [.assign "x" (.literal (.int 3) 1) true 1] 1) m 2 .undefined [.int 3]
      bound := .call rfl rfl rfl
  have hexpects : bound.heap.Expects 2 "+" 2 := .operator (o := .add) rfl
  refine ⟨hassign "x" (printed 1) 2 rfl, ?_, (harity _ 2 .undefined [.int 3] bound "+" 2 hi hexpects ?_).2⟩
  · exact hmember ▸ hmethod _ "f" [printed 2] 0 13 made hreceiver (hmember ▸ rfl)
  · decide

end Scriptlet
