import Scriptlet.Proofs.Evaluation.Encapsulation
import Scriptlet.Proofs.Evaluation.Growth
import Scriptlet.Proofs.Evaluation.Interruption
import Scriptlet.Proofs.Parsing.RoundTrip

/-!
# Operators keep their meaning

Operators are functions that the global scope binds to their signs, and any name may be bound anew. But a
sign is not a name that can be written down where a name is bound: not where it is declared or assigned
to, not as the name or parameter of a function, and not as the field that is set. It can only be the name of
a field in an object, which is not a scope. So however a session goes, the signs stay bound to the
operators in the global scope, and are bound in no other.

## What is proved

* `Heap.OperatorsIntact.bind`, `Heap.OperatorsIntact.push`: binding names and putting objects on the heap
  leaves operators alone.
* `hygiene`: evaluation of what is read leaves operators alone.
* `eval_operatorCall`: where operators are intact, an operator between operands is the built-in one.
* `Machine.Visited.operators_intact`: in a session operators are always intact.
-/

namespace Scriptlet

open Lexical

/-! ### Operators on the heap -/

/-- Where the function of an operator is put on the first heap. -/
def Operator.place (o : Operator) : Loc := Builtin.all.idxOf (.operator o) + 1

/-- A sign does not have the form of a name. -/
theorem Operator.isName_sign (o : Operator) : isName o.sign = false := by
  cases o <;> decide

theorem Operator.ne_sign {o : Operator} {name : String} (h : isName name = true) :
    name ≠ o.sign := by
  rintro rfl
  rw [o.isName_sign] at h
  cases h

namespace Heap

/-- The signs of operators are bound to their functions in the global scope, and in no other scope. -/
structure OperatorsIntact (h : Heap) : Prop where
  /-- They are bound in the global scope to what they were bound to at first. -/
  bound : ∀ o : Operator, (h.get globals).slots.get? o.sign = some (.ref o.place)
  /-- That is still the built-in function. -/
  object : ∀ o : Operator, (h.get o.place).nature = .function o.sign (.builtin (.operator o))
  /-- They are bound in no other scope. -/
  unbound : ∀ place, h.IsScope place → place ≠ globals →
    ∀ o : Operator, o.sign ∉ (h.get place).slots.names

variable {h : Heap} {place : Loc}

theorem operatorsIntact_initial : initial.OperatorsIntact where
  bound o := by cases o <;> rfl
  object o := by cases o <;> rfl
  unbound _ hs hne := absurd (isScope_initial.mp hs) hne

namespace OperatorsIntact

theorem globals_lt (hi : h.OperatorsIntact) : globals < h.next := by
  by_contra hlt
  have hbound := hi.bound .add
  rw [get_of_next_le (Nat.le_of_not_lt hlt)] at hbound
  cases hbound

theorem place_lt (hi : h.OperatorsIntact) (o : Operator) : o.place < h.next := by
  by_contra hlt
  have hobject := hi.object o
  rw [get_of_next_le (Nat.le_of_not_lt hlt)] at hobject
  cases hobject

theorem bind {name : String} (hi : h.OperatorsIntact) (hname : isName name = true) (place : Loc)
    (v : Value) : (h.bind place name v).OperatorsIntact where
  bound o := by
    by_cases hp : globals = place
    · subst hp
      rw [get?_bind v hi.globals_lt, if_neg (Operator.ne_sign hname), hi.bound o]
    · rw [get_bind_of_ne name v hp, hi.bound o]
  object o := by rw [nature_bind, hi.object o]
  unbound other hs hne o hm := by
    obtain ⟨parent, hn⟩ := hs
    rw [nature_bind] at hn
    obtain ⟨slot, hslot, hsign⟩ := List.mem_map.mp hm
    rcases eq_or_mem_of_mem_bind hslot with rfl | hslot
    · exact Operator.ne_sign hname hsign
    · exact hi.unbound other ⟨parent, hn⟩ hne o (List.mem_map.mpr ⟨slot, hslot, hsign⟩)

theorem bindAll {bindings : List (String × Value)} (hi : h.OperatorsIntact)
    (hnames : ∀ binding ∈ bindings, isName binding.1 = true) (place : Loc) :
    (h.bindAll place bindings).OperatorsIntact := by
  induction bindings generalizing h with
  | nil => exact hi
  | cons binding bindings ih =>
    obtain ⟨hname, hnames⟩ := List.forall_mem_cons.mp hnames
    exact ih (hi.bind hname place binding.2) hnames

theorem push {o : Object} (hi : h.OperatorsIntact)
    (ho : ∀ parent, o.nature = .scope parent → o.slots = []) : (h.push o).OperatorsIntact where
  bound op := by rw [get_push_of_lt o hi.globals_lt, hi.bound op]
  object op := by rw [get_push_of_lt o (hi.place_lt op), hi.object op]
  unbound place hs hne op hm := by
    obtain ⟨parent, hn⟩ := hs
    by_cases hp : place = h.next
    · rw [hp, get_push_self] at hn hm
      rw [ho parent hn] at hm
      cases hm
    · rw [get_push_of_ne o hp] at hn hm
      exact hi.unbound place ⟨parent, hn⟩ hne op hm

/-- From every scope the sign of an operator leads to its function. -/
theorem lookup?_sign (hi : h.OperatorsIntact) (he : h.Encapsulated) (hs : h.IsScope place)
    (o : Operator) : h.lookup? place o.sign = some (.ref o.place) := by
  have hfrom : ∀ fuel place, place < fuel → h.IsScope place →
      h.lookupFrom o.sign fuel place = some (.ref o.place) := by
    intro fuel
    induction fuel with
    | zero => exact fun _ hlt => absurd hlt (Nat.not_lt_zero _)
    | succ fuel ih =>
      intro place hlt hs
      rw [lookupFrom_succ]
      by_cases hg : place = globals
      · rw [hg, hi.bound o, Option.some_or]
      · have hnone : (h.get place).slots.get? o.sign = none :=
          Slots.get?_eq_none_iff.mpr (hi.unbound place hs hg o)
        obtain ⟨parent, hn⟩ := hs
        cases parent with
        | none => exact absurd (he.globals_of_none place hn) hg
        | some parent =>
          obtain ⟨hparent, hs'⟩ := he.parent place parent hn
          have hlt' : parent < fuel := Nat.lt_of_lt_of_le hparent (Nat.le_of_lt_succ hlt)
          rw [hnone, Option.none_or, Object.parent?, hn, Option.bind_some, ih parent hlt' hs']
  exact hfrom _ place (Nat.lt_succ_self place) hs

end OperatorsIntact

/-- The functions of the script bind names only. -/
def BindNames (h : Heap) : Prop :=
  h.Closures fun params body _ =>
    params.all isName = true ∧ body.all (Expr.bindsOnly isName) = true

end Heap

open Heap in
/-- Evaluation of constructs that bind names only leaves operators alone. -/
def hygiene : Discipline where
  inv h := h.OperatorsIntact ∧ h.BindNames
  value _ _ := True
  code _ _ e := e.all (Expr.bindsOnly isName) = true
  runs _ _ body := body.all (Expr.bindsOnly isName) = true
  change _ := Extends
  fault _ := True
  change_refl _ := Extends.refl
  change_trans := Extends.trans
  value_change _ _ := trivial
  code_change _ hc := hc
  runs_change _ hb := hb
  value_plain _ := trivial
  value_lookup _ _ := trivial
  fault_other _ := trivial
  fault_name _ _ _ _ := trivial
  code_operand := Expr.all_operand
  runs_branches := Expr.all_branches
  runs_nested hb hm := (Expr.all_block.mp (Block.all_iff.mp hb _ hm)).2
  code_statement hb hm _ := Block.all_iff.mp hb _ hm
  declare {h scope body} hi hc := by
    have hbody := (Expr.all_block.mp hc).2
    refine ⟨⟨hi.1.bindAll ?_ scope, hi.2.bindAll scope _⟩, extends_bindAll h scope _, hbody⟩
    intro binding hm
    obtain ⟨name, hname, rfl⟩ := List.mem_map.mp hm
    exact body.names_of_mem_declared hbody name hname
  bind {h scope e name v} hi hc hn _ := by
    have hname : isName name = true := by
      have hself := Expr.all_self hc
      cases e with
      | assign _ _ _ _ => cases hn; exact hself
      | function _ _ binds _ _ =>
        cases binds with
        | false => cases hn
        | true => cases hn; exact (Bool.and_eq_true .. ▸ hself).1
      | _ => cases hn
    exact ⟨⟨hi.1.bind hname scope v, hi.2.bind scope name v⟩, extends_bind h scope name v⟩
  make {h scope name params binds body line} hi hc := by
    refine ⟨⟨hi.1.push fun _ => Nature.noConfusion, hi.2.push ?_⟩, extends_push h _, trivial⟩
    rintro _ _ _ _ ⟨⟩
    have hself := Expr.all_self hc
    exact ⟨(Bool.and_eq_true .. ▸ hself).2, Expr.all_body hc⟩
  collect {h _ slots} hi _ _ :=
    ⟨⟨hi.1.push fun _ => Nature.noConfusion, hi.2.push fun _ _ _ _ => Nature.noConfusion⟩,
      extends_push h ⟨.plain, slots⟩, trivial⟩
  setField {h _ place _ _ name _ v} hi hc _ _ :=
    ⟨⟨hi.1.bind (Expr.all_self hc) place v, hi.2.bind place name v⟩, extends_bind h place name v⟩
  enter {h scope place captured name params body receiver args} hi hn _ _ _ := by
    obtain ⟨hparams, hbody⟩ := hi.2 place name params body captured hn
    have hpush := hi.1.push (o := ⟨.scope (some captured), []⟩) fun _ _ => rfl
    have hthis : isName Eval.receiverName = true := by decide
    refine ⟨⟨(hpush.bind hthis _ receiver).bindAll ?_ h.next, ?_⟩, ?_, ?_⟩
    · intro binding hm
      exact List.all_eq_true.mp hparams _ (List.of_mem_zip hm).1
    · exact ((hi.2.push fun _ _ _ _ => Nature.noConfusion).bind _ _ _).bindAll _ _
    · exact Expr.all_block.mpr ⟨rfl, hbody⟩
    · exact fun h' he => (extends_enter h params captured receiver args).trans he

/-! ### Operators in use -/

/-- Called with two operands, an operator comes to a value and leaves the machine as it is. -/
def Machine.Yields (m : Machine) (o : Operator) (x y v : Value) : Prop :=
  (Builtin.operator o).call [x, y] m = .ok v m

/-- Called with two operands, an operator fails and leaves the machine as it is. -/
def Machine.Refuses (m : Machine) (o : Operator) (x y : Value) (cause : FaultCause) : Prop :=
  (Builtin.operator o).call [x, y] m = .error (.failed ⟨cause, none⟩) m

section Call

open Eval

variable {m m' : Machine} {scope : Loc} {o : Operator} {x y v : Value} {cause : FaultCause}

/-- What comes of calling an operator with two operands is told by what it makes of them. -/
theorem call_operator (o : Operator) (x y : Value) (m : Machine) :
    (Builtin.operator o).call [x, y] m = ofExcept (o.apply m.heap x y) m :=
  bind_of_ok rfl

theorem yields_iff : m.Yields o x y v ↔ o.apply m.heap x y = .ok v := by
  rw [Machine.Yields, call_operator]
  constructor
  · intro h
    cases happly : o.apply m.heap x y with
    | error cause => rw [happly] at h; cases h
    | ok w => rw [happly] at h; cases h; rfl
  · intro h
    rw [h]
    rfl

theorem refuses_iff : m.Refuses o x y cause ↔ o.apply m.heap x y = .error cause := by
  rw [Machine.Refuses, call_operator]
  constructor
  · intro h
    cases happly : o.apply m.heap x y with
    | error cause => rw [happly] at h; cases h; rfl
    | ok w => rw [happly] at h; cases h
  · intro h
    rw [h]
    rfl

/-- Calling the function of an operator calls the built-in function. -/
theorem invoke_operator (hi : m.heap.OperatorsIntact) (he : m.heap.Extends m'.heap) (recur : Recur)
    (receiver : Value) (args : List Value) :
    invoke recur o.place receiver args m' = (Builtin.operator o).call args m' := by
  have hnature : (m'.heap.get o.place).nature = .function o.sign (.builtin (.operator o)) := by
    rw [he.nature _ (hi.place_lt o), hi.object o]
  refine (bind_of_ok rfl).trans ?_
  rw [hnature]

/-- Where operators are intact, an operator between operands is the built-in one: the operands are
evaluated from left to right, and it is called with their values. -/
theorem eval_operatorCall (hi : m.heap.OperatorsIntact) (he : m.heap.Encapsulated)
    (hs : m.heap.IsScope scope) (o : Operator) (depth : Nat) (left right : Expr) (l line : Int) :
    eval (depth + 2) scope (.call (.identifier o.sign l) [left, right] line) m =
      locate line (do
        let x ← eval (depth + 1) scope left
        let y ← eval (depth + 1) scope right
        (Builtin.operator o).call [x, y]) m := by
  rw [eval]
  refine locate_congr line ?_
  have hresolve : resolve scope o.sign m = .ok (.ref o.place) m :=
    resolve_of_lookup? (hi.lookup?_sign he hs o)
  have hcallee : eval (depth + 1) scope (.identifier o.sign l) m = .ok (.ref o.place) m := by
    show locate l (resolve scope o.sign) m = _
    rw [locate, hresolve]
  have hfunction : expectFunction (fun h => h.describe (.ref o.place)) (.ref o.place) m =
      .ok o.place m := by
    have hcallable : m.heap.isFunction (.ref o.place) = true := by
      rw [Heap.isFunction, Object.isFunction, hi.object o]
    show (if m.heap.isFunction (.ref o.place) then pure o.place else _ : Eval Loc) m = _
    rw [if_pos hcallable]
    rfl
  simp only [step]
  rw [bind_of_ok hcallee, bind_of_ok hfunction]
  simp only [evalAll, bind_assoc, pure_bind]
  refine bind_congr rfl fun x m₁ h₁ => bind_congr rfl fun y m₂ h₂ => ?_
  exact invoke_operator hi ((extends_of_eval h₁).trans (extends_of_eval h₂)) _ _ _

end Call

/-! ### Operators in sessions -/

theorem covers_encapsulation : encapsulation.Covers where
  initial := Heap.encapsulated_initial
  code _ _ hi _ := ⟨none, hi.root⟩
  statements _ _ _ hs _ _ := hs

theorem covers_hygiene : hygiene.Covers where
  initial := ⟨Heap.operatorsIntact_initial, Heap.closures_initial _⟩
  code _ script _ hfits := Expr.all_block.mpr ⟨rfl, script.body.all_bindsOnly hfits⟩
  statements _ _ _ hb _ hm := Block.all_iff.mp hb _ hm

/-- **Operators keep their meaning.** Whatever source texts a session takes and however they end, and also
while one of them runs: in the global scope every operator is bound to the built-in function that was bound
there at first, and in no other scope it is bound at all. So wherever an operator stands between operands,
the built-in function is called with the values of these, and no other. -/
theorem Machine.Visited.operators_intact {m : Machine} (hm : m.Visited) (o : Operator) :
    (m.heap.get Heap.globals).slots.get? o.sign =
      (Heap.initial.get Heap.globals).slots.get? o.sign ∧
    (m.heap.get Heap.globals).slots.get? o.sign = some (.ref o.place) ∧
    (m.heap.get o.place).nature = .function o.sign (.builtin (.operator o)) ∧
    (∀ place, m.heap.IsScope place → place ≠ Heap.globals →
      (m.heap.get place).slots.get? o.sign = none) ∧
    ∀ scope, m.heap.IsScope scope → ∀ (depth : Nat) (left right : Expr) (l line : Int),
      eval (depth + 2) scope (.call (.identifier o.sign l) [left, right] line) m =
        Eval.locate line (do
          let x ← eval (depth + 1) scope left
          let y ← eval (depth + 1) scope right
          (Builtin.operator o).call [x, y]) m := by
  have hi : m.heap.OperatorsIntact := (hm.inv covers_hygiene).1
  have he : m.heap.Encapsulated := hm.inv covers_encapsulation
  refine ⟨?_, hi.bound o, hi.object o, fun place hs hne => ?_, fun scope hs => ?_⟩
  · rw [hi.bound o, Heap.operatorsIntact_initial.bound o]
  · exact Slots.get?_eq_none_iff.mpr (hi.unbound place hs hne o)
  · exact eval_operatorCall hi he hs o

/-- A function that sets a field of the global scope to an object with a field `+`, and then adds one to
its argument; and a call of it. -/
def shadowing : Script :=
  let sum : Expr := .call (.identifier "+" 1) [.identifier "a" 1, .literal (.int 1) 1] 1
  let object : Expr := .object [("+", .identifier "a" 1)] 1
  ⟨⟨[.function "f" ["a"] true
      ⟨[.setField (.identifier "globalThis" 1) "x" object 1, .returns sum 1], 1⟩ 1,
    .call (.identifier "f" 1) [.literal (.int 2) 1] 1], 1⟩⟩

/-- A run of that script up to the sum. -/
def beforeSum : Machine :=
  Eval.after (evalUntil (fun _ e _ => e.rank == Operator.rank .add) 9 Heap.globals
    (.block (shadowing.onLine 1).body)) (.start false)

/-- Before the sum is evaluated there is a scope of the call at place `14` and an object with a field `+`
at place `15`; the sum is that of the integers. -/
theorem operators_intact_beforeSum :
    (beforeSum.Visited ∧ beforeSum.heap.IsScope 14) ∧
    (beforeSum.heap.get 14).slots = [("this", .undefined), ("a", .int 2)] ∧
    (beforeSum.heap.get 15).slots = [("+", .int 2)] ∧
    (beforeSum.heap.get Heap.globals).slots.get? "+" = some (.ref 2) ∧
    (beforeSum.heap.get 14).slots.get? "+" = none ∧
    eval 2 14 (.call (.identifier "+" 1) [.identifier "a" 1, .literal (.int 1) 1] 1) beforeSum =
      .ok (.int 3) beforeSum := by
  have hparse : Parsing.parse shadowing.text = .ok (shadowing.onLine 1) :=
    Parsing.parse_text (by decide)
  have hvisited : beforeSum.Visited := .script 9 _ (.start false) hparse
  have hs : beforeSum.heap.IsScope 14 := ⟨some Heap.globals, rfl⟩
  obtain ⟨-, hbound, -, hunbound, hcall⟩ :=
    Machine.Visited.operators_intact hvisited .add
  refine ⟨⟨hvisited, hs⟩, rfl, rfl, hbound, hunbound 14 hs (by decide), ?_⟩
  exact (hcall 14 hs 0 _ _ 1 1).trans rfl

end Scriptlet
