import Scriptlet.Evaluation.Run
import Scriptlet.Proofs.Evaluation.Congruence

/-!
# Tracing is not noticed

Whether calls of `print` are traced makes a difference to diagnostics alone. Two machines that differ in
nothing but tracing and diagnostics are the same machine to a script: whatever runs on them comes to the same
end, and leaves machines behind that again differ in nothing else.

## What is proved

* `Machine.Alike.write`, `Machine.alike_diagnostic`: machines stay alike when the same is written on both, or
  a diagnostic on one of them.
* `inattention`: evaluation respects that machines are alike.
* `runScript_alike`, `runEntry_alike`: scripts and entries come to the same end on machines that are alike.
-/

namespace Scriptlet

variable {α β : Type} {m m' : Machine}

/-! ### Machines -/

/-- What is written on a channel is no diagnostic. -/
def isProper (piece : Channel × String) : Bool := piece.1 ≠ .diagnostic

namespace Machine

/-- What has been written, without the diagnostics. -/
def proper (m : Machine) : Array (Channel × String) := m.written.filter isProper

/-- Two machines differ in nothing but tracing and diagnostics. -/
structure Alike (m m' : Machine) : Prop where
  /-- The objects are the same. -/
  heap : m'.heap = m.heap
  /-- The global scope lies at the same place. -/
  root : m'.root = m.root
  /-- The same has been written, but for diagnostics. -/
  proper : m'.proper = m.proper

theorem Alike.refl (m : Machine) : Alike m m := ⟨rfl, rfl, rfl⟩

theorem Alike.symm (h : Alike m m') : Alike m' m := ⟨h.heap.symm, h.root.symm, h.proper.symm⟩

theorem Alike.trans {m'' : Machine} (h : Alike m m') (h' : Alike m' m'') : Alike m m'' :=
  ⟨h'.heap.trans h.heap, h'.root.trans h.root, h'.proper.trans h.proper⟩

/-- Tracing can be turned on or off. -/
theorem alike_tracing (m : Machine) (on off : Bool) :
    Alike { m with tracing := on } { m with tracing := off } := ⟨rfl, rfl, rfl⟩

theorem proper_write (m : Machine) (channel : Channel) (text : String) :
    (m.write channel text).proper =
      if isProper (channel, text) then m.proper.push (channel, text) else m.proper :=
  Array.filter_push

/-- Machines that are alike stay so when the same is written on both. -/
theorem Alike.write (h : Alike m m') (channel : Channel) (text : String) :
    Alike (m.write channel text) (m'.write channel text) := by
  refine ⟨h.heap, h.root, ?_⟩
  rw [proper_write, proper_write, h.proper]

/-- A diagnostic makes no difference. -/
theorem alike_diagnostic (m : Machine) (text : String) : Alike m (m.write .diagnostic text) :=
  ⟨rfl, rfl, proper_write m .diagnostic text⟩

/-- Nor does one that is written only if calls are traced. -/
theorem alike_trace (m : Machine) (text : String) :
    Alike m (if m.tracing then m.write .diagnostic text else m) := by
  split
  · exact alike_diagnostic m text
  · exact .refl m

end Machine

/-! ### Computations -/

/-- Two computations come to the same end, on machines that are alike. -/
inductive SameEnd : EStateM.Result Abrupt Machine α → EStateM.Result Abrupt Machine α → Prop where
  /-- Both have the same value. -/
  | ok {a : α} {m m' : Machine} : m.Alike m' → SameEnd (.ok a m) (.ok a m')
  /-- Both end abruptly, and in the same way. -/
  | error {abrupt : Abrupt} {m m' : Machine} :
    m.Alike m' → SameEnd (.error abrupt m) (.error abrupt m')

/-- On machines that are alike, two computations come to the same end. -/
def Inattentive (x y : Eval α) : Prop := ∀ m m', m.Alike m' → SameEnd (x m) (y m')

theorem Inattentive.bind {x y : Eval α} {f g : α → Eval β} (hx : Inattentive x y)
    (hf : ∀ a, Inattentive (f a) (g a)) : Inattentive (x >>= f) (y >>= g) := by
  intro m m' hm
  have hend := hx m m' hm
  show SameEnd (EStateM.bind x f m) (EStateM.bind y g m')
  unfold EStateM.bind
  generalize x m = r, y m' = r' at hend
  cases hend with
  | ok hm => exact hf _ _ _ hm
  | error hm => exact .error hm

theorem Inattentive.locate {x y : Eval α} (hx : Inattentive x y) (line : Int) :
    Inattentive (Eval.locate line x) (Eval.locate line y) := by
  intro m m' hm
  have hend := hx m m' hm
  unfold Eval.locate
  generalize x m = r, y m' = r' at hend
  cases hend with
  | ok hm => exact .ok hm
  | @error abrupt _ _ hm =>
    cases abrupt with
    | failed fault => exact .error hm
    | returned v => exact .error hm
    | tooDeep => exact .error hm

theorem Inattentive.functionBody {x y : Eval Unit} (hx : Inattentive x y) :
    Inattentive (Eval.functionBody x) (Eval.functionBody y) := by
  intro m m' hm
  have hend := hx m m' hm
  unfold Eval.functionBody
  generalize x m = r, y m' = r' at hend
  cases hend with
  | ok hm => exact .ok hm
  | @error abrupt _ _ hm =>
    cases abrupt with
    | returned v => exact .ok hm
    | failed fault => exact .error hm
    | tooDeep => exact .error hm

/-- A call of `print` writes the same, traced or not. -/
theorem inattentive_print (args : List Value) :
    Inattentive (Eval.print args) (Eval.print args) := by
  intro m m' hm
  rw [Eval.print_eq, Eval.print_eq, hm.heap]
  refine .ok (Machine.Alike.write ?_ _ _)
  exact (m.alike_trace _).symm.trans (hm.trans (m'.alike_trace _))

/-- Evaluation respects that machines are alike. -/
def inattention : Congruence where
  rel := Inattentive
  pure _ _ _ hm := .ok hm
  throw _ _ _ hm := .error hm
  bind := Inattentive.bind
  locate line hx := hx.locate line
  functionBody := Inattentive.functionBody
  heap m m' hm := by
    show SameEnd (.ok m.heap m) (.ok m'.heap m')
    rw [hm.heap]
    exact .ok hm
  bindAll place bindings _ _ hm :=
    .ok ⟨congrArg (Heap.bindAll · place bindings) hm.heap, hm.root, hm.proper⟩
  allocate o m m' hm := by
    have hpush : Machine.Alike { m with heap := m.heap.push o } { m' with heap := m'.heap.push o } :=
      ⟨congrArg (Heap.push · o) hm.heap, hm.root, hm.proper⟩
    show SameEnd (.ok m.heap.next _) (.ok m'.heap.next _)
    rw [hm.heap] at hpush ⊢
    exact .ok hpush
  print := inattentive_print

/-! ### Scripts and entries -/

/-- Two runs come to the same result, and to machines that are alike. -/
structure Outcome.Alike (o o' : Outcome α) : Prop where
  /-- They have the same value or fail in the same way. -/
  result : o'.1 = o.1
  /-- The machines at the end are alike. -/
  machine : o.2.Alike o'.2

theorem execute_alike (depth : Nat) (scope : Loc) (e : Expr) (hm : m.Alike m') :
    (execute depth scope e m).Alike (execute depth scope e m') := by
  have hend := inattention.eval depth scope e m m' hm
  unfold execute
  generalize eval depth scope e m = r, eval depth scope e m' = r' at hend
  cases hend with
  | ok hm => exact ⟨rfl, hm⟩
  | @error abrupt _ _ hm =>
    cases abrupt with
    | returned v => exact ⟨rfl, hm⟩
    | failed fault => exact ⟨rfl, hm⟩
    | tooDeep => exact ⟨rfl, hm⟩

theorem runSource_alike (depth : Nat) (scope : Loc) (source : String) (hm : m.Alike m') :
    (runSource depth scope source m).Alike (runSource depth scope source m') := by
  unfold runSource
  cases Parsing.parse source with
  | error e => exact ⟨rfl, hm⟩
  | ok script => exact execute_alike depth scope _ hm

/-- **A script comes to the same end on machines that are alike.** -/
theorem runScript_alike (depth : Nat) (source : String) (hm : m.Alike m') :
    (runScript depth source m).Alike (runScript depth source m') :=
  runSource_alike depth _ source ⟨rfl, hm.root, hm.proper⟩

theorem runBody_alike (depth : Nat) (scope : Loc) (body : Block) (hm : m.Alike m') :
    (runBody depth scope body m).Alike (runBody depth scope body m') := by
  have hrun : Inattentive
      (Eval.declare scope body.declared >>= fun _ =>
        lastValue (eval depth scope) .undefined body.statements)
      (Eval.declare scope body.declared >>= fun _ =>
        lastValue (eval depth scope) .undefined body.statements) :=
    .bind (inattention.bindAll scope _) fun _ => inattention.lastValue (inattention.eval depth scope) _ _
  have hend := hrun m m' hm
  unfold runBody
  dsimp only
  generalize (Eval.declare scope body.declared >>= fun _ =>
      lastValue (eval depth scope) .undefined body.statements) m = r,
    (Eval.declare scope body.declared >>= fun _ =>
      lastValue (eval depth scope) .undefined body.statements) m' = r' at hend
  cases hend with
  | ok hm => exact ⟨rfl, hm⟩
  | @error abrupt _ _ hm =>
    cases abrupt with
    | returned v => exact ⟨rfl, hm⟩
    | failed fault => exact ⟨rfl, hm⟩
    | tooDeep => exact ⟨rfl, hm⟩

/-- **So does an entry.** -/
theorem runEntry_alike (depth : Nat) (scope : Loc) (source : String) (hm : m.Alike m') :
    (runEntry depth scope source m).Alike (runEntry depth scope source m') := by
  unfold runEntry
  cases Parsing.parse source with
  | error e => exact ⟨rfl, hm⟩
  | ok script => exact runBody_alike depth scope script.body hm

end Scriptlet
