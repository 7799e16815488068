import Scriptlet.Proofs.Evaluation.Hoisting
import Scriptlet.Proofs.Evaluation.Interruption
import Scriptlet.Proofs.Evaluation.Lockstep
import Scriptlet.Proofs.Parsing.RoundTrip

/-!
# Entries as one script

The entries of a session can be put together into one script. The script binds all names at once, and the
session those of an entry when the entry starts, so that for a while the script has names without a value
that the session does not have at all. No code can tell: what has no value is read as a field where there
is none, and a name that is looked for in vain ends the session with a failure.

## What is proved

* `ahead`: heaps one of which has names in the global scope already stay in step.
* `PlainSession.follows`: the statements of a session, run one after the other, end like the session.
* `PlainSession.agrees_with_concatenation`: one script of all the entries ends like the session.
-/

namespace Scriptlet

open Parsing

/-! ### A heap ahead of another -/

namespace Heap

variable {pending : List String} {h h' : Heap}

/-- The second heap is the first one with the pending names, if they are not bound in the global scope,
bound there without a value. -/
structure Ahead (pending : List String) (h h' : Heap) : Prop where
  /-- There are as many objects. -/
  next : h'.next = h.next
  /-- The global scope is a scope without a parent in the first heap. -/
  root : (h.get globals).nature = .scope none
  /-- It is one in the second heap. -/
  root' : (h'.get globals).nature = .scope none
  /-- All other objects are the same. -/
  get : ∀ place, place ≠ globals → h'.get place = h.get place
  /-- So are bindings in the global scope, except that pending names are bound. -/
  bound : ∀ name, (h'.get globals).slots.get? name =
    ((h.get globals).slots.get? name).or (if name ∈ pending then some .undefined else none)

namespace Ahead

theorem globals_lt (hr : Ahead pending h h') : globals < h.next :=
  IsScope.lt ⟨none, hr.root⟩

theorem globals_lt' (hr : Ahead pending h h') : globals < h'.next :=
  IsScope.lt ⟨none, hr.root'⟩

theorem nature (hr : Ahead pending h h') (place : Loc) :
    (h'.get place).nature = (h.get place).nature := by
  by_cases hp : place = globals
  · rw [hp, hr.root, hr.root']
  · rw [hr.get place hp]

/-- The global scope is the last one where a name is looked for. -/
theorem lookup? (hr : Ahead pending h h') (place : Loc) (name : String) :
    h'.lookup? place name = h.lookup? place name ∨
      h.lookup? place name = none ∧ h'.lookup? place name = some .undefined := by
  have hfrom : ∀ fuel place, h'.lookupFrom name fuel place = h.lookupFrom name fuel place ∨
      h.lookupFrom name fuel place = none ∧ h'.lookupFrom name fuel place = some .undefined := by
    intro fuel
    induction fuel with
    | zero => exact fun _ => .inl rfl
    | succ fuel ih =>
      intro place
      rw [lookupFrom_succ, lookupFrom_succ]
      by_cases hp : place = globals
      · have hparent : (h.get globals).parent? = none := by rw [Object.parent?, hr.root]
        have hparent' : (h'.get globals).parent? = none := by rw [Object.parent?, hr.root']
        rw [hp, hparent, hparent', hr.bound name]
        cases hv : (h.get globals).slots.get? name with
        | some v => exact .inl rfl
        | none =>
          split
          · exact .inr ⟨rfl, rfl⟩
          · exact .inl rfl
      · rw [hr.get place hp]
        cases (h.get place).slots.get? name with
        | some v => exact .inl rfl
        | none =>
          cases (h.get place).parent? with
          | none => exact .inl rfl
          | some parent => exact ih parent
  exact hfrom _ place

/-- The global scope does not show what is bound in it. -/
theorem renderFrom (hr : Ahead pending h h') (fuel : Nat) (path : List Loc) (place : Loc) :
    h'.renderFrom fuel path place = h.renderFrom fuel path place := by
  induction fuel generalizing path place with
  | zero => rfl
  | succ fuel ih =>
    by_cases hp : place = globals
    · simp only [Heap.renderFrom, hp, hr.root, hr.root']
    · simp only [Heap.renderFrom, hr.get place hp, ih]

theorem display (hr : Ahead pending h h') (v : Value) : h'.display v = h.display v := by
  cases v with
  | ref place =>
    have hsize : h'.objects.size = h.objects.size := hr.next
    simp only [Heap.display, render, hsize, hr.renderFrom]
  | _ => rfl

theorem bind (hr : Ahead pending h h') (place : Loc) (name : String) (v : Value) :
    Ahead pending (h.bind place name v) (h'.bind place name v) where
  next := by simp [hr.next]
  root := by rw [nature_bind, hr.root]
  root' := by rw [nature_bind, hr.root']
  get other hne := get_bind_congr hr.next (hr.get other hne) place name v
  bound other := by
    by_cases hp : globals = place
    · subst hp
      rw [get?_bind v hr.globals_lt, get?_bind v hr.globals_lt', hr.bound other]
      split
      · rfl
      · rfl
    · rw [get_bind_of_ne name v hp, get_bind_of_ne name v hp, hr.bound other]

theorem push (hr : Ahead pending h h') (o : Object) : Ahead pending (h.push o) (h'.push o) where
  next := by simp [hr.next]
  root := by rw [get_push_of_lt o hr.globals_lt, hr.root]
  root' := by rw [get_push_of_lt o hr.globals_lt', hr.root']
  get place hp := by
    by_cases hlast : place = h.next
    · rw [hlast, get_push_self, ← hr.next, get_push_self]
    · rw [get_push_of_ne o hlast, get_push_of_ne o (hr.next.symm ▸ hlast), hr.get place hp]
  bound name := by
    rw [get_push_of_lt o hr.globals_lt, get_push_of_lt o hr.globals_lt', hr.bound name]

/-- Names that get bound without a value are pending no longer. -/
theorem declare {names : List String} (hr : Ahead (names ++ pending) h h')
    (hfresh : ∀ name ∈ names, name ∉ (h.get globals).slots.names) :
    Ahead pending (h.bindAll globals (names.map fun name => (name, .undefined))) h' where
  next := by rw [hr.next, next_bindAll]
  root := by rw [nature_bindAll, hr.root]
  root' := hr.root'
  get place hp := by rw [get_bindAll_of_ne hp, hr.get place hp]
  bound name := by
    rw [get?_bindAll_undefined names hr.globals_lt, hr.bound name]
    by_cases hm : name ∈ names
    · simp [hm, Slots.get?_eq_none_iff.mpr (hfresh name hm)]
    · simp [hm]

end Ahead

/-- A heap on which names get bound without a value is ahead with them. -/
theorem ahead_bindAll {names : List String} (hroot : (h.get globals).nature = .scope none)
    (hfresh : ∀ name ∈ names, name ∉ (h.get globals).slots.names) :
    Ahead names h (h.bindAll globals (names.map fun name => (name, .undefined))) where
  next := next_bindAll _ _ _
  root := hroot
  root' := by rw [nature_bindAll, hroot]
  get place hp := get_bindAll_of_ne hp
  bound name := by
    rw [get?_bindAll_undefined names (IsScope.lt ⟨none, hroot⟩)]
    by_cases hm : name ∈ names
    · simp [hm, Slots.get?_eq_none_iff.mpr (hfresh name hm)]
    · simp [hm]

end Heap

/-- While one heap is ahead of another, the same code runs on both in step. -/
def ahead (pending : List String) : Lockstep where
  rel := Heap.Ahead pending
  next hr := hr.next
  nature place hr := hr.nature place
  lookup place name hr := hr.lookup? place name
  display v hr := hr.display v
  bind place name v hr := hr.bind place name v
  push o hr := hr.push o

/-! ### Plain sessions -/

/-- What an entry does: its names are bound, and its statements run one after the other. -/
def Block.entry (depth : Nat) (body : Block) : Eval Value := do
  Eval.declare Heap.globals body.declared
  lastValue (eval depth Heap.globals) .undefined body.statements

/-- A plain session leads from one machine to another. Each of its entries is read from a source text
and runs to its end, without a failure or a return outside of functions, and the names that it declares
are not bound in the global scope when it starts. -/
inductive PlainSession (depth : Nat) : List Script → Machine → Machine → Prop where
  /-- There are no entries. -/
  | done (m : Machine) : PlainSession depth [] m m
  /-- An entry is followed by others. -/
  | entry {source : String} {script : Script} {scripts : List Script} {reply : Reply}
    {m m' m'' : Machine} : parse source = .ok script →
      (∀ name ∈ script.body.declared, name ∉ (m.heap.get Heap.globals).slots.names) →
      runEntry depth Heap.globals source m = (.ok reply, m') →
      (∀ v m', script.body.entry depth m ≠ .error (.returned v) m') →
      PlainSession depth scripts m' m'' → PlainSession depth (script :: scripts) m m''

/-- The statements of scripts, one script after the other. -/
def concatenation (scripts : List Script) : List Expr :=
  scripts.flatMap fun script => script.body.statements

section Entries

variable {depth depth' : Nat} {source : String} {script : Script} {scripts : List Script}
  {reply : Reply} {m m' : Machine}

/-- An entry that answers and does not return runs to its end. -/
theorem entry_of_runEntry (hparse : parse source = .ok script)
    (hrun : runEntry depth Heap.globals source m = (.ok reply, m'))
    (hreturn : ∀ v m', script.body.entry depth m ≠ .error (.returned v) m') :
    ∃ v, script.body.entry depth m = .ok v m' := by
  rw [runEntry, hparse] at hrun
  unfold runBody at hrun
  dsimp only at hrun
  cases he : script.body.entry depth m with
  | ok v m₁ =>
    rw [← Block.entry, he] at hrun
    cases hrun
    exact ⟨v, rfl⟩
  | error abrupt m₁ =>
    rw [← Block.entry, he] at hrun
    cases abrupt with
    | returned v => exact absurd he (hreturn v m₁)
    | failed fault => cases hrun
    | tooDeep => cases hrun

/-- Statements run one after the other as they do for their last value. -/
theorem runStatements_eq_lastValue {recur : Expr → Eval Value} {es : List Expr}
    (hes : ∀ e ∈ es, ∀ body, e ≠ .block body) (v : Value) :
    Eval.runStatements recur es = lastValue recur v es >>= fun _ => pure () := by
  induction es generalizing v with
  | nil => rfl
  | cons e es ih =>
    obtain ⟨he, hes⟩ := List.forall_mem_cons.mp hes
    have hstatement : Eval.runStatement recur e = recur e >>= fun _ => pure () := by
      cases e with
      | block body => exact absurd rfl (he body)
      | _ => rfl
    rw [Eval.runStatements, lastValue, hstatement, bind_assoc, bind_assoc]
    refine congrArg _ (funext fun v => ?_)
    rw [pure_bind, ih hes v]

/-- No statement of what is read is a block. -/
theorem ne_block_of_parse (hparse : parse source = .ok script) :
    ∀ e ∈ script.body.statements, ∀ body, e ≠ .block body := by
  rintro _ hm body rfl
  exact absurd (Block.fits_iff.mp (fits_of_parse hparse) _ hm) Bool.false_ne_true

/-- The statements of an entry start where its names are bound. -/
theorem runStatements_of_entry {v : Value} (hparse : parse source = .ok script)
    (h : script.body.entry depth m = .ok v m') :
    Eval.runStatements (eval depth Heap.globals) script.body.statements
      { m with heap := m.heap.declare Heap.globals script.body } = .ok () m' := by
  rw [runStatements_eq_lastValue (ne_block_of_parse hparse) .undefined]
  exact Eval.bind_of_ok h

/-- An entry leads to a later heap. -/
theorem extends_of_entry {body : Block} {v : Value} (h : body.entry depth m = .ok v m') :
    m.heap.Extends m'.heap := by
  have hkeeps : growth.Keeps Heap.globals m (body.entry depth) growth.value :=
    Discipline.keeps_entry (growth.keeps_eval depth) trivial fun _ _ _ _ => trivial
  exact (hkeeps.leads_of_ok trivial h).change

namespace PlainSession

/-- No name that an entry declares is bound when the session starts. -/
theorem notMem_names (hs : PlainSession depth scripts m m') (hlt : Heap.globals < m.heap.next) :
    ∀ name ∈ declaredIn (concatenation scripts), name ∉ (m.heap.get Heap.globals).slots.names := by
  induction hs with
  | done m => exact fun name hm => absurd hm List.not_mem_nil
  | @entry source script scripts reply m m₁ m₂ hparse hfresh hrun hreturn _ ih =>
    intro name hm hbound
    obtain ⟨v, hentry⟩ := entry_of_runEntry hparse hrun hreturn
    have hextends := extends_of_entry hentry
    rw [concatenation, List.flatMap_cons, declaredIn_append, List.mem_append] at hm
    rcases hm with hm | hm
    · obtain ⟨⟨statements, line⟩⟩ := script
      exact hfresh name hm hbound
    · refine ih (Nat.lt_of_lt_of_le hlt hextends.next_le) name hm ?_
      exact (hextends.names _ hlt).subset hbound

/-- **The statements of a session, run one after the other**, end like the session if they start on a heap
that has the names of all entries bound. -/
theorem follows (hs : PlainSession depth scripts m m') (hd : depth ≤ depth') :
    ∀ n, (ahead (declaredIn (concatenation scripts))).Agree m n →
      ∃ n', Eval.runStatements (eval depth' Heap.globals) (concatenation scripts) n = .ok () n' ∧
        (ahead []).Agree m' n' := by
  induction hs with
  | done m => exact fun n hn => ⟨n, rfl, hn⟩
  | @entry source script scripts reply m m₁ m₂ hparse hfresh hrun hreturn _ ih =>
    intro n hn
    obtain ⟨v, hentry⟩ := entry_of_runEntry hparse hrun hreturn
    have hdeclared : declaredIn (concatenation (script :: scripts)) =
        script.body.declared ++ declaredIn (concatenation scripts) := by
      obtain ⟨⟨statements, line⟩⟩ := script
      exact declaredIn_append _ _
    rw [hdeclared] at hn
    -- the entry binds its names, which the other heap has already
    have hstart : (ahead (declaredIn (concatenation scripts))).Agree
        { m with heap := m.heap.declare Heap.globals script.body } n :=
      ⟨hn.heap.declare hfresh, hn.written, hn.tracing⟩
    have hmatches := Lockstep.follows_runStatements (Lockstep.follows_eval _ hd) Heap.globals
      script.body.statements _ _ hstart
    rw [runStatements_of_entry hparse hentry] at hmatches
    obtain ⟨n₁, hn₁, hagree⟩ := hmatches.exists_ok
    obtain ⟨n₂, hn₂, hagree'⟩ := ih n₁ hagree
    refine ⟨n₂, ?_, hagree'⟩
    rw [concatenation, List.flatMap_cons, runStatements_append, Eval.bind_of_ok hn₁]
    exact hn₂

end PlainSession

end Entries

open Heap in
/-- **A session agrees with one script of all its entries.** If a session starts on a fresh heap and each
of its entries runs to its end and declares new names only, then the script runs to its end as well; it
writes the same, every global name has the same value in the end, and all other objects are the same too.
(A block nests its statements, so that the script must be let go one deeper.) -/
theorem PlainSession.agrees_with_concatenation {depth depth' : Nat} {tracing : Bool}
    {scripts : List Script} {m : Machine} (hs : PlainSession depth scripts (.start tracing) m)
    (hd : depth < depth') (line : Int) :
    ∃ m', execute depth' globals (.block ⟨concatenation scripts, line⟩) (.start tracing) =
        (.ok .undefined, m') ∧
      m'.written = m.written ∧
      (∀ name, (m'.heap.get globals).slots.get? name = (m.heap.get globals).slots.get? name) ∧
      m'.heap.next = m.heap.next ∧
      ∀ place, place ≠ globals → m'.heap.get place = m.heap.get place := by
  obtain ⟨depth', rfl⟩ := Nat.exists_eq_add_one.mpr (Nat.lt_of_le_of_lt (Nat.zero_le depth) hd)
  have hlt : globals < Heap.initial.next := by decide
  have hfresh := hs.notMem_names hlt
  have hstart : (ahead (declaredIn (concatenation scripts))).Agree (.start tracing)
      { Machine.start tracing with
        heap := Heap.declare .initial globals ⟨concatenation scripts, line⟩ } :=
    ⟨ahead_bindAll rfl hfresh, rfl, rfl⟩
  obtain ⟨m', hrun, hagree⟩ := hs.follows (Nat.le_of_lt_succ hd) _ hstart
  have heval : eval (depth' + 1) globals (.block ⟨concatenation scripts, line⟩)
      (.start tracing) = .ok .undefined m' := by
    have hblock : Eval.step (eval depth') globals (.block ⟨concatenation scripts, line⟩)
        (.start tracing) = .ok .undefined m' :=
      (Eval.bind_of_ok rfl).trans ((Eval.bind_of_ok hrun).trans rfl)
    rw [eval, Eval.locate, hblock]
  refine ⟨m', ?_, hagree.written, fun name => ?_, hagree.heap.next, hagree.heap.get⟩
  · rw [execute, heval]
  · rw [hagree.heap.bound name, if_neg List.not_mem_nil, Option.or_none]

/-- An entry that reads `sum` as a field of the global scope, where it is not bound yet, and has a function
that reads it by its name. -/
def reading : Script :=
  let sum : Expr := .field (.identifier "globalThis" 1) "sum" 1
  ⟨⟨[.function "total" [] true ⟨[.returns (.identifier "sum" 1) 1], 1⟩ 1,
    .call (.identifier "print" 1) [sum] 1], 1⟩⟩

/-- An entry that declares `sum`, assigns to it and calls that function. -/
def counting : Script :=
  ⟨⟨[.assign "sum" (.literal (.int 40) 1) true 1,
    .assign "sum" (.call (.identifier "+" 1) [.identifier "sum" 1, .literal (.int 2) 1] 1) false 1,
    .call (.identifier "print" 1) [.call (.identifier "total" 1) [] 1] 1], 1⟩⟩

/-- The machine after the first of the two entries. -/
def afterReading : Machine := (runBody 9 Heap.globals (reading.onLine 1).body (.start false)).2

/-- The machine after both. -/
def afterCounting : Machine := (runBody 9 Heap.globals (counting.onLine 1).body afterReading).2

/-- Before `sum` is declared it has no value, as one script and entry by entry. -/
theorem agrees_with_concatenation_counting :
    PlainSession 9 [reading.onLine 1, counting.onLine 1] (.start false) afterCounting ∧
      afterCounting.written = #[(.program, "undefined\n"), (.program, "42\n")] ∧
      ∃ m, execute 10 Heap.globals
          (.block ⟨concatenation [reading.onLine 1, counting.onLine 1], 1⟩) (.start false) =
          (.ok .undefined, m) ∧
        m.written = #[(.program, "undefined\n"), (.program, "42\n")] ∧
        (m.heap.get Heap.globals).slots.get? "sum" = some (.int 42) := by
  have hreading : parse reading.text = .ok (reading.onLine 1) := parse_text (by decide)
  have hcounting : parse counting.text = .ok (counting.onLine 1) := parse_text (by decide)
  have hfirst : runEntry 9 Heap.globals reading.text (.start false) =
      (.ok ⟨.undefined, false⟩, afterReading) := by
    rw [runEntry, hreading]
    rfl
  have hsecond : runEntry 9 Heap.globals counting.text afterReading =
      (.ok ⟨.undefined, false⟩, afterCounting) := by
    rw [runEntry, hcounting]
    rfl
  have hsession : PlainSession 9 [reading.onLine 1, counting.onLine 1] (.start false) afterCounting :=
    .entry hreading (by decide) hfirst (fun _ _ h => by cases h)
      (.entry hcounting (by decide) hsecond (fun _ _ h => by cases h) (.done afterCounting))
  obtain ⟨m, hrun, hwritten, hglobals, -, -⟩ :=
    hsession.agrees_with_concatenation (Nat.lt_succ_self 9) 1
  exact ⟨hsession, rfl, m, hrun, hwritten, hglobals "sum"⟩

end Scriptlet
