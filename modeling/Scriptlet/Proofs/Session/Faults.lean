import Scriptlet.Proofs.Evaluation.Blame
import Scriptlet.Proofs.Evaluation.Provenance
import Scriptlet.Proofs.Evaluation.Tame
import Scriptlet.Proofs.Parsing.Origins
import Scriptlet.Proofs.Parsing.RoundTrip

/-!
# Where sessions fail

A session takes texts one after the other. The functions that one text makes stay on the heap and may be
called by another one, so a run may fail on a line of a text that was taken long before. All code that runs
stands in one of the texts taken so far, and the line of a failure is the line of the construct to blame in
the text that it stands in.

## What is proved

* `Machine.Took.closures`: functions on the heap of a session stand in the texts that it has taken.
* `Driver.run_eq_failed_iff`: a text fails exactly as a construct does that its run starts with.
* `Machine.Took.failure_located`: a text fails exactly if some construct in its course is to blame, and
  then on the line of that construct, which is a line of the text that it stands in.
-/

namespace Scriptlet

open Parsing

/-! ### Texts and their constructs -/

/-- The construct stands in a script that was read from one of the texts. -/
def Owned (sources : List String) (e : Expr) : Prop :=
  ∃ source ∈ sources, ∃ script place, parse source = .ok script ∧ script.body.Has place e

section Owned

variable {sources : List String} {e : Expr}

theorem inherited_owned (sources : List String) : Inherited (Owned sources) := by
  rintro e ⟨source, hmem, script, place, hparse, he⟩ p hp
  exact ⟨source, hmem, script, p.1, hparse, .part he hp⟩

theorem Owned.cons (h : Owned sources e) (source : String) : Owned (source :: sources) e := by
  obtain ⟨text, hmem, hrest⟩ := h
  exact ⟨text, List.mem_cons_of_mem _ hmem, hrest⟩

/-- A script that is read stands in its text. -/
theorem owned_of_parse {source : String} {script : Script} (h : parse source = .ok script)
    (sources : List String) : Owned (source :: sources) (.block script.body) :=
  ⟨source, List.mem_cons_self, script, .body, h, .root⟩

/-- What stands in a text knows its line. -/
theorem Owned.line_ne_zero (h : Owned sources e) : e.line ≠ 0 := by
  obtain ⟨source, -, script, place, hparse, he⟩ := h
  have hplaced := @onLines_of_parse (fun line => decide (line ≠ 0)) source script hparse
    fun n hn _ => decide_eq_true (by omega)
  rcases he.all_isOn hplaced.2 with rfl | hall
  · exact of_decide_eq_true hplaced.1
  · exact of_decide_eq_true (Expr.allowed_line hall)

end Owned

/-! ### Sessions -/

namespace Machine

/-- A machine after texts have been taken, the latest first: each was run as a script or as an entry, in
any scope and at any depth, to whatever end it came. In between there may have been fresh global scopes or a
fresh heap. -/
inductive Took : List String → Machine → Prop where
  /-- None has been taken. -/
  | start (tracing : Bool) : Took [] (.start tracing)
  /-- A text has been run as a script. -/
  | script {sources : List String} {m : Machine} (depth : Nat) (scope : Loc) (source : String) :
    Took sources m → Took (source :: sources) (runSource depth scope source m).2
  /-- A text has been run as an entry. -/
  | entry {sources : List String} {m : Machine} (depth : Nat) (scope : Loc) (source : String) :
    Took sources m → Took (source :: sources) (runEntry depth scope source m).2
  /-- A fresh global scope has been made. -/
  | reset {sources : List String} {m : Machine} : Took sources m → Took sources m.reset
  /-- A fresh heap has been taken. -/
  | anew {sources : List String} {m : Machine} :
    Took sources m → Took sources { m with heap := .initial }
  /-- Something has been written, or tracing has been turned on or off. -/
  | aside {sources : List String} {m m' : Machine} :
    Took sources m → m'.heap = m.heap → Took sources m'

/-- All functions on the heap stand in the texts. -/
def OwnsClosures (sources : List String) (m : Machine) : Prop :=
  m.heap.Closures fun _ body _ => Owned sources (.block body)

theorem OwnsClosures.cons {sources : List String} {m : Machine} (h : m.OwnsClosures sources)
    (source : String) : m.OwnsClosures (source :: sources) :=
  h.mono fun _ _ _ howned => howned.cons source

theorem OwnsClosures.reset {sources : List String} {m : Machine} (h : m.OwnsClosures sources) :
    m.reset.OwnsClosures sources := by
  show m.heap.createGlobals.2.Closures _
  rw [Heap.createGlobals_eq]
  exact List.foldlRecOn (motive := (Heap.Closures · fun _ body _ => Owned sources (.block body)))
    _ _ h fun _ hi _ ho => hi.push fun _ _ _ _ hn =>
      absurd hn (Heap.nature_ne_closure_of_mem_globalObjects ho _ _ _ _)

/-- **Functions on the heap of a session stand in the texts that it has taken.** -/
theorem Took.closures {sources : List String} {m : Machine} (h : m.Took sources) :
    m.OwnsClosures sources := by
  induction h with
  | start tracing => exact Heap.closures_initial _
  | @script sources m depth scope source _ ih =>
    unfold runSource
    split
    · exact ih.cons source
    · next script hparse =>
      exact ((provenance (inherited_owned (source :: sources))).results_execute depth
        (ih.cons source) (owned_of_parse hparse sources)).1.inv
  | @entry sources m depth scope source _ ih =>
    unfold runEntry
    split
    · exact ih.cons source
    · next script hparse =>
      have hinherited := inherited_owned (source :: sources)
      exact ((provenance hinherited).results_runBody depth (ih.cons source)
        (owned_of_parse hparse sources) fun _ hb _ he =>
          hinherited _ hb _ (Expr.mem_parts_statement he)).1.inv
  | reset _ ih => exact ih.reset
  | anew _ _ => exact Heap.closures_initial _
  | @aside sources m m' _ hheap ih =>
    show m'.heap.Closures _
    rw [hheap]
    exact ih

end Machine

/-! ### Ways to run a text -/

/-- Why a run fails, if it does, and the machine afterwards. -/
def Outcome.ending {α : Type} (o : Outcome α) : Option Failure × Machine := (o.failure?, o.2)

/-- The ways to run a text. -/
inductive Driver where
  /-- As a script of its own. -/
  | script
  /-- As an entry. -/
  | entry
  deriving DecidableEq, Repr

namespace Driver

/-- How running a text in this way ends. -/
def run (d : Driver) (depth : Nat) (scope : Loc) (source : String) (m : Machine) :
    Option Failure × Machine :=
  match d with
  | script => (runSource depth scope source m).ending
  | entry => (runEntry depth scope source m).ending

/-- What a run comes to evaluate first of all: the block of a script, or a statement of an entry after
those before it. -/
inductive Starts (depth : Nat) (scope : Loc) (body : Block) (m : Machine) : Driver → Site → Prop where
  /-- The block. -/
  | script : Starts depth scope body m .script ⟨depth, scope, .block body, m⟩
  /-- A statement. -/
  | statement {e : Expr} {m' : Machine} :
    Row (eval depth scope) body.statements (m.declared scope body) e m' →
      Starts depth scope body m .entry ⟨depth, scope, e, m'⟩

variable {depth : Nat} {scope : Loc} {m m' : Machine} {f : Fault}

theorem ending_execute_iff {e : Expr} :
    (execute depth scope e m).ending = (some (.failed f), m') ↔
      eval depth scope e m = .error (.failed f) m' := by
  unfold execute
  cases eval depth scope e m with
  | ok v m₁ => constructor <;> rintro ⟨⟩
  | error abrupt m₁ =>
    cases abrupt with
    | returned v => constructor <;> rintro ⟨⟩
    | tooDeep => constructor <;> rintro ⟨⟩
    | failed fault => constructor <;> (rintro ⟨⟩; rfl)

theorem ending_runBody_iff {body : Block} :
    (runBody depth scope body m).ending = (some (.failed f), m') ↔
      lastValue (eval depth scope) .undefined body.statements (m.declared scope body) =
        .error (.failed f) m' := by
  have hrun : (do
      Eval.declare scope body.declared
      lastValue (eval depth scope) .undefined body.statements : Eval Value) m =
        lastValue (eval depth scope) .undefined body.statements (m.declared scope body) := rfl
  unfold runBody
  dsimp only
  rw [hrun]
  cases lastValue (eval depth scope) .undefined body.statements (m.declared scope body) with
  | ok v m₁ => constructor <;> rintro ⟨⟩
  | error abrupt m₁ =>
    cases abrupt with
    | returned v => constructor <;> rintro ⟨⟩
    | tooDeep => constructor <;> rintro ⟨⟩
    | failed fault => constructor <;> (rintro ⟨⟩; rfl)

variable {source : String} {script : Script}

/-- A text fails exactly as a construct does that its run starts with. -/
theorem run_eq_failed_iff (hparse : parse source = .ok script) (d : Driver) :
    d.run depth scope source m = (some (.failed f), m') ↔
      ∃ site, d.Starts depth scope script.body m site ∧ site.outcome = .error (.failed f) m' := by
  cases d with
  | script =>
    rw [run, runSource, hparse]
    refine ending_execute_iff.trans ⟨fun h => ⟨_, .script, h⟩, ?_⟩
    rintro ⟨site, ⟨⟩, h⟩
    exact h
  | entry =>
    rw [run, runEntry, hparse]
    refine (ending_runBody_iff.trans lastValue_eq_error_iff).trans ⟨?_, ?_⟩
    · rintro ⟨e, m₁, hrow, h⟩
      exact ⟨_, .statement hrow, h⟩
    · rintro ⟨site, hstarts, h⟩
      cases hstarts with
      | statement hrow => exact ⟨_, _, hrow, h⟩

/-- What a run starts with stands in a text that has been taken. -/
theorem Starts.allowed {sources : List String} {d : Driver} {site : Site}
    (hm : m.OwnsClosures sources) (hbody : Owned sources (.block script.body))
    (h : d.Starts depth scope script.body m site) :
    site.Allowed (provenance (inherited_owned sources)) := by
  cases h with
  | script => exact ⟨hm, hbody⟩
  | statement hrow =>
    refine Discipline.of_row (Discipline.keeps_eval _ depth) ?_ (fun e he => ?_) hrow
    · exact hm.bindAll _ _
    · exact inherited_owned sources _ hbody _ (Expr.mem_parts_statement he)

end Driver

/-! ### Failures of sessions -/

/-- A construct that fails by itself is not a block. -/
theorem Site.FailsItself.ne_block {s : Site} {cause : FaultCause} {m' : Machine}
    (h : s.FailsItself cause m') (body : Block) : s.construct ≠ .block body := by
  rintro heq
  cases h with
  | raised hraises =>
    obtain rfl : _ = Expr.block body := heq
    cases hraises with
    | unbound hname _ => cases hname
    | notObject hreceiver _ _ => cases hreceiver
    | arity hinvokes _ _ => cases hinvokes
    | builtin hinvokes _ _ => cases hinvokes
    | notInvocable hinvokes _ => cases hinvokes

/-- The failure is on the line of the culprit, which stands in one of the texts, and something stands on that
line of the text. -/
def Fault.LocatedAt (f : Fault) (sources : List String) (culprit : Expr) : Prop :=
  ∃ text ∈ sources, ∃ script place, ∃ n : Nat, parse text = .ok script ∧
    script.body.Has place culprit ∧ culprit.line = n ∧ f.line = some (n : Int) ∧
    1 ≤ n ∧ n ≤ Text.lineCount text ∧ Text.HasLine text n

theorem Owned.locatedAt {sources : List String} {culprit : Expr} {f : Fault}
    (h : Owned sources culprit) (hne : ∀ body, culprit ≠ .block body)
    (hline : f.line = some culprit.line) : f.LocatedAt sources culprit := by
  obtain ⟨text, hmem, script, place, hparse, hhas⟩ := h
  obtain ⟨n, hn, hhasLine⟩ := hasLine_of_parse hparse hhas (hne script.body)
  obtain ⟨hfirst, hlast⟩ := hhasLine.bounds
  exact ⟨text, hmem, script, place, n, hparse, hhas, hn, hn ▸ hline, hfirst, hlast, hhasLine⟩

/-- **Failures are located at the construct to blame.** Whatever texts a session has taken, when another text
that is a script is run on its machine, as a script or as an entry:

* it fails exactly if, in the course of what its run starts with, some construct fails by itself, and the
  failure has the cause of that construct and its line;
* if anything in the course of the run fails, then the run fails with the same cause on the same line;
* the line of a failure is that of the construct to blame, and a line of the text in which it stands. -/
theorem Machine.Took.failure_located {sources : List String} {m : Machine} (hm : m.Took sources)
    {source : String} {script : Script} (hparse : parse source = .ok script) (d : Driver)
    (depth : Nat) (scope : Loc) (f : Fault) (m' : Machine) :
    (d.run depth scope source m = (some (.failed f), m') ↔
      ∃ site culprit, d.Starts depth scope script.body m site ∧ site.Blames culprit f m') ∧
    (∀ site inner, d.Starts depth scope script.body m site → site.Within inner →
      inner.outcome = .error (.failed f) m' →
        d.run depth scope source m = (some (.failed f), m')) ∧
    (∀ site culprit, d.Starts depth scope script.body m site → site.Blames culprit f m' →
      f.LocatedAt (source :: sources) culprit) := by
  have hlined : ∀ {h scope e}, (provenance (inherited_owned (source :: sources))).code h scope e →
      e.line ≠ 0 := Owned.line_ne_zero
  have hallowed : ∀ {site}, d.Starts depth scope script.body m site →
      site.Allowed (provenance (inherited_owned (source :: sources))) :=
    Driver.Starts.allowed (hm.closures.cons source) (owned_of_parse hparse sources)
  refine ⟨?_, fun site inner hstarts hwithin hf => ?_, fun site culprit hstarts hblames => ?_⟩
  · rw [Driver.run_eq_failed_iff hparse]
    constructor
    · rintro ⟨site, hstarts, hf⟩
      obtain ⟨culprit, hblames⟩ := (Site.outcome_eq_failed_iff hlined (hallowed hstarts)).mp hf
      exact ⟨site, culprit, hstarts, hblames⟩
    · rintro ⟨site, culprit, hstarts, hblames⟩
      have hf := (Site.outcome_eq_failed_iff hlined (hallowed hstarts)).mpr ⟨culprit, hblames⟩
      exact ⟨site, hstarts, hf⟩
  · have hf := Site.outcome_of_within hlined (hallowed hstarts) hwithin hf
    exact (Driver.run_eq_failed_iff hparse d).mpr ⟨site, hstarts, hf⟩
  · obtain ⟨t, hwithin, rfl, hfails, hline⟩ := hblames
    exact (Site.allowed_of_within (hallowed hstarts) hwithin).code.locatedAt hfails.ne_block hline

/-- A field of a name. -/
def fieldOfParameter : Expr := .field (.identifier "x" 1) "y" 1

/-- A function that returns that field of its parameter. -/
def fieldReader : Script :=
  ⟨⟨[.function "f" ["x"] true ⟨[.returns fieldOfParameter 1], 1⟩ 1], 1⟩⟩

/-- A call of the function with an integer. -/
def fieldReading : Script := ⟨⟨[.call (.identifier "f" 1) [.literal (.int 1) 1] 1], 1⟩⟩

/-- The machine after the function has been entered. -/
def afterReader : Machine := (runBody 9 Heap.globals fieldReader.body (.start false)).2

/-- When the call is entered after the function, the field in the text of the function is to blame, since an
integer has no fields, and the entry fails with just that. -/
theorem failure_located_fieldReading :
    (afterReader.Took [fieldReader.text] ∧ parse fieldReading.text = .ok fieldReading) ∧
      ∃ m', Driver.entry.run 9 Heap.globals fieldReading.text afterReader =
          (some (.failed ⟨.notObject "integer 1", some 1⟩), m') ∧
        Fault.LocatedAt ⟨.notObject "integer 1", some 1⟩ [fieldReading.text, fieldReader.text]
          fieldOfParameter := by
  have hreader : parse fieldReader.text = .ok fieldReader := parse_text (by decide)
  have hparse : parse fieldReading.text = .ok fieldReading := parse_text (by decide)
  have htook : afterReader.Took [fieldReader.text] := by
    have htook := Machine.Took.entry 9 Heap.globals fieldReader.text (.start false)
    rw [runEntry, hreader] at htook
    exact htook
  let called : Machine := afterReader.declared Heap.globals fieldReading.body
  let entered : Machine := called.enter ["x"] Heap.globals .undefined [.int 1]
  let started : Machine := entered.declared 14 ⟨[.returns fieldOfParameter 1], 1⟩
  have hraises : Raises (eval 5) 14 fieldOfParameter started
      (.notObject (started.heap.describe (.int 1))) started :=
    .notObject rfl rfl fun _ => Value.noConfusion
  have hsubject : started.heap.describe (.int 1) = "integer 1" := by decide
  rw [hsubject] at hraises
  -- from the call to the body of the function, the return in it and the field that is returned
  have hblames : Site.Blames ⟨9, Heap.globals, .call (.identifier "f" 1) [.literal (.int 1) 1] 1, called⟩
      fieldOfParameter ⟨.notObject "integer 1", some 1⟩ started := by
    refine ⟨⟨6, 14, fieldOfParameter, started⟩, ?_, rfl, .raised hraises, rfl⟩
    exact .head (.step (.body (.call rfl rfl rfl) rfl rfl)) (.head (.step (.statement
      (.here fun _ => Expr.noConfusion))) (.head (.step .returned) .refl))
  have hstarts : Driver.entry.Starts 9 Heap.globals fieldReading.body afterReader
      ⟨9, Heap.globals, .call (.identifier "f" 1) [.literal (.int 1) 1] 1, called⟩ := .statement .here
  obtain ⟨hiff, -, hlocated⟩ := htook.failure_located hparse .entry 9 Heap.globals
    ⟨.notObject "integer 1", some 1⟩ started
  exact ⟨⟨htook, hparse⟩, started, hiff.mpr ⟨_, _, hstarts, hblames⟩, hlocated _ _ hstarts hblames⟩

end Scriptlet
