import Scriptlet.CommandLine.Perform
import Mathlib.Data.List.Induction

/-!
# What the arguments decide

Some arguments decide alone what the program does: those that ask for help, those that look like options and
are none, and a source behind another one. The first of them is what counts. What stands behind it is not
looked at, and of what stands in front only whether tracing is asked for. Where no argument decides, all that
counts is which of the three settings there are and what source is named, and neither the order of the
arguments nor how often a setting comes up.

What is asked for also tells what has to be known of the surroundings: nothing, the standard input, or what is
found at a path. Nothing else of them counts.

## What is proved

* `undecided_or_exists_decides`: arguments have a first one that decides, or none.
* `undecided_iff`: the arguments of which none decides are settings and at most one source.
* `read_of_decides`, `read_of_not_decides`: what one argument does.
* `readArguments_of_decides`, `readArguments_of_undecided`: what all of them ask for.
* `perform_of_agree`: a task goes by no more of the surroundings than it needs.
* `runProgram_of_decides`, `runProgram_of_undecided`, `heeds_arguments`: what the program does.
-/

namespace Scriptlet.CommandLine

/-- The arguments that make a setting. -/
def settings : List String := ["--trace", "--ast", "--repl"]

/-- The argument names a source: it does not look like an option and does not ask for help. -/
def isSource (argument : String) : Bool := !isOption argument && argument != "-h"

/-- Behind others, an argument decides what is asked for. -/
inductive Decides (before : List String) (argument : String) : Task → Prop where
  /-- It asks for help. -/
  | help : argument = "-h" ∨ argument = "--help" → Decides before argument .help
  /-- It looks like an option and is none. -/
  | unknown : isOption argument = true → argument ∉ settings → argument ≠ "--help" →
    Decides before argument (.refuse ("Unknown flag: " ++ argument ++ "\n" ++ usage))
  /-- It is a source, and there is one already. -/
  | superfluous : isSource argument = true → (∃ other ∈ before, isSource other = true) →
    Decides before argument (.refuse ("Unexpected argument: " ++ argument))

/-- No argument decides. -/
def Undecided (arguments : List String) : Prop :=
  ∀ before argument after, arguments = before ++ argument :: after →
    ∀ task, ¬ Decides before argument task

/-! ### The first argument that decides -/

section First

variable {before arguments : List String} {argument : String}

theorem isSource_of_mem_settings (h : argument ∈ settings) : isSource argument = false := by
  revert argument
  decide

/-- An argument does not decide just if it makes a setting or is the first source. -/
theorem not_decides_iff :
    (∀ task, ¬ Decides before argument task) ↔
      argument ∈ settings ∨ isSource argument = true ∧ before.filter isSource = [] := by
  constructor
  · intro h
    by_cases hset : argument ∈ settings
    · exact .inl hset
    have hhelp : ¬ (argument = "-h" ∨ argument = "--help") := fun hh => h _ (.help hh)
    rw [not_or] at hhelp
    have hoption : isOption argument = false := by
      by_contra ho
      exact h _ (.unknown (eq_true_of_ne_false ho) hset hhelp.2)
    have hsource : isSource argument = true := by
      rw [isSource, hoption, Bool.not_false, Bool.true_and]
      exact bne_iff_ne.mpr hhelp.1
    refine .inr ⟨hsource, List.filter_eq_nil_iff.mpr fun other hother hs => ?_⟩
    exact h _ (.superfluous hsource ⟨other, hother, hs⟩)
  · rintro (hset | ⟨hsource, hnone⟩) task hdecides
    · cases hdecides with
      | help hh =>
        rcases hh with rfl | rfl
        · exact absurd hset (by decide)
        · exact absurd hset (by decide)
      | unknown _ hnot => exact hnot hset
      | superfluous hs => exact Bool.false_ne_true ((isSource_of_mem_settings hset).symm.trans hs)
    · rw [isSource, Bool.and_eq_true, Bool.not_eq_true', bne_iff_ne] at hsource
      cases hdecides with
      | help hh =>
        rcases hh with rfl | rfl
        · exact hsource.2 rfl
        · exact absurd hsource.1 (by decide)
      | unknown ho => exact Bool.false_ne_true (hsource.1.symm.trans ho)
      | superfluous _ hb =>
        obtain ⟨other, hother, hs⟩ := hb
        exact List.filter_eq_nil_iff.mp hnone other hother hs

theorem Undecided.nil : Undecided [] := by
  intro before argument after h
  exact absurd h.symm (List.append_ne_nil_of_right_ne_nil _ (List.cons_ne_nil _ _))

/-- None decides if none of the others does and the last one does not decide behind them. -/
theorem undecided_concat_iff :
    Undecided (before ++ [argument]) ↔
      Undecided before ∧ ∀ task, ¬ Decides before argument task := by
  constructor
  · intro h
    refine ⟨fun first other after heq => h first other (after ++ [argument]) ?_, h before argument [] rfl⟩
    rw [heq, List.append_assoc, List.cons_append]
  · rintro ⟨hbefore, hnot⟩ first other after heq
    rcases List.eq_nil_or_concat after with rfl | ⟨others, last, rfl⟩
    · obtain ⟨rfl, hlast⟩ := List.append_inj' heq rfl
      obtain rfl := List.singleton_inj.mp hlast
      exact hnot
    · rw [List.concat_eq_append, ← List.cons_append, ← List.append_assoc] at heq
      exact hbefore first other others (List.append_inj' heq rfl).1

/-- Arguments have a first one that decides, or none. -/
theorem undecided_or_exists_decides (arguments : List String) :
    Undecided arguments ∨ ∃ before argument after task, arguments = before ++ argument :: after ∧
      Undecided before ∧ Decides before argument task := by
  -- whether an argument decides is told by those in front of it, so the induction is from the back
  induction arguments using List.reverseRecOn with
  | nil => exact .inl .nil
  | append_singleton arguments argument ih =>
    rcases ih with hnone | ⟨before, first, after, task, rfl, hbefore, hdecides⟩
    · by_cases hdecides : ∃ task, Decides arguments argument task
      · obtain ⟨task, hdecides⟩ := hdecides
        exact .inr ⟨arguments, argument, [], task, rfl, hnone, hdecides⟩
      · exact .inl (undecided_concat_iff.mpr ⟨hnone, not_exists.mp hdecides⟩)
    · refine .inr ⟨before, first, after ++ [argument], task, ?_, hbefore, hdecides⟩
      rw [List.append_assoc, List.cons_append]

/-- Where none decides, there are settings and at most one source. -/
theorem undecided_iff :
    Undecided arguments ↔ (∀ argument ∈ arguments, argument ∈ settings ∨ isSource argument = true) ∧
      (arguments.filter isSource).length ≤ 1 := by
  induction arguments using List.reverseRecOn with
  | nil => exact ⟨fun _ => ⟨List.forall_mem_nil _, Nat.zero_le _⟩, fun _ => .nil⟩
  | append_singleton arguments argument ih =>
    rw [undecided_concat_iff, ih, not_decides_iff, List.forall_mem_append, List.filter_append,
      List.length_append, List.forall_mem_singleton]
    by_cases hset : argument ∈ settings
    · simp [hset, isSource_of_mem_settings hset]
    · cases hsource : isSource argument with
      | false => simp [hset, hsource]
      | true =>
        simp only [hset, hsource, false_or, true_and, and_true, List.filter_cons_of_pos, List.filter_nil,
          List.length_singleton, ← List.length_eq_zero_iff]
        constructor
        · rintro ⟨⟨hall, -⟩, hnone⟩
          exact ⟨hall, by omega⟩
        · rintro ⟨hall, hlength⟩
          exact ⟨⟨hall, by omega⟩, by omega⟩

end First

/-! ### Reading arguments -/

section Reading

variable {tracing : Bool} {before arguments : List String} {argument : String} {task : Task}

/-- What arguments of which none decides have set. -/
def Options.after (tracing : Bool) (arguments : List String) : Options :=
  ⟨tracing || arguments.contains "--trace", arguments.contains "--ast", arguments.contains "--repl",
    arguments.find? isSource⟩

/-- Reading a source comes down to looking at whether there is one already. -/
theorem conditions_of_isSource (h : isSource argument = true) :
    argument ≠ "--trace" ∧ argument ≠ "--ast" ∧ argument ≠ "--repl" ∧
      (argument = "-h" || argument = "--help") = false ∧ isOption argument = false := by
  have hne : ∀ other, isSource other = false → argument ≠ other := by
    rintro other hother rfl
    exact Bool.false_ne_true (hother.symm.trans h)
  refine ⟨hne _ (by decide), hne _ (by decide), hne _ (by decide), ?_, ?_⟩
  · rw [decide_eq_false (hne "-h" (by decide)), decide_eq_false (hne "--help" (by decide))]
    rfl
  · rw [isSource, Bool.and_eq_true, Bool.not_eq_true'] at h
    exact h.1

theorem read_of_first_source (h : isSource argument = true) {o : Options} (ho : o.source = none)
    (others : List String) :
    o.read (argument :: others) = { o with source := some argument }.read others := by
  obtain ⟨htrace, hast, hrepl, hhelp, hoption⟩ := conditions_of_isSource h
  simp only [Options.read, htrace, hast, hrepl, hhelp, hoption, ho, Bool.false_eq_true, if_false]

theorem read_of_second_source (h : isSource argument = true) {o : Options} {first : String}
    (ho : o.source = some first) (others : List String) :
    o.read (argument :: others) = ⟨.refuse ("Unexpected argument: " ++ argument), o.tracing⟩ := by
  obtain ⟨htrace, hast, hrepl, hhelp, hoption⟩ := conditions_of_isSource h
  simp only [Options.read, htrace, hast, hrepl, hhelp, hoption, ho, Bool.false_eq_true, if_false]

/-- An argument that does not decide is taken down. -/
theorem read_of_not_decides (h : ∀ task, ¬ Decides before argument task) (others : List String) :
    (Options.after tracing before).read (argument :: others) =
      (Options.after tracing (before ++ [argument])).read others := by
  rcases not_decides_iff.mp h with hset | ⟨hsource, hnone⟩
  · have hsource := isSource_of_mem_settings hset
    rw [settings, List.mem_cons, List.mem_cons, List.mem_singleton] at hset
    rcases hset with rfl | rfl | rfl
    · simp [Options.read, Options.after, hsource]
    · simp [Options.read, Options.after, hsource]
    · simp [Options.read, Options.after, hsource]
  · obtain ⟨htrace, hast, hrepl, -⟩ := conditions_of_isSource hsource
    have hfind : before.find? isSource = none :=
      List.find?_eq_none.mpr (List.filter_eq_nil_iff.mp hnone)
    rw [read_of_first_source hsource (o := Options.after tracing before) hfind]
    simp [Options.after, hfind, hsource, htrace.symm, hast.symm, hrepl.symm]

/-- What decides is what is asked for. -/
theorem read_of_decides (h : Decides before argument task) (others : List String) :
    (Options.after tracing before).read (argument :: others) =
      ⟨task, tracing || before.contains "--trace"⟩ := by
  cases h with
  | help hh => rcases hh with rfl | rfl <;> rfl
  | unknown ho hset hhelp =>
    rw [settings, List.mem_cons, List.mem_cons, List.mem_singleton, not_or, not_or] at hset
    have hshort : argument ≠ "-h" := by
      rintro rfl
      exact absurd ho (by decide)
    rw [Options.read, if_neg hset.1, if_neg hset.2.1, if_neg hset.2.2, if_neg (by simp [hshort, hhelp]),
      if_pos ho]
    rfl
  | superfluous hs hb =>
    obtain ⟨first, hfirst⟩ := Option.isSome_iff_exists.mp (List.find?_isSome.mpr hb)
    exact read_of_second_source hs hfirst others

/-- Arguments of which none decides are taken down before those behind them are read. -/
theorem readArguments_append (h : Undecided before) (others : List String) :
    readArguments tracing (before ++ others) = (Options.after tracing before).read others := by
  induction before using List.reverseRecOn generalizing others with
  | nil =>
    rw [Options.after, List.contains_nil, Bool.or_false]
    rfl
  | append_singleton before argument ih =>
    obtain ⟨hbefore, hnot⟩ := undecided_concat_iff.mp h
    rw [List.append_assoc, ih hbefore, List.singleton_append, read_of_not_decides hnot]

theorem readArguments_of_decides (tracing : Bool) (hbefore : Undecided before)
    (h : Decides before argument task) (others : List String) :
    readArguments tracing (before ++ argument :: others) =
      ⟨task, tracing || before.contains "--trace"⟩ := by
  rw [readArguments_append hbefore, read_of_decides h]

theorem readArguments_of_undecided (tracing : Bool) (h : Undecided arguments) :
    readArguments tracing arguments = (Options.after tracing arguments).request := by
  rw [← List.append_nil arguments, readArguments_append h, List.append_nil]
  rfl

/-- What arguments set depends on which of them there are, and on the source. -/
theorem after_congr {others : List String}
    (hsettings : ∀ setting ∈ settings, setting ∈ others ↔ setting ∈ arguments)
    (hsources : others.filter isSource = arguments.filter isSource) :
    Options.after tracing others = Options.after tracing arguments := by
  have hcontains : ∀ setting ∈ settings, others.contains setting = arguments.contains setting := by
    intro setting hsetting
    rw [List.contains_eq_mem, List.contains_eq_mem]
    exact decide_eq_decide.mpr (hsettings setting hsetting)
  rw [Options.after, Options.after, hcontains "--trace" (by decide), hcontains "--ast" (by decide),
    hcontains "--repl" (by decide), ← List.head?_filter, ← List.head?_filter, hsources]

end Reading

/-! ### What a task needs -/

section Needs

variable {around other : Surroundings}

/-- Surroundings agree on what is needed. -/
def Need.Agree : Need → Surroundings → Surroundings → Prop
  | .nothing, _, _ => True
  | .input, around, other => around.input = other.input
  | .path name, around, other => around.find name = other.find name

theorem loadSource_of_agree {source : Option String} {dump : Bool}
    (h : (Task.script source dump).need.Agree around other) :
    loadSource around source = loadSource other source := by
  cases source with
  | none =>
    have hinput : around.input = other.input := h
    rw [loadSource, loadSource, loadSource.fromInput, loadSource.fromInput, hinput]
  | some name =>
    rw [Task.need] at h
    rw [loadSource, loadSource]
    split at h
    · next hname =>
      have hinput : around.input = other.input := h
      rw [if_pos hname, if_pos hname, loadSource.fromInput, loadSource.fromInput, hinput]
    · next hname =>
      have hfound : around.find name = other.find name := h
      rw [if_neg hname, if_neg hname, hfound]

/-- **A task goes by no more of the surroundings than it needs.** -/
theorem perform_of_agree {task : Task} (h : task.need.Agree around other) (depth : Nat)
    (session : Machine → Machine) (m : Machine) :
    perform depth around session task m = perform depth other session task m := by
  cases task with
  | help | refuse | session => rfl
  | script source dump => rw [perform, perform, loadSource_of_agree h]

end Needs

/-! ### What the program does -/

section Program

variable {before arguments others : List String} {argument : String} {task : Task} {m : Machine}

/-- The machine with tracing on if it is on already or is asked for. -/
def tracedBy (arguments : List String) (m : Machine) : Machine :=
  { m with tracing := m.tracing || arguments.contains "--trace" }

/-- The program goes by its arguments as it should. -/
structure Heeds (arguments : List String) (m : Machine) : Prop where
  /-- There is a first argument that decides, or there is none. -/
  decided : Undecided arguments ∨ ∃ before argument after task,
    arguments = before ++ argument :: after ∧ Undecided before ∧ Decides before argument task
  /-- Of the surroundings, the program goes by no more than what is asked for needs. -/
  looks : ∀ around other, (readArguments m.tracing arguments).task.need.Agree around other →
    ∀ depth session, runProgram depth around session arguments m =
      runProgram depth other session arguments m
  /-- If the first that decides asks for help, then the program tells how it is used and has done its work,
  whatever stands behind it. It needs nothing of the surroundings and runs nothing. -/
  helps : ∀ before argument after, arguments = before ++ argument :: after → Undecided before →
    Decides before argument .help →
      (readArguments m.tracing arguments).task.need = .nothing ∧
      ∀ depth around session, runProgram depth around session arguments m =
        (.status 0, (tracedBy before m).writeLine .console usage)
  /-- If the first that decides is refused, then the program quits and names it, whatever stands behind it.
  It needs nothing of the surroundings and runs nothing. -/
  refuses : ∀ before argument after reason, arguments = before ++ argument :: after →
    Undecided before → Decides before argument (.refuse reason) →
      (readArguments m.tracing arguments).task.need = .nothing ∧
      ∀ depth around session, runProgram depth around session arguments m =
        (.quit reason, tracedBy before m)
  /-- If none decides, then the program holds a session if that is set, and otherwise takes up the source, to
  dump or to run it, with tracing on if that is set. -/
  performs : Undecided arguments → ∀ depth around session,
    runProgram depth around session arguments m =
      perform depth around session
        (if arguments.contains "--repl" then .session
          else .script (arguments.find? isSource) (arguments.contains "--ast"))
        (tracedBy arguments m)
  /-- So what it does depends on which settings there are and on the source alone. -/
  agrees : Undecided arguments → ∀ others, Undecided others →
    (∀ setting ∈ settings, setting ∈ others ↔ setting ∈ arguments) →
    others.filter isSource = arguments.filter isSource →
      ∀ depth around session, runProgram depth around session others m =
        runProgram depth around session arguments m
  /-- If none decides, then none does where settings stand elsewhere or come up more often, and the program
  does the same. -/
  rearranged : Undecided arguments → ∀ others, (∀ argument, argument ∈ others ↔ argument ∈ arguments) →
    others.filter isSource = arguments.filter isSource →
      Undecided others ∧ ∀ depth around session, runProgram depth around session others m =
        runProgram depth around session arguments m

/-- Nothing has to be known of the surroundings for what an argument decides. -/
theorem need_of_decides (hbefore : Undecided before) (h : Decides before argument task)
    (after : List String) :
    (readArguments m.tracing (before ++ argument :: after)).task.need = .nothing := by
  rw [readArguments_of_decides _ hbefore h]
  cases h with
  | help | unknown | superfluous => rfl

/-- What an argument decides is done, whatever stands behind it. -/
theorem runProgram_of_decides (hbefore : Undecided before) (h : Decides before argument task)
    (after : List String) (depth : Nat) (around : Surroundings) (session : Machine → Machine) :
    runProgram depth around session (before ++ argument :: after) m =
      perform depth around session task (tracedBy before m) := by
  rw [runProgram, readArguments_of_decides _ hbefore h]
  rfl

/-- Where no argument decides, the settings are gone by. -/
theorem runProgram_of_undecided (h : Undecided arguments) (depth : Nat) (around : Surroundings)
    (session : Machine → Machine) :
    runProgram depth around session arguments m =
      perform depth around session
        (if arguments.contains "--repl" then .session
          else .script (arguments.find? isSource) (arguments.contains "--ast"))
        (tracedBy arguments m) := by
  rw [runProgram, readArguments_of_undecided _ h]
  rfl

/-- The settings and the source say all. -/
theorem runProgram_congr (h : Undecided arguments) (h' : Undecided others)
    (hsettings : ∀ setting ∈ settings, setting ∈ others ↔ setting ∈ arguments)
    (hsources : others.filter isSource = arguments.filter isSource) (depth : Nat)
    (around : Surroundings) (session : Machine → Machine) :
    runProgram depth around session others m = runProgram depth around session arguments m := by
  have hrequest : readArguments m.tracing others = readArguments m.tracing arguments := by
    rw [readArguments_of_undecided _ h, readArguments_of_undecided _ h', after_congr hsettings hsources]
  rw [runProgram, runProgram, hrequest]

theorem Undecided.rearranged (h : Undecided arguments)
    (hmem : ∀ argument, argument ∈ others ↔ argument ∈ arguments)
    (hsources : others.filter isSource = arguments.filter isSource) : Undecided others := by
  obtain ⟨hall, hlength⟩ := undecided_iff.mp h
  refine undecided_iff.mpr ⟨fun argument hin => hall argument ((hmem argument).mp hin), ?_⟩
  rw [hsources]
  exact hlength

/-- **The first argument that decides does so alone**, and where none does, only the settings and the source
count. -/
theorem heeds_arguments (arguments : List String) (m : Machine) : Heeds arguments m where
  decided := undecided_or_exists_decides arguments
  looks _ _ h depth session := perform_of_agree h depth session _
  helps := by
    rintro before argument after rfl hbefore hdecides
    exact ⟨need_of_decides hbefore hdecides after, runProgram_of_decides hbefore hdecides after⟩
  refuses := by
    rintro before argument after reason rfl hbefore hdecides
    exact ⟨need_of_decides hbefore hdecides after, runProgram_of_decides hbefore hdecides after⟩
  performs := runProgram_of_undecided
  agrees h _ h' hsettings hsources := runProgram_congr h h' hsettings hsources
  rearranged h _ hmem hsources :=
    have h' := h.rearranged hmem hsources
    ⟨h', runProgram_congr h h' (fun setting _ => hmem setting) hsources⟩

/-- A second source is refused although help is asked for behind it, and tracing stays on; without it, the
settings may as well come in another order. -/
theorem heeds_arguments_secondSource :
    (Undecided ["--trace", "1;", "--ast"] ∧
      Decides ["--trace", "1;", "--ast"] "2;" (.refuse "Unexpected argument: 2;") ∧
      ∀ depth around session,
        runProgram depth around session ["--trace", "1;", "--ast", "2;", "--help"] (.start false) =
          (.quit "Unexpected argument: 2;", .start true)) ∧
    ∀ depth around session,
      runProgram depth around session ["--ast", "1;", "--ast", "--trace"] (.start false) =
        runProgram depth around session ["--trace", "1;", "--ast"] (.start false) := by
  have hbefore : Undecided ["--trace", "1;", "--ast"] := undecided_iff.mpr ⟨by decide, by decide⟩
  have hdecides : Decides ["--trace", "1;", "--ast"] "2;" (.refuse "Unexpected argument: 2;") :=
    .superfluous (by decide) ⟨"1;", by decide, by decide⟩
  have hquits := (heeds_arguments ["--trace", "1;", "--ast", "2;", "--help"] (.start false)).refuses
    ["--trace", "1;", "--ast"] "2;" ["--help"] "Unexpected argument: 2;" rfl hbefore hdecides
  have hsame := (heeds_arguments ["--trace", "1;", "--ast"] (.start false)).rearranged hbefore
    ["--ast", "1;", "--ast", "--trace"] (fun argument => by simp; tauto) (by decide)
  exact ⟨⟨hbefore, hdecides, hquits.2⟩, hsame.2⟩

end Program

end Scriptlet.CommandLine
