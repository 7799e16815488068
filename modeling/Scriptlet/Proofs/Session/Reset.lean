import Scriptlet.Proofs.Evaluation.Guise
import Scriptlet.Session.Entry

/-!
# Resetting a session

A reset makes a fresh global scope behind all the objects of the session so far. None of them can be reached
from there, and where the new objects lie cannot be seen. So the session goes on as a new one would: what it
does is what that one does in another guise, with the old objects in front.

## What is proved

* `submit_behind`: an entry does the same behind other objects.
* `reset_eq`: after a reset, a session is a new one behind the objects of the old one.
* `reset_isolates`: what entries write after a reset is what they write in a new session.
-/

namespace Scriptlet

/-- The guise of what lies behind other objects. -/
def Guise.behind (front : Array Object) : Guise where
  name := id
  isVariable _ := true
  front := front
  injective _ _ hab := hab
  given _ _ := ⟨rfl, rfl⟩

namespace Session

/-! ### Sessions -/

/-- The machine after entries, with nothing but what the last of them has written. -/
def afterEntries (depth : Nat) : List String → Machine → Machine
  | [], m => m
  | entry :: entries, m => afterEntries depth entries (submit depth entry m.forgetOutput)

/-- What entries write, one by one. -/
def transcript (depth : Nat) : List String → Machine → List (Array (Channel × String))
  | [], _ => []
  | entry :: entries, m =>
    let m := submit depth entry m.forgetOutput
    m.written :: transcript depth entries m

variable {depth : Nat} {m : Machine} {front : Array Object}

theorem transcript_append (entries entries' : List String) (m : Machine) :
    transcript depth (entries ++ entries') m =
      transcript depth entries m ++ transcript depth entries' (afterEntries depth entries m) := by
  induction entries generalizing m with
  | nil => rfl
  | cons entry entries ih =>
    rw [List.cons_append, transcript, transcript, afterEntries, ih, List.cons_append]

theorem afterEntries_append (entries entries' : List String) (m : Machine) :
    afterEntries depth (entries ++ entries') m =
      afterEntries depth entries' (afterEntries depth entries m) := by
  induction entries generalizing m with
  | nil => rfl
  | cons entry entries ih => exact ih _

theorem forgetOutput_writeLine (m : Machine) (channel : Channel) (line : String) :
    (m.writeLine channel line).forgetOutput = m.forgetOutput := rfl

/-- What was written before does not matter. -/
theorem transcript_forgetOutput (entries : List String) (m : Machine) :
    transcript depth entries m.forgetOutput = transcript depth entries m := by
  cases entries <;> rfl

/-! ### Entries behind other objects -/

/-- A session can go on behind other objects. -/
structure Ready (front : Array Object) (m : Machine) : Prop where
  /-- The heap can be put in that guise. -/
  tame : (Guise.behind front).Tame m.heap
  /-- Entries run in a scope. -/
  scope : m.heap.IsScope m.root

theorem ready_start (front : Array Object) (tracing : Bool) : Ready front (.start tracing) :=
  ⟨Guise.tame_initial _, Heap.isScope_initial.mpr rfl⟩

theorem admits_behind (front : Array Object) (e : Expr) : (Guise.behind front).admits e = true := by
  have hlabel : ∀ name, (Guise.behind front).isLabel name = true :=
    fun name => Guise.isLabel_iff.mpr ⟨rfl, rfl⟩
  cases e with
  | identifier name line => rfl
  | assign name value declares line => rfl
  | function name params binds body line =>
    rw [Guise.admits, hlabel, Bool.or_true, Bool.true_and]
    exact List.all_eq_true.mpr fun _ _ => rfl
  | object fields line => exact List.all_eq_true.mpr fun field _ => hlabel field.1
  | field receiver name line => exact hlabel name
  | setField receiver name value line => exact hlabel name
  | method receiver name args line => exact hlabel name
  | _ => rfl

/-- Writing something is no obstacle to going on. -/
theorem Ready.congr {m' : Machine} (hm : Ready front m) (hheap : m'.heap = m.heap)
    (hroot : m'.root = m.root) : Ready front m' := by
  obtain ⟨htame, hscope⟩ := hm
  exact ⟨hheap ▸ htame, hheap ▸ hroot ▸ hscope⟩

theorem report_behind (m : Machine) (f : Failure) :
    ((Guise.behind front).machine m).report f = (Guise.behind front).machine (m.report f) := by
  obtain ⟨heap, written, tracing, root⟩ := m
  cases tracing <;> rfl

theorem Ready.report (hm : Ready front m) (f : Failure) : Ready front (m.report f) := by
  obtain ⟨heap, written, tracing, root⟩ := m
  cases tracing
  · exact hm.congr rfl rfl
  · exact hm.congr rfl rfl

theorem echo_behind (hm : Ready front m) (r : Reply) :
    echo ((Guise.behind front).machine m) ((Guise.behind front).reply r) =
      (Guise.behind front).machine (echo m r) := by
  have hdisplay := Guise.display_value hm.tame.visible r.value
  have hundefined : (Guise.behind front).value r.value = .undefined ↔ r.value = .undefined :=
    ⟨fun heq => Guise.value_injective heq, congrArg _⟩
  unfold echo
  simp only [Guise.reply, Guise.machine, hundefined, hdisplay]
  split
  · rfl
  · rfl

theorem Ready.echo (hm : Ready front m) (r : Reply) : Ready front (Session.echo m r) := by
  unfold Session.echo
  split
  · exact hm
  · exact hm.congr rfl rfl

theorem reset_behind (hm : Ready front m) :
    ((Guise.behind front).machine m).reset = (Guise.behind front).machine m.reset ∧
      Ready front m.reset := by
  have hglobals := Guise.createGlobals_heap m.heap (G := Guise.behind front)
  refine ⟨?_, hm.tame.createGlobals, m.heap.isScope_createGlobals⟩
  unfold Machine.reset
  simp only [Guise.machine, hglobals]

theorem command_behind (hm : Ready front m) (command : Command) :
    command.run ((Guise.behind front).machine m) = (Guise.behind front).machine (command.run m) ∧
      Ready front (command.run m) := by
  cases command with
  | reset =>
    obtain ⟨hsame, hready⟩ := reset_behind hm
    rw [Command.run, hsame]
    exact ⟨rfl, hready.tame, hready.scope⟩
  | _ => exact ⟨rfl, hm.congr rfl rfl⟩

/-- What becomes of the outcome of a piece of script: its value or its error is written. -/
def answer : Outcome Reply → Machine
  | (.ok reply, m) => echo m reply
  | (.error f, m) => m.report f

theorem runPiece_eq_answer (text : String) (m : Machine) :
    runPiece depth text m = answer (runEntry depth m.root text m) := by
  rw [runPiece]
  rcases runEntry depth m.root text m with ⟨_ | _, _⟩
  · rfl
  · rfl

/-- A blank entry does nothing. -/
theorem submit_of_blank {text : String} (h : Text.isAllBlank (normalize text) = true) (m : Machine) :
    submit depth text m = m := by
  unfold submit
  exact if_pos h

/-- An entry that is neither blank nor a command is run without the characters that cannot be seen. -/
theorem submit_of_script {text : String} (hblank : Text.isAllBlank (normalize text) = false)
    (hcommand : Command.ofEntry? (normalize text) = none) (m : Machine) :
    submit depth text m = answer (runEntry depth m.root (normalize text) m) := by
  unfold submit
  dsimp only
  rw [hblank, hcommand]
  exact runPiece_eq_answer _ m

/-- A command is carried out. -/
theorem submit_of_command {text : String} {command : Command}
    (hblank : Text.isAllBlank (normalize text) = false)
    (hcommand : Command.ofEntry? (normalize text) = some command) (m : Machine) :
    submit depth text m = command.run m := by
  unfold submit
  dsimp only
  rw [hblank, hcommand]
  rfl

/-- What an entry does: nothing, what a command says, or what a piece of script comes to. -/
theorem submit_cases (depth : Nat) (text : String) (m : Machine) :
    submit depth text m = m ∨
      (∃ command, Command.ofEntry? (normalize text) = some command ∧
        submit depth text m = command.run m) ∨
      (Command.ofEntry? (normalize text) = none ∧
        submit depth text m = answer (runEntry depth m.root (normalize text) m)) := by
  by_cases hblank : Text.isAllBlank (normalize text) = true
  · exact .inl (submit_of_blank hblank m)
  · rw [Bool.not_eq_true] at hblank
    cases hcommand : Command.ofEntry? (normalize text) with
    | some command => exact .inr (.inl ⟨command, rfl, submit_of_command hblank hcommand m⟩)
    | none => exact .inr (.inr ⟨rfl, submit_of_script hblank hcommand m⟩)

theorem answer_behind {o o' : Outcome Reply} (hm : Ready front m)
    (hagree : (Guise.behind front).Agree m (Guise.behind front).reply o o') :
    answer o' = (Guise.behind front).machine (answer o) ∧ Ready front (answer o) := by
  obtain ⟨result, m₁⟩ := o
  obtain ⟨result', m₁'⟩ := o'
  obtain ⟨hresult, hmachine, htame, hgrows, hroot⟩ := hagree
  obtain rfl : result' = _ := hresult
  obtain rfl : m₁' = _ := hmachine
  have hscope : m₁.heap.IsScope m₁.root := by
    rw [show m₁.root = m.root from hroot]
    exact hgrows.isScope hm.scope
  have hready : Ready front m₁ := ⟨htame, hscope⟩
  cases result with
  | ok r => exact ⟨echo_behind hready r, hready.echo r⟩
  | error f =>
    have hf : f.rename (Guise.behind front).name = f := f.rename_id
    refine ⟨?_, hready.report f⟩
    show ((Guise.behind front).machine m₁).report (f.rename _) = _
    rw [hf, report_behind, answer]

theorem runPiece_behind (hm : Ready front m) (text : String) :
    runPiece depth text ((Guise.behind front).machine m) =
        (Guise.behind front).machine (runPiece depth text m) ∧
      Ready front (runPiece depth text m) := by
  rw [runPiece_eq_answer, runPiece_eq_answer, runEntry, runEntry]
  cases Parsing.parse text with
  | error e => exact ⟨report_behind m _, hm.report _⟩
  | ok script =>
    have hbody : script.body.all (Guise.behind front).admits = true :=
      script.body.all_of_forall (admits_behind front)
    have hagree := Guise.agree_runBody depth hm.tame hm.scope hbody
    have hname : (Guise.behind front).name = id := rfl
    rw [hname, script.body.rename_id] at hagree
    exact answer_behind hm hagree

/-- An entry does the same behind other objects, and the session can go on after it. -/
theorem submit_behind (depth : Nat) (hm : Ready front m) (entry : String) :
    submit depth entry ((Guise.behind front).machine m) =
        (Guise.behind front).machine (submit depth entry m) ∧
      Ready front (submit depth entry m) := by
  unfold submit
  dsimp only
  split
  · exact ⟨rfl, hm⟩
  · split
    · exact command_behind hm _
    · exact runPiece_behind hm _

/-- Entries write the same behind other objects. -/
theorem transcript_behind (hm : Ready front m) (entries : List String) :
    transcript depth entries ((Guise.behind front).machine m) = transcript depth entries m := by
  induction entries generalizing m with
  | nil => rfl
  | cons entry entries ih =>
    have hforget : Ready front m.forgetOutput := hm.congr rfl rfl
    obtain ⟨hsame, hready⟩ := submit_behind depth hforget entry
    have hsubmit : submit depth entry ((Guise.behind front).machine m).forgetOutput =
        (Guise.behind front).machine (submit depth entry m.forgetOutput) := hsame
    rw [transcript, transcript, hsubmit, ih hready, Guise.written_machine]

/-! ### Resets -/

theorem submit_reset (m : Machine) : submit depth "/reset" m = Command.reset.run m := by
  have hnormal : normalize "/reset" = "/reset" := by decide
  have hblank : Text.isAllBlank "/reset" = false := by decide
  have hcommand : Command.ofEntry? "/reset" = some .reset := by decide
  unfold submit
  rw [hnormal]
  dsimp only
  rw [hblank, hcommand]
  rfl

/-- After a reset, a session is a new one behind the objects of the old one. -/
theorem reset_eq (m : Machine) :
    m.reset.forgetOutput = (Guise.behind m.heap.objects).machine (.start m.tracing) := by
  have hempty : (Guise.behind m.heap.objects).heap ⟨#[]⟩ = m.heap := by
    simp only [Guise.heap, Guise.behind, Array.map_empty, Array.append_empty]
  have hglobals := Guise.createGlobals_heap (G := Guise.behind m.heap.objects) ⟨#[]⟩
  rw [hempty, Heap.createGlobals_empty] at hglobals
  unfold Machine.reset
  simp only [hglobals]
  rfl

/-- **A reset isolates a session from its past.** Whatever entries come before it, those after it write
what they write in a new session in which tracing is as it was, one by one. -/
theorem reset_isolates (depth : Nat) (tracing : Bool) (before after : List String) :
    let m := afterEntries depth before (.start tracing)
    transcript depth (before ++ "/reset" :: after) (.start tracing) =
      transcript depth (before ++ ["/reset"]) (.start tracing) ++
        transcript depth after (.start m.tracing) := by
  intro m
  have hafter : afterEntries depth (before ++ ["/reset"]) (.start tracing) =
      submit depth "/reset" m.forgetOutput := afterEntries_append before ["/reset"] _
  have hreset : (Command.reset.run m.forgetOutput).forgetOutput =
      (Guise.behind m.heap.objects).machine (.start m.tracing) := by
    rw [Command.run, forgetOutput_writeLine, reset_eq]
    rfl
  have happend : before ++ "/reset" :: after = (before ++ ["/reset"]) ++ after := by
    rw [List.append_assoc, List.singleton_append]
  rw [happend, transcript_append, hafter, submit_reset, ← transcript_forgetOutput after, hreset,
    transcript_behind (ready_start _ _)]

end Session

end Scriptlet
