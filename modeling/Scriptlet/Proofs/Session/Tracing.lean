import Scriptlet.Proofs.Evaluation.Tracing
import Scriptlet.Proofs.Parsing.RoundTrip
import Scriptlet.Proofs.Session.Reset

/-!
# Sessions with tracing on and off

Entries that are not about tracing do the same whether tracing is on or off: they come to the same results,
write the same to the program and the console, and leave the same bindings. What a session writes as
diagnostics is all that can tell.

## What is proved

* `submit_alike`: an entry leaves machines that are alike alike.
* `tracing_unnoticed`: scripts and sessions with tracing on and off.
-/

namespace Scriptlet.Session

/-! ### Entries about tracing -/

/-- The command is about tracing. -/
def Command.isTracing : Command → Bool
  | setTracing _ | toggleTracing | misuseTracing => true
  | clear | reset | unknown _ => false

/-- The entry is a command about tracing. -/
def asksForTracing (entry : String) : Bool :=
  (Command.ofEntry? (normalize entry)).any Command.isTracing

/-- What an entry comes to: a value or a failure, if it is a piece of script. -/
def resultOf (depth : Nat) (entry : String) (m : Machine) : Option (Except Failure Reply) :=
  let text := normalize entry
  if Text.isAllBlank text then none
  else match Command.ofEntry? text with
    | some _ => none
    | none => some (runEntry depth m.root text m).1

/-- What entries come to, one by one. -/
def results (depth : Nat) : List String → Machine → List (Option (Except Failure Reply))
  | [], _ => []
  | entry :: entries, m => resultOf depth entry m :: results depth entries (submit depth entry m.forgetOutput)

variable {depth : Nat} {m m' : Machine}

/-! ### Entries on machines that are alike -/

theorem alike_report (m : Machine) (f : Failure) : m.Alike (m.report f) :=
  (m.alike_diagnostic _).trans (Machine.alike_trace _ _)

theorem echo_alike (hm : m.Alike m') (r : Reply) : (echo m r).Alike (echo m' r) := by
  unfold echo
  rw [hm.heap]
  split
  · exact hm
  · exact hm.write _ _

theorem reset_alike (hm : m.Alike m') : m.reset.Alike m'.reset := by
  unfold Machine.reset
  rw [hm.heap]
  exact ⟨rfl, rfl, hm.proper⟩

/-- A command that is not about tracing does the same on machines that are alike. -/
theorem command_alike (hm : m.Alike m') {command : Command} (hc : command.isTracing = false) :
    (command.run m).Alike (command.run m') := by
  cases command with
  | clear => exact hm.write _ _
  | reset => exact (reset_alike hm).write _ _
  | unknown name => exact hm.write _ _
  | _ => cases hc

theorem runPiece_alike (hm : m.Alike m') (text : String) :
    (runPiece depth text m).Alike (runPiece depth text m') := by
  rw [runPiece_eq_answer, runPiece_eq_answer, hm.root]
  obtain ⟨hresult, hmachine⟩ := runEntry_alike depth m.root text hm
  generalize runEntry depth m.root text m = o, runEntry depth m.root text m' = o' at hresult hmachine
  obtain ⟨result, m₁⟩ := o
  obtain ⟨result', m₁'⟩ := o'
  obtain rfl : result' = result := hresult
  cases result' with
  | ok reply => exact echo_alike hmachine reply
  | error f => exact (alike_report m₁ f).symm.trans (hmachine.trans (alike_report m₁' f))

/-- **An entry that is not about tracing leaves machines alike that are so before it.** -/
theorem submit_alike (depth : Nat) (hm : m.Alike m') {entry : String}
    (hentry : asksForTracing entry = false) :
    (submit depth entry m).Alike (submit depth entry m') := by
  unfold asksForTracing at hentry
  unfold submit
  dsimp only
  split
  · exact hm
  · split
    · next command hcommand =>
      rw [hcommand] at hentry
      exact command_alike hm hentry
    · exact runPiece_alike hm _

theorem resultOf_alike (hm : m.Alike m') (entry : String) :
    resultOf depth entry m' = resultOf depth entry m := by
  unfold resultOf
  dsimp only
  rw [hm.root, (runEntry_alike depth m.root (normalize entry) hm).result]

theorem forgetOutput_alike (hm : m.Alike m') : m.forgetOutput.Alike m'.forgetOutput :=
  ⟨hm.heap, hm.root, rfl⟩

/-- Entries that are not about tracing come to the same on machines that are alike. -/
theorem entries_alike (depth : Nat) (hm : m.Alike m') {entries : List String}
    (hentries : ∀ entry ∈ entries, asksForTracing entry = false) :
    results depth entries m' = results depth entries m ∧
      (transcript depth entries m').map (·.filter isProper) =
        (transcript depth entries m).map (·.filter isProper) ∧
      (afterEntries depth entries m).Alike (afterEntries depth entries m') := by
  induction entries generalizing m m' with
  | nil => exact ⟨rfl, rfl, hm⟩
  | cons entry entries ih =>
    obtain ⟨hentry, hentries⟩ := List.forall_mem_cons.mp hentries
    have hsubmit := submit_alike depth (forgetOutput_alike hm) hentry
    obtain ⟨hresults, htranscript, hafter⟩ := ih hsubmit hentries
    refine ⟨?_, ?_, hafter⟩
    · rw [results, results, resultOf_alike hm, hresults]
    · have hproper : (submit depth entry m'.forgetOutput).written.filter isProper =
          (submit depth entry m.forgetOutput).written.filter isProper := hsubmit.proper
      simp only [transcript, List.map_cons, htranscript, hproper]

/-- **Tracing is not noticed.** With tracing on and with tracing off, a script comes to the same value or the
same failure, having written the same to the program and the console, and leaves the same objects; and so do
entries of a session that are not about tracing, one by one. Only diagnostics may be different. -/
theorem tracing_unnoticed (depth : Nat) (m : Machine) :
    (∀ source : String, (runScript depth source { m with tracing := true }).Alike
      (runScript depth source { m with tracing := false })) ∧
    ∀ entries : List String, (∀ entry ∈ entries, asksForTracing entry = false) →
      results depth entries { m with tracing := true } =
        results depth entries { m with tracing := false } ∧
      (transcript depth entries { m with tracing := true }).map (·.filter isProper) =
        (transcript depth entries { m with tracing := false }).map (·.filter isProper) ∧
      (afterEntries depth entries { m with tracing := true }).Alike
        (afterEntries depth entries { m with tracing := false }) := by
  have hm := m.alike_tracing true false
  refine ⟨fun source => runScript_alike depth source hm, fun entries hentries => ?_⟩
  obtain ⟨hresults, htranscript, hafter⟩ := entries_alike depth hm hentries
  exact ⟨hresults.symm, htranscript.symm, hafter⟩

/-- A script that prints an integer. -/
def printing : Script := ⟨⟨[.call (.identifier "print" 1) [.literal (.int 1) 1] 1], 1⟩⟩

/-- With tracing on, entering it writes a diagnostic as well. -/
theorem tracing_unnoticed_printing :
    (∀ entry ∈ [printing.text], asksForTracing entry = false) ∧
    transcript 9 [printing.text] (.start true) =
      [#[(.diagnostic, "print called with [1]\n"), (.program, "1\n")]] ∧
    transcript 9 [printing.text] (.start false) = [#[(.program, "1\n")]] ∧
    (transcript 9 [printing.text] (.start true)).map (·.filter isProper) =
      (transcript 9 [printing.text] (.start false)).map (·.filter isProper) := by
  have hentries : ∀ entry ∈ [printing.text], asksForTracing entry = false := by decide
  have hparse : Parsing.parse printing.text = .ok (printing.onLine 1) :=
    Parsing.parse_text (by decide)
  have hsubmit : ∀ m, submit 9 printing.text m = answer (runBody 9 m.root printing.body m) := by
    intro m
    have hnormal : normalize printing.text = printing.text := by decide
    rw [submit_of_script (by decide) (by decide), hnormal, runEntry, hparse]
    rfl
  refine ⟨hentries, ?_, ?_, ?_⟩
  · rw [transcript, hsubmit]
    rfl
  · rw [transcript, hsubmit]
    rfl
  · exact ((tracing_unnoticed 9 (.start true)).2 _ hentries).2.1

end Scriptlet.Session
