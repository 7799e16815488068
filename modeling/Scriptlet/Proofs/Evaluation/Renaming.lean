import Scriptlet.Proofs.Evaluation.Guise

/-!
# Names of variables do not matter

A script whose variables are called differently does the same as before, as long as no two of them come to
be called the same. It prints the same, and ends in the same way; only a message about a variable without a
value has the new name in it. Names that a script can show, of fields, methods and functions, are not names
of variables only, and those that every script finds bound are not its own.

## What is proved

* `Guise.admits_renamed`: what can be rewritten may be run in the guise that the new name makes.
* `execute_rename`: a script does the same with one of its variables renamed.
-/

namespace Scriptlet

/-- The variable `x` is called `y`. -/
def renameTo (x y name : String) : String := if name = x then y else name

/-- The construct can be rewritten with `x` called `y`: it has no variable that is called `y` already, and
neither is the name of something else in it that can be seen. -/
def Expr.renamable (x y : String) : Expr → Bool
  | .identifier name _ | .assign name _ _ _ => name != y
  | .function name params binds _ _ => (!binds || (name != x && name != y)) && !params.contains y
  | .object fields _ => fields.all fun field => field.1 != x && field.1 != y
  | .field _ name _ | .setField _ name _ _ | .method _ name _ _ => name != x && name != y
  | .block _ | .literal _ _ | .call _ _ _ | .returns _ _ | .choose _ _ _ _ => true

/-- A variable of a script is called differently. -/
def Guise.renamed {x y : String} (hx : x ∉ givenNames) (hy : y ∉ givenNames) : Guise where
  name := renameTo x y
  isVariable name := name != y
  front := #[]
  injective {a b} ha hb hab := by
    rw [bne_iff_ne] at ha hb
    rw [renameTo, renameTo] at hab
    by_cases hax : a = x
    · by_cases hbx : b = x
      · exact hax.trans hbx.symm
      · rw [if_pos hax, if_neg hbx] at hab
        exact absurd hab.symm hb
    · by_cases hbx : b = x
      · rw [if_neg hax, if_pos hbx] at hab
        exact absurd hab ha
      · rwa [if_neg hax, if_neg hbx] at hab
  given name hname := by
    have hnx : name ≠ x := fun heq => hx (heq ▸ hname)
    have hny : name ≠ y := fun heq => hy (heq ▸ hname)
    exact ⟨bne_iff_ne.mpr hny, if_neg hnx⟩

namespace Guise

variable {x y : String} (hx : x ∉ givenNames) (hy : y ∉ givenNames)

/-- Nothing lies in front of the objects, which are where they were. -/
theorem value_renamed (v : Value) : (renamed hx hy).value v = v := by
  cases v <;> rfl

theorem isLabel_renamed {name : String} (hname : (name != x && name != y) = true) :
    (renamed hx hy).isLabel name = true := by
  rw [Bool.and_eq_true, bne_iff_ne] at hname
  exact isLabel_iff.mpr ⟨hname.2, if_neg hname.1⟩

theorem admits_renamed {e : Expr} (he : e.renamable x y = true) :
    (renamed hx hy).admits e = true := by
  cases e with
  | identifier name line => exact he
  | assign name value declares line => exact he
  | function name params binds body line =>
    rw [Expr.renamable, Bool.and_eq_true] at he
    rw [admits, Bool.and_eq_true]
    constructor
    · cases binds with
      | false => rfl
      | true => exact isLabel_renamed hx hy he.1
    · refine List.all_eq_true.mpr fun param hparam => bne_iff_ne.mpr fun heq => ?_
      subst heq
      have hcontains : params.contains param = true := List.contains_iff_mem.mpr hparam
      rw [hcontains] at he
      exact absurd he.2 Bool.false_ne_true
  | object fields line =>
    rw [Expr.renamable, List.all_eq_true] at he
    exact List.all_eq_true.mpr fun field hfield => isLabel_renamed hx hy (he field hfield)
  | field receiver name line => exact isLabel_renamed hx hy he
  | setField receiver name value line => exact isLabel_renamed hx hy he
  | method receiver name args line => exact isLabel_renamed hx hy he
  | _ => rfl

/-- The heap before a script runs has no variables of scripts. -/
theorem heap_renamed_initial : (renamed hx hy).heap .initial = .initial := by
  have hempty : (renamed hx hy).heap ⟨#[]⟩ = ⟨#[]⟩ := by
    simp only [heap, renamed, Array.map_empty, Array.append_empty]
  have hglobals := createGlobals_heap (G := renamed hx hy) ⟨#[]⟩
  rw [hempty, Heap.createGlobals_empty] at hglobals
  exact (congrArg Prod.snd hglobals).symm

end Guise

/-- **Names of variables do not matter.** If a variable `x` of a script is called `y` instead, which no
other variable of it is called, then the script prints the same and ends in the same way: it has the same
value, or fails for the same reason on the same line, where `x` as a name without a value is now `y`. -/
theorem execute_rename {x y : String} {script : Script} (hx : x ∉ givenNames) (hy : y ∉ givenNames)
    (hscript : script.body.all (Expr.renamable x y) = true) (depth : Nat) (tracing : Bool) :
    let run := execute depth Heap.globals (.block script.body) (.start tracing)
    let run' := execute depth Heap.globals (.block (script.rename (renameTo x y)).body) (.start tracing)
    run'.2.written = run.2.written ∧
      run'.1 = run.1.mapError (Failure.rename (renameTo x y)) := by
  intro run run'
  let G := Guise.renamed hx hy
  have hadmits : script.body.all G.admits = true :=
    script.body.all_mono (fun _ => Guise.admits_renamed hx hy) hscript
  have hglobals : Heap.initial.IsScope Heap.globals := Heap.isScope_initial.mpr rfl
  have hstart : G.machine (.start tracing) = .start tracing := by
    rw [Guise.machine, Machine.start, Guise.heap_renamed_initial]
    rfl
  have hagree := Guise.agree_execute depth G.tame_initial hglobals
    (Expr.all_block.mpr ⟨rfl, hadmits⟩) (m := .start tracing)
  rw [hstart] at hagree
  have hvalue : run.1.map G.value = run.1 := by
    rw [show G.value = id from funext (Guise.value_renamed hx hy)]
    cases run.1 <;> rfl
  have hwritten := congrArg Machine.written hagree.machine
  have hresult := hagree.result
  rw [hvalue] at hresult
  exact ⟨hwritten, hresult⟩

/-- A script that doubles a number in a function, the parameter of which is called `n`, and then looks for
`n` outside of it. -/
def doubling : Script :=
  let sum : Expr := .call (.identifier "+" 1) [.identifier "n" 1, .identifier "n" 1] 1
  ⟨⟨[.function "double" ["n"] true ⟨[.assign "n" sum false 1,
      .call (.identifier "print" 1) [.identifier "n" 1] 1], 1⟩ 1,
    .call (.identifier "double" 2) [.literal (.int 21) 2] 2,
    .call (.identifier "print" 3) [.identifier "n" 3] 3], 1⟩⟩

/-- With `n` called `k` it prints the same, and does not find `k`. -/
theorem execute_rename_doubling :
    "n" ∉ givenNames ∧ "k" ∉ givenNames ∧ doubling.body.all (Expr.renamable "n" "k") = true ∧
      let run := execute 9 Heap.globals (.block (doubling.rename (renameTo "n" "k")).body) (.start false)
      run.2.written = #[(.program, "42\n")] ∧
        run.1 = .error (.failed ⟨.undefinedName "k", some 3⟩) := by
  have hn : "n" ∉ givenNames := by decide
  have hk : "k" ∉ givenNames := by decide
  have hdoubling : doubling.body.all (Expr.renamable "n" "k") = true := by decide
  obtain ⟨hwritten, hresult⟩ := execute_rename hn hk hdoubling 9 false
  exact ⟨hn, hk, hdoubling, hwritten.trans rfl, hresult.trans rfl⟩

end Scriptlet
