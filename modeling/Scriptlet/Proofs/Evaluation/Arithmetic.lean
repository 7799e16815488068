import Scriptlet.Proofs.Evaluation.Operators

/-!
# Arithmetic

Formulas are built from integers with operators. What they come to is said here without heap, scopes and
built-in functions: division goes toward zero, the remainder is what division leaves, and comparisons come to
`1` or `0`. Where operators are intact, evaluation of a formula comes to the same and changes nothing. If
somewhere in it something is divided by zero, it fails instead, and the first such operator is the one that is
reported. Operands come before their operator, and the left one before the right one.

## What is proved

* `Operator.apply_int`: operators on integers.
* `Formula.parse_text`: source text of a formula is read as what is evaluated.
* `Formula.isComputed`: evaluation computes formulas where operators are intact.
-/

namespace Scriptlet

/-! ### Operators on integers -/

namespace Operator

/-- The quotient of two integers: that of their sizes, with a minus sign if their signs differ. -/
def quotient (m n : Int) : Int :=
  if decide (m < 0) = decide (n < 0) then (m.natAbs / n.natAbs : Nat) else -(m.natAbs / n.natAbs : Nat)

/-- What an operator makes of two integers. Nothing is divided by zero. -/
def onIntegers? : Operator → Int → Int → Option Int
  | add, m, n => some (m + n)
  | sub, m, n => some (m - n)
  | mul, m, n => some (m * n)
  | div, m, n => if n = 0 then none else some (quotient m n)
  | mod, m, n => if n = 0 then none else some (m - n * quotient m n)
  | eq, m, n => some (if m = n then 1 else 0)
  | ne, m, n => some (if m ≠ n then 1 else 0)
  | lt, m, n => some (if m < n then 1 else 0)
  | le, m, n => some (if m ≤ n then 1 else 0)
  | gt, m, n => some (if n < m then 1 else 0)
  | ge, m, n => some (if n ≤ m then 1 else 0)

/-- The operator divides. -/
def divides (o : Operator) : Bool := o == div || o == mod

theorem tdiv_eq_quotient (m n : Int) : m.tdiv n = quotient m n := by
  have hnonneg : ∀ k : Nat, ¬ Int.ofNat k < 0 := fun k => Int.not_lt.mpr (Int.natCast_nonneg k)
  cases m with
  | ofNat m =>
    cases n with
    | ofNat n => simp only [quotient, hnonneg]; rfl
    | negSucc n => simp only [quotient, hnonneg, Int.negSucc_lt_zero]; rfl
  | negSucc m =>
    cases n with
    | ofNat n => simp only [quotient, hnonneg, Int.negSucc_lt_zero]; rfl
    | negSucc n => simp only [quotient, Int.negSucc_lt_zero]; rfl

theorem tmod_eq (m n : Int) : m.tmod n = m - n * quotient m n := by
  rw [Int.tmod_def, tdiv_eq_quotient]

variable {o : Operator} {m n : Int}

theorem onIntegers?_eq_none_iff : o.onIntegers? m n = none ↔ o.divides = true ∧ n = 0 := by
  cases o <;> simp [onIntegers?, divides]

theorem ofBool_eq {b : Bool} {p : Prop} [Decidable p] (h : b = true ↔ p) :
    Value.ofBool b = .int (if p then 1 else 0) := by
  rw [Value.ofBool]
  simp only [h]

/-- What an operator makes of integers. -/
theorem apply_of_some {k : Int} (h : Heap) (hk : o.onIntegers? m n = some k) :
    o.apply h (.int m) (.int n) = .ok (.int k) := by
  have hn : o.divides = true → n ≠ 0 := by
    intro ho hn
    rw [onIntegers?_eq_none_iff.mpr ⟨ho, hn⟩] at hk
    cases hk
  cases o with
  | add => cases hk; rfl
  | sub => cases hk; rfl
  | mul => cases hk; rfl
  | div =>
    rw [onIntegers?, if_neg (hn rfl), ← tdiv_eq_quotient] at hk
    cases hk
    exact if_neg (hn rfl)
  | mod =>
    rw [onIntegers?, if_neg (hn rfl), ← tmod_eq] at hk
    cases hk
    exact if_neg (hn rfl)
  | eq => cases hk; exact congrArg Except.ok (ofBool_eq (by simp [Value.equals]))
  | ne => cases hk; exact congrArg Except.ok (ofBool_eq (by simp [Value.equals]))
  | lt => cases hk; exact congrArg Except.ok (ofBool_eq (Ordering.isLT_iff_eq_lt.trans Int.compare_eq_lt))
  | le => cases hk; exact congrArg Except.ok (ofBool_eq Int.isLE_compare)
  | gt => cases hk; exact congrArg Except.ok (ofBool_eq (Ordering.isGT_iff_eq_gt.trans Int.compare_eq_gt))
  | ge => cases hk; exact congrArg Except.ok (ofBool_eq Int.isGE_compare)

/-- Nothing is divided by zero. -/
theorem apply_of_none (h : Heap) (hnone : o.onIntegers? m n = none) :
    o.apply h (.int m) (.int n) = .error (.byZero o) := by
  obtain ⟨ho, hn⟩ := onIntegers?_eq_none_iff.mp hnone
  cases o with
  | div => exact if_pos hn
  | mod => exact if_pos hn
  | _ => cases ho

end Operator

/-! ### Formulas -/

/-- A formula, with the lines its parts are on. The line of an operator between operands is known. -/
inductive Formula where
  /-- An integer. -/
  | number (n line : Int)
  /-- An operator between two operands. -/
  | apply (o : Operator) (left right : Formula) (signLine line : Int) (known : line ≠ 0)

namespace Formula

/-- The construct that is evaluated: the function bound to the sign is called with the operands. -/
def expr : Formula → Expr
  | number n line => .literal (.int n) line
  | apply o left right signLine line _ =>
    .call (.identifier o.sign signLine) [left.expr, right.expr] line

/-- The value of a formula, unless something in it is divided by zero. -/
def value? : Formula → Option Int
  | number n _ => some n
  | apply o left right _ _ _ => do
    let m ← left.value?
    let n ← right.value?
    o.onIntegers? m n

/-- How deeply operators are nested. -/
def height : Formula → Nat
  | number _ _ => 1
  | apply _ left right _ _ _ => max left.height right.height + 1

/-- An operator in a formula. -/
structure Site where
  /-- The operator. -/
  operator : Operator
  /-- Its right operand. -/
  right : Formula
  /-- Its line. -/
  line : Int

/-- The operators in a formula: those in the left operand, those in the right one, and then the operator
between them. -/
def sites : Formula → List Site
  | number _ _ => []
  | apply o left right _ line _ => left.sites ++ right.sites ++ [⟨o, right, line⟩]

/-- Something is divided by zero there. -/
def Site.isByZero (s : Site) : Bool := s.operator.divides && s.right.value? == some 0

/-- Evaluation computes the formula: it fails at the first operator that divides by zero, and if there is none
it comes to the value of the formula. Either way the machine stays as it is. -/
structure IsComputed (f : Formula) (depth : Nat) (scope : Loc) (m : Machine) : Prop where
  /-- Something is divided by zero. -/
  failure : ∀ s, f.sites.find? Site.isByZero = some s →
    eval depth scope f.expr m = .error (.failed ⟨.byZero s.operator, some s.line⟩) m
  /-- Nothing is divided by zero. -/
  value : f.sites.find? Site.isByZero = none →
    ∃ n, f.value? = some n ∧ eval depth scope f.expr m = .ok (.int n) m

variable {f left right : Formula} {o : Operator} {signLine line : Int} {known : line ≠ 0}

theorem height_pos (f : Formula) : 0 < f.height := by
  cases f with
  | number n line => exact Nat.one_pos
  | apply o left right signLine line known => exact Nat.succ_pos _

theorem find?_sites_apply : (apply o left right signLine line known).sites.find? Site.isByZero =
    ((left.sites.find? Site.isByZero).or (right.sites.find? Site.isByZero)).or
      (if Site.isByZero ⟨o, right, line⟩ then some ⟨o, right, line⟩ else none) := by
  rw [sites, List.find?_append, List.find?_append, List.find?_singleton]

/-- Whether an operator between integers divides by zero. -/
theorem isByZero_iff {m n : Int} (hn : right.value? = some n) :
    Site.isByZero ⟨o, right, line⟩ = true ↔ o.onIntegers? m n = none := by
  rw [Site.isByZero, hn, Operator.onIntegers?_eq_none_iff, Bool.and_eq_true, beq_iff_eq,
    Option.some_inj]

theorem fits_expr (f : Formula) : f.expr.fits Lexical.isPlainName .operand = true := by
  induction f with
  | number n line => rfl
  | apply o left right signLine line known ihl ihr =>
    have hsign : (Expr.identifier o.sign signLine).operator? = some o :=
      Operator.ofSign?_eq_some.mpr rfl
    simp only [expr, Expr.fits, fitAll, hsign, ihl, ihr, Option.isSome_some, Bool.true_or,
      Bool.true_and]

/-- A formula that is written down is read as what is evaluated, on the first line. -/
theorem parse_text (f : Formula) : Parsing.parse (Script.text ⟨⟨[f.expr], 1⟩⟩) =
    .ok ⟨⟨[f.expr.onLine 1], 1⟩⟩ := by
  have hfits : (Script.mk ⟨[f.expr], 1⟩).body.fits Lexical.isPlainName = true := by
    refine Block.fits_iff.mpr fun e he => ?_
    obtain rfl : e = f.expr := List.mem_singleton.mp he
    exact Expr.fits_statement f.fits_expr
  exact Parsing.parse_text hfits

/-! ### Evaluation of formulas -/

open Eval

variable {depth : Nat} {scope : Loc} {m : Machine}

theorem IsComputed.of_failure {s : Site} (hs : f.sites.find? Site.isByZero = some s)
    (heval : eval depth scope f.expr m = .error (.failed ⟨.byZero s.operator, some s.line⟩) m) :
    f.IsComputed depth scope m where
  failure s' hs' := by
    obtain rfl : s = s' := Option.some.inj (hs.symm.trans hs')
    exact heval
  value hnone := by
    rw [hs] at hnone
    cases hnone

theorem IsComputed.of_value {n : Int} (hnone : f.sites.find? Site.isByZero = none)
    (hn : f.value? = some n) (heval : eval depth scope f.expr m = .ok (.int n) m) :
    f.IsComputed depth scope m where
  failure s hs := by
    rw [hnone] at hs
    cases hs
  value _ := ⟨n, hn, heval⟩

/-- A failure in an operand is the failure of all that is around it. -/
theorem locate_bind_of_error {α β : Type} {x : Eval α} {g : α → Eval β} {cause : FaultCause} {l : Int}
    (hx : x m = .error (.failed ⟨cause, some l⟩) m) (line : Int) :
    locate line (x >>= g) m = .error (.failed ⟨cause, some l⟩) m := by
  rw [locate, bind_of_error hx]
  rfl

theorem call_of_some {x y k : Int} (hk : o.onIntegers? x y = some k) (line : Int) :
    locate line ((Builtin.operator o).call [.int x, .int y]) m = .ok (.int k) m := by
  rw [locate, call_operator, Operator.apply_of_some _ hk]
  rfl

theorem call_of_none {x y : Int} (hnone : o.onIntegers? x y = none) (hline : line ≠ 0) :
    locate line ((Builtin.operator o).call [.int x, .int y]) m =
      .error (.failed ⟨.byZero o, some line⟩) m := by
  rw [locate, call_operator, Operator.apply_of_none _ hnone]
  exact congrArg (fun fault => EStateM.Result.error (Abrupt.failed fault) m) (if_neg hline)

/-- An operator between operands that are computed. -/
theorem isComputed_apply (hi : m.heap.OperatorsIntact) (he : m.heap.Encapsulated)
    (hs : m.heap.IsScope scope) (hleft : left.IsComputed (depth + 1) scope m)
    (hright : right.IsComputed (depth + 1) scope m) :
    (apply o left right signLine line known).IsComputed (depth + 2) scope m := by
  have heval := eval_operatorCall hi he hs o depth left.expr right.expr signLine line
  cases hl : left.sites.find? Site.isByZero with
  | some s =>
    refine .of_failure (s := s) ?_ (heval.trans (locate_bind_of_error (hleft.failure s hl) line))
    rw [find?_sites_apply, hl]
    rfl
  | none =>
    obtain ⟨x, hx, hevalx⟩ := hleft.value hl
    replace heval := heval.trans (locate_congr line (bind_of_ok hevalx))
    cases hr : right.sites.find? Site.isByZero with
    | some s =>
      refine .of_failure (s := s) ?_ (heval.trans (locate_bind_of_error (hright.failure s hr) line))
      rw [find?_sites_apply, hl, hr]
      rfl
    | none =>
      obtain ⟨y, hy, hevaly⟩ := hright.value hr
      replace heval := heval.trans (locate_congr line (bind_of_ok hevaly))
      have hvalue : (apply o left right signLine line known).value? = o.onIntegers? x y := by
        rw [value?, hx, hy]
        rfl
      have hfind : (apply o left right signLine line known).sites.find? Site.isByZero = _ :=
        find?_sites_apply
      rw [hl, hr] at hfind
      cases hk : o.onIntegers? x y with
      | some k =>
        have hzero : ¬ Site.isByZero ⟨o, right, line⟩ = true := by
          rw [isByZero_iff hy, hk]
          exact Option.some_ne_none k
        rw [if_neg hzero] at hfind
        exact .of_value hfind (hvalue.trans hk) (heval.trans (call_of_some hk line))
      | none =>
        rw [if_pos ((isByZero_iff hy).mpr hk)] at hfind
        exact .of_failure hfind (heval.trans (call_of_none hk known))

/-- **Evaluation computes formulas**: where operators are intact, in every scope, if the formula is not
nested more deeply than the evaluator may go. -/
theorem isComputed (hi : m.heap.OperatorsIntact) (he : m.heap.Encapsulated)
    (hs : m.heap.IsScope scope) (f : Formula) : ∀ {depth : Nat}, f.height ≤ depth →
      f.IsComputed depth scope m := by
  induction f with
  | number n line =>
    intro depth hdepth
    obtain ⟨depth, rfl⟩ := Nat.exists_eq_add_one.mpr hdepth
    exact .of_value rfl rfl rfl
  | apply o left right signLine line known ihl ihr =>
    intro depth hdepth
    rw [height] at hdepth
    have hpos := left.height_pos
    obtain ⟨depth, rfl⟩ : ∃ d, depth = d + 2 := ⟨depth - 2, by omega⟩
    exact isComputed_apply hi he hs (ihl (by omega)) (ihr (by omega))

end Formula

end Scriptlet
