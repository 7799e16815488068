import Scriptlet.Proofs.Evaluation.Arithmetic

/-!
# Division

The quotient of two integers goes toward zero, and the remainder is what it leaves. Both are defined for all
divisors but zero, and for nothing else than integers: an operand that is no integer is complained of first,
also where the divisor is zero.

## What is proved

* `tmod_eq_zero_or_sign`, `natAbs_tmod_lt`: the sign and the size of a remainder.
* `apply_of_left_notInteger`, `apply_of_right_notInteger`: what is complained of first.
* `Machine.divides_toward_zero`: the two operators are this quotient and remainder.
-/

namespace Scriptlet

/-! ### Quotient and remainder -/

/-- The remainder is zero or has the sign of the dividend. -/
theorem tmod_eq_zero_or_sign (a b : Int) : a.tmod b = 0 ∨ (a.tmod b).sign = a.sign := by
  by_cases hdvd : b ∣ a
  · exact .inl (Int.tmod_eq_zero_of_dvd hdvd)
  · right
    rw [Int.sign_tmod, if_neg hdvd]

/-- The remainder is smaller than the divisor. -/
theorem natAbs_tmod_lt (a : Int) {b : Int} (hb : b ≠ 0) : (a.tmod b).natAbs < b.natAbs := by
  rw [Int.natAbs_tmod]
  exact Nat.mod_lt _ (Int.natAbs_pos.mpr hb)

/-! ### Operators that divide -/

variable {o : Operator} {x y : Value}

theorem apply_div (h : Heap) (a : Int) {b : Int} (hb : b ≠ 0) :
    Operator.div.apply h (.int a) (.int b) = .ok (.int (a.tdiv b)) :=
  if_neg hb

theorem apply_mod (h : Heap) (a : Int) {b : Int} (hb : b ≠ 0) :
    Operator.mod.apply h (.int a) (.int b) = .ok (.int (a.tmod b)) :=
  if_neg hb

theorem integer_of_notInteger (h : Heap) (o : Operator) (hx : ∀ n, x ≠ .int n) :
    h.integer o x = .error (.notInteger o (h.displayTyped x)) := by
  cases x with
  | int n => exact absurd rfl (hx n)
  | undefined | str | ref => rfl

/-- Operators that divide ask for integers before they look at the divisor. -/
theorem apply_of_integers {h : Heap} {cause : FaultCause} (ho : o.divides = true)
    (hintegers : h.integers o x y = .error cause) : o.apply h x y = .error cause := by
  cases o with
  | div | mod =>
    rw [Operator.apply, hintegers]
    rfl
  | _ => cases ho

/-- A left operand that is no integer is complained of, whatever the right one is. -/
theorem apply_of_left_notInteger (h : Heap) (ho : o.divides = true) (hx : ∀ n, x ≠ .int n) :
    o.apply h x y = .error (.notInteger o (h.displayTyped x)) := by
  refine apply_of_integers ho ?_
  rw [Heap.integers, integer_of_notInteger h o hx]
  rfl

/-- Behind an integer, a right operand that is none is complained of. -/
theorem apply_of_right_notInteger (h : Heap) (ho : o.divides = true) (a : Int) (hy : ∀ n, y ≠ .int n) :
    o.apply h (.int a) y = .error (.notInteger o (h.displayTyped y)) := by
  refine apply_of_integers ho ?_
  show (h.integer o y >>= fun n => pure (a, n)) = _
  rw [integer_of_notInteger h o hy]
  rfl

/-- On a machine, `/` and `%` are division toward zero and its remainder. -/
structure Machine.DividesTowardZero (m : Machine) : Prop where
  /-- Where the divisor is not zero, `/` comes to the quotient of the sizes with its sign, `%` to what it
  leaves, which is smaller than the divisor and has the sign of the dividend, if any. With the sign of the
  dividend both change theirs, and with that of the divisor the quotient does. -/
  divided : ∀ a b : Int, b ≠ 0 → ∃ q r : Int,
    m.Yields .div (.int a) (.int b) (.int q) ∧ m.Yields .mod (.int a) (.int b) (.int r) ∧
      a = b * q + r ∧ r.natAbs < b.natAbs ∧ (r = 0 ∨ r.sign = a.sign) ∧
      q.natAbs = a.natAbs / b.natAbs ∧
      m.Yields .div (.int (-a)) (.int b) (.int (-q)) ∧ m.Yields .div (.int a) (.int (-b)) (.int (-q)) ∧
      m.Yields .mod (.int (-a)) (.int b) (.int (-r))
  /-- An integer divided by zero is an arithmetic error. -/
  byZero : ∀ o, o.divides = true → ∀ a : Int, m.Refuses o (.int a) (.int 0) (.byZero o)
  /-- A left operand that is no integer is a type error, whatever the right one is. -/
  leftNotInteger : ∀ o, o.divides = true → ∀ x y : Value, (∀ n, x ≠ .int n) →
    m.Refuses o x y (.notInteger o (m.heap.displayTyped x))
  /-- A right operand that is no integer is a type error, if the left one is an integer. -/
  rightNotInteger : ∀ o, o.divides = true → ∀ (a : Int) (y : Value), (∀ n, y ≠ .int n) →
    m.Refuses o (.int a) y (.notInteger o (m.heap.displayTyped y))

/-- **Division and remainder go together and toward zero**, for integers of any size and sign. -/
theorem Machine.divides_toward_zero (m : Machine) : m.DividesTowardZero where
  divided a b hb := by
    have hneg : -b ≠ 0 := Int.neg_ne_zero.mpr hb
    refine ⟨a.tdiv b, a.tmod b, yields_iff.mpr (apply_div _ a hb), yields_iff.mpr (apply_mod _ a hb),
      (Int.mul_tdiv_add_tmod a b).symm, natAbs_tmod_lt a hb, tmod_eq_zero_or_sign a b,
      Int.natAbs_tdiv a b, ?_, ?_, ?_⟩
    · rw [yields_iff, apply_div _ _ hb, Int.neg_tdiv]
    · rw [yields_iff, apply_div _ _ hneg, Int.tdiv_neg]
    · rw [yields_iff, apply_mod _ _ hb, Int.neg_tmod]
  byZero o ho a := by
    rw [refuses_iff]
    exact Operator.apply_of_none _ (Operator.onIntegers?_eq_none_iff.mpr ⟨ho, rfl⟩)
  leftNotInteger o ho x y hx := refuses_iff.mpr (apply_of_left_notInteger _ ho hx)
  rightNotInteger o ho a y hy := refuses_iff.mpr (apply_of_right_notInteger _ ho a hy)

/-- Minus seven divided by two is minus three and leaves minus one; a string divided by zero is a type
error. -/
theorem Machine.divides_toward_zero_minusSeven :
    ((2 : Int) ≠ 0 ∧ (start false).Yields .div (.int (-7)) (.int 2) (.int (-3)) ∧
      (start false).Yields .mod (.int (-7)) (.int 2) (.int (-1))) ∧
    (∀ n, Value.str "7" ≠ .int n) ∧
      (start false).Refuses .div (.str "7") (.int 0) (.notInteger .div "string 7") := by
  have hdivides := divides_toward_zero (start false)
  have htwo : (2 : Int) ≠ 0 := by decide
  have hstr : ∀ n, Value.str "7" ≠ .int n := fun n h => by cases h
  obtain ⟨q, r, hq, hr, hsum, hsmall, hsign, -⟩ := hdivides.divided (-7) 2 htwo
  have hneg : r ≤ 0 := by
    rcases hsign with rfl | hsign
    · exact Int.le_refl 0
    · exact Int.le_of_lt (Int.sign_eq_neg_one_iff_neg.mp hsign)
  obtain rfl : r = -1 := by omega
  obtain rfl : q = -3 := by omega
  exact ⟨⟨htwo, hq, hr⟩, hstr, hdivides.leftNotInteger .div rfl _ _ hstr⟩

end Scriptlet
