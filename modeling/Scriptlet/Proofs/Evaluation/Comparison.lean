import Scriptlet.Proofs.Evaluation.Operators

/-!
# Comparisons

Equality is defined for all values, and an order only between integers and between strings. Six operators
ask about them, and they agree: where two values have an order, all six answers are told by it, and where they
have none, only equality and its negation have an answer.

## What is proved

* `Value.order?_swap`, `Value.order?_trans`: the order of two values read from the other side, and along
  three values.
* `decides_ordering_iff`: what an operator that asks about the order answers, and when.
* `decides_of_order`: where there is an order, it tells all six answers.
* `Machine.orders_values`: comparisons are coherent on every heap.
-/

namespace Scriptlet

/-! ### The order of values -/

/-- The code points of a string. -/
def codePoints (s : String) : List Nat := s.toList.map Char.toNat

theorem lex_map_toNat {cs ds : List Char} :
    List.Lex (· < ·) (cs.map Char.toNat) (ds.map Char.toNat) ↔ cs < ds := by
  induction cs generalizing ds with
  | nil => cases ds <;> simp
  | cons c cs ih =>
    cases ds with
    | nil => simp
    | cons d ds =>
      rw [List.map_cons, List.map_cons, List.cons_lex_cons_iff, List.cons_lt_cons_iff, ih,
        Char.toNat_inj]
      exact Iff.rfl

/-- Strings are ordered by the first code point in which they differ, and if there is none, the shorter one
comes first. -/
theorem compare_string_eq_lt {s t : String} :
    compare s t = .lt ↔ List.Lex (· < ·) (codePoints s) (codePoints t) :=
  compareOfLessAndEq_eq_lt.trans (String.lt_iff.trans lex_map_toNat.symm)

namespace Value

/-- Both values are integers, or both are strings. -/
inductive Comparable : Value → Value → Prop where
  /-- Integers. -/
  | integers (x y : Int) : Comparable (.int x) (.int y)
  /-- Strings. -/
  | strings (s t : String) : Comparable (.str s) (.str t)

variable {a b c : Value}

theorem order?_isSome_iff : (a.order? b).isSome ↔ a.Comparable b := by
  constructor
  · intro h
    cases a <;> cases b <;> first | exact .integers .. | exact .strings .. | cases h
  · rintro (⟨x, y⟩ | ⟨s, t⟩) <;> rfl

/-- Values that have an order are the same exactly if neither comes first. -/
theorem order?_eq_eq_iff {o : Ordering} (h : a.order? b = some o) : o = .eq ↔ a = b := by
  cases order?_isSome_iff.mp (Option.isSome_of_eq_some h) with
  | integers x y =>
    cases h
    rw [Std.compare_eq_iff_eq, int.injEq]
  | strings s t =>
    cases h
    rw [Std.compare_eq_iff_eq, str.injEq]

/-- From the other side the order is the opposite one. -/
theorem order?_swap (a b : Value) : b.order? a = (a.order? b).map Ordering.swap := by
  cases a with
  | int x => cases b <;> first | rfl | exact congrArg some Std.OrientedOrd.eq_swap
  | str s => cases b <;> first | rfl | exact congrArg some Std.OrientedOrd.eq_swap
  | undefined | ref => cases b <;> rfl

/-- Two steps up are one. -/
theorem isLT_trans {α : Type} [Ord α] [Std.TransOrd α] {x y z : α} (h : (compare x y).isLT)
    (h' : (compare y z).isLT) : (compare x z).isLT :=
  Ordering.isLT_iff_eq_lt.mpr
    (Std.TransCmp.lt_trans (Ordering.isLT_iff_eq_lt.mp h) (Ordering.isLT_iff_eq_lt.mp h'))

/-- Of three values with an order between the first two and the last two, there is one between the first and
the last; if neither step goes down, it does not, and if both go up, it does. -/
theorem order?_trans {o o' : Ordering} (h : a.order? b = some o) (h' : b.order? c = some o') :
    ∃ o'', a.order? c = some o'' ∧ (o.isLE → o'.isLE → o''.isLE) ∧ (o.isLT → o'.isLT → o''.isLT) := by
  cases order?_isSome_iff.mp (Option.isSome_of_eq_some h) with
  | integers x y =>
    cases order?_isSome_iff.mp (Option.isSome_of_eq_some h') with
    | integers _ z =>
      cases h
      cases h'
      exact ⟨_, rfl, Std.TransOrd.isLE_trans, isLT_trans⟩
  | strings s t =>
    cases order?_isSome_iff.mp (Option.isSome_of_eq_some h') with
    | strings _ u =>
      cases h
      cases h'
      exact ⟨_, rfl, Std.TransOrd.isLE_trans, isLT_trans⟩

end Value

/-! ### What the operators answer -/

/-- What an operator that asks about an order wants to know of it. -/
def Operator.ordering? : Operator → Option (Ordering → Bool)
  | lt => some Ordering.isLT
  | le => some Ordering.isLE
  | gt => some Ordering.isGT
  | ge => some Ordering.isGE
  | _ => none

/-- Called with two values, an operator comes to `1` if `t` is true and to `0` otherwise. -/
def Machine.Decides (m : Machine) (o : Operator) (a b : Value) (t : Bool) : Prop :=
  m.Yields o a b (.ofBool t)

variable {m : Machine} {a b c : Value} {o : Operator} {test : Ordering → Bool} {t : Bool}

theorem Value.ofBool_inj {s t : Bool} (h : Value.ofBool s = .ofBool t) : s = t := by
  cases s <;> cases t <;> first | rfl | cases h

/-- What an operator that asks about an order makes of two values is told by their order. -/
theorem apply_ordering (h : Heap) (ho : o.ordering? = some test) (a b : Value) :
    o.apply h a b = (h.order a b).map fun order => .ofBool (test order) := by
  cases o with
  | lt | le | gt | ge =>
    obtain rfl := Option.some.inj ho
    rw [Operator.apply]
    cases h.order a b <;> rfl
  | _ => cases ho

/-- An operator that asks about an order answers exactly if there is one, and by that order. -/
theorem decides_ordering_iff (ho : o.ordering? = some test) :
    m.Decides o a b t ↔ ∃ order, a.order? b = some order ∧ test order = t := by
  rw [Machine.Decides, yields_iff, apply_ordering _ ho, Heap.order]
  cases a.order? b with
  | none => exact ⟨nofun, nofun⟩
  | some order =>
    constructor
    · intro h
      exact ⟨order, rfl, Value.ofBool_inj (Except.ok.inj h)⟩
    · rintro ⟨_, ⟨⟩, rfl⟩
      rfl

/-- It fails if there is none. -/
theorem refuses_ordering (ho : o.ordering? = some test) (hnone : a.order? b = none) :
    m.Refuses o a b (.incomparable (m.heap.displayTyped a) (m.heap.displayTyped b)) := by
  rw [refuses_iff, apply_ordering _ ho, Heap.order, hnone]
  rfl

theorem decides_eq_iff : m.Decides .eq a b t ↔ a.equals b = t := by
  rw [Machine.Decides, yields_iff]
  exact ⟨fun h => Value.ofBool_inj (Except.ok.inj h), fun h => h ▸ rfl⟩

theorem decides_ne_iff : m.Decides .ne a b t ↔ (!a.equals b) = t := by
  rw [Machine.Decides, yields_iff]
  exact ⟨fun h => Value.ofBool_inj (Except.ok.inj h), fun h => h ▸ rfl⟩

/-- An operator asks the same as another one asks from the other side. -/
theorem decides_swap_iff {o' : Operator} {test' : Ordering → Bool} (ho : o.ordering? = some test)
    (ho' : o'.ordering? = some test') (htests : ∀ order : Ordering, test' order.swap = test order) :
    m.Decides o a b t ↔ m.Decides o' b a t := by
  rw [decides_ordering_iff ho, decides_ordering_iff ho', Value.order?_swap a b]
  cases a.order? b with
  | none => exact ⟨nofun, nofun⟩
  | some order => simp [htests]

/-- Comparisons are coherent on the heap of a machine. -/
structure Machine.OrdersValues (m : Machine) : Prop where
  /-- Equality is an equivalence. -/
  equivalence : Equivalence fun a b : Value => a.equals b = true
  /-- `==` asks about equality and `!=` about its negation, and both always have an answer. -/
  equality : ∀ a b, m.Decides .eq a b (a.equals b) ∧ m.Decides .ne a b (!a.equals b)
  /-- There is an order exactly between integers and between strings. -/
  comparable : ∀ a b, (∃ order, m.heap.order a b = .ok order) ↔ a.Comparable b
  /-- The order tells the answers of `<`, `==` and `>`. -/
  told : ∀ a b order, m.heap.order a b = .ok order → m.Decides .lt a b order.isLT ∧
    m.Decides .eq a b order.isEq ∧ m.Decides .gt a b order.isGT
  /-- Where there is an order, exactly one of `<`, `==` and `>` is true; `<=`, `>=` and `!=` are the negations
  of `>`, `<` and `==`. -/
  decided : ∀ a b, a.Comparable b → ∃ less same greater,
    m.Decides .lt a b less ∧ m.Decides .eq a b same ∧ m.Decides .gt a b greater ∧
      m.Decides .le a b (!greater) ∧ m.Decides .ge a b (!less) ∧ m.Decides .ne a b (!same) ∧
      [less, same, greater].count true = 1
  /-- From the other side the order is the opposite one. -/
  opposite : ∀ a b order, m.heap.order a b = .ok order → m.heap.order b a = .ok order.swap
  /-- With its operands swapped, an operator answers as its mirror image does. -/
  mirrored : ∀ a b t, (m.Decides .lt a b t ↔ m.Decides .gt b a t) ∧
    (m.Decides .le a b t ↔ m.Decides .ge b a t) ∧ (m.Decides .eq a b t ↔ m.Decides .eq b a t) ∧
    (m.Decides .ne a b t ↔ m.Decides .ne b a t)
  /-- `<` is transitive. -/
  lt_trans : ∀ a b c, m.Decides .lt a b true → m.Decides .lt b c true → m.Decides .lt a c true
  /-- `<=` is transitive. -/
  le_trans : ∀ a b c, m.Decides .le a b true → m.Decides .le b c true → m.Decides .le a c true
  /-- Integers are ordered by size. -/
  integers : ∀ x y, m.Decides .lt (.int x) (.int y) true ↔ x < y
  /-- Strings are ordered lexicographically by code point. -/
  strings : ∀ s t, m.Decides .lt (.str s) (.str t) true ↔
    List.Lex (· < ·) (codePoints s) (codePoints t)
  /-- Where there is no order, the operators that ask about it fail with a type error. -/
  failing : ∀ a b, ¬ a.Comparable b → ∀ o ∈ [Operator.lt, .le, .gt, .ge],
    m.Refuses o a b (.incomparable (m.heap.displayTyped a) (m.heap.displayTyped b))

theorem equals_comm (a b : Value) : a.equals b = b.equals a :=
  decide_eq_decide.mpr eq_comm

theorem equivalence_equals : Equivalence fun a b : Value => a.equals b = true where
  refl _ := decide_eq_true rfl
  symm h := decide_eq_true (of_decide_eq_true h).symm
  trans h h' := decide_eq_true ((of_decide_eq_true h).trans (of_decide_eq_true h'))

theorem order_eq_ok_iff {h : Heap} {order : Ordering} :
    h.order a b = .ok order ↔ a.order? b = some order := by
  rw [Heap.order]
  cases a.order? b <;> simp

/-- Values that have an order are equal exactly if neither comes first. -/
theorem equals_eq_isEq {order : Ordering} (h : a.order? b = some order) : a.equals b = order.isEq := by
  rw [Value.equals, Bool.eq_iff_iff, decide_eq_true_iff, ← Value.order?_eq_eq_iff h,
    Ordering.isEq_iff_eq_eq]

/-- Where there is an order, it tells all six answers. -/
theorem decides_of_order {order : Ordering} (m : Machine) (h : a.order? b = some order) :
    m.Decides .lt a b order.isLT ∧ m.Decides .eq a b order.isEq ∧ m.Decides .gt a b order.isGT ∧
      m.Decides .le a b (!order.isGT) ∧ m.Decides .ge a b (!order.isLT) ∧
      m.Decides .ne a b (!order.isEq) := by
  have hdecides : ∀ {o test}, Operator.ordering? o = some test → m.Decides o a b (test order) :=
    fun ho => (decides_ordering_iff ho).mpr ⟨order, h, rfl⟩
  have hle : order.isLE = !order.isGT := by cases order <;> rfl
  have hge : order.isGE = !order.isLT := by cases order <;> rfl
  exact ⟨hdecides rfl, decides_eq_iff.mpr (equals_eq_isEq h), hdecides rfl, hle ▸ hdecides rfl,
    hge ▸ hdecides rfl, decides_ne_iff.mpr (congrArg _ (equals_eq_isEq h))⟩

/-- **Comparisons are coherent** on every heap. -/
theorem Machine.orders_values (m : Machine) : m.OrdersValues where
  equivalence := equivalence_equals
  equality _ _ := ⟨decides_eq_iff.mpr rfl, decides_ne_iff.mpr rfl⟩
  comparable a b := by
    simp only [order_eq_ok_iff, ← Option.isSome_iff_exists]
    exact Value.order?_isSome_iff
  told a b order h := by
    obtain ⟨hless, hsame, hgreater, -⟩ := decides_of_order m (order_eq_ok_iff.mp h)
    exact ⟨hless, hsame, hgreater⟩
  decided a b h := by
    obtain ⟨order, horder⟩ := Option.isSome_iff_exists.mp (Value.order?_isSome_iff.mpr h)
    obtain ⟨hless, hsame, hgreater, hle, hge, hne⟩ := decides_of_order m horder
    refine ⟨_, _, _, hless, hsame, hgreater, hle, hge, hne, ?_⟩
    cases order <;> rfl
  opposite a b order h := by
    rw [order_eq_ok_iff] at h ⊢
    rw [Value.order?_swap a b, h]
    rfl
  mirrored a b t := by
    refine ⟨decides_swap_iff rfl rfl fun _ => Ordering.isGT_swap,
      decides_swap_iff rfl rfl fun _ => Ordering.isGE_swap, ?_, ?_⟩
    · rw [decides_eq_iff, decides_eq_iff, equals_comm]
    · rw [decides_ne_iff, decides_ne_iff, equals_comm]
  lt_trans a b c h h' := by
    obtain ⟨o, ho, hlt⟩ := (decides_ordering_iff rfl).mp h
    obtain ⟨o', ho', hlt'⟩ := (decides_ordering_iff rfl).mp h'
    obtain ⟨o'', ho'', -, htrans⟩ := Value.order?_trans ho ho'
    exact (decides_ordering_iff rfl).mpr ⟨o'', ho'', htrans hlt hlt'⟩
  le_trans a b c h h' := by
    obtain ⟨o, ho, hle⟩ := (decides_ordering_iff rfl).mp h
    obtain ⟨o', ho', hle'⟩ := (decides_ordering_iff rfl).mp h'
    obtain ⟨o'', ho'', htrans, -⟩ := Value.order?_trans ho ho'
    exact (decides_ordering_iff rfl).mpr ⟨o'', ho'', htrans hle hle'⟩
  integers x y := by
    rw [decides_ordering_iff rfl]
    simp [Value.order?, Ordering.isLT_iff_eq_lt, Int.compare_eq_lt]
  strings s t := by
    rw [decides_ordering_iff rfl]
    simp [Value.order?, Ordering.isLT_iff_eq_lt, compare_string_eq_lt]
  failing a b h o ho := by
    have hnone : a.order? b = none := by
      rw [← Option.not_isSome_iff_eq_none, Value.order?_isSome_iff]
      exact h
    simp only [List.mem_cons, List.not_mem_nil, or_false] at ho
    rcases ho with rfl | rfl | rfl | rfl <;> exact refuses_ordering rfl hnone

/-- Capital letters come before small ones, and a numeral in a string has no order with a number. -/
theorem Machine.orders_values_strings :
    (Value.Comparable (.str "Z") (.str "a") ∧ (start false).Decides .lt (.str "Z") (.str "a") true ∧
      (start false).Decides .ge (.str "Z") (.str "a") false) ∧
    ¬ Value.Comparable (.str "1") (.int 1) ∧
      (start false).Refuses .lt (.str "1") (.int 1) (.incomparable "string 1" "integer 1") := by
  have horders := orders_values (start false)
  have hlt := (horders.strings "Z" "a").mpr (.rel (by decide))
  obtain ⟨less, same, greater, hless, -, -, -, hge, -⟩ := horders.decided _ _ (.strings "Z" "a")
  obtain rfl : less = true := Value.ofBool_inj (EStateM.Result.ok.inj (hless.symm.trans hlt)).1
  have hnone : ¬ Value.Comparable (.str "1") (.int 1) := fun h => by cases h
  exact ⟨⟨.strings "Z" "a", hlt, hge⟩, hnone, horders.failing _ _ hnone .lt List.mem_cons_self⟩

end Scriptlet
