import Mathlib.Analysis.SpecialFunctions.Log.Basic
import Mathlib.Analysis.SpecialFunctions.Pow.Real
import Significance.Scalar

/-! # Exact arithmetic

The real numbers as scalars, with an infinity of either sign and a value for what is undefined.
Nothing is rounded and nothing overflows, so the statistics of real numbers are those of the
formulas. -/

namespace Significance

/-- A real number, or what a double has beside the numbers. -/
inductive Exact where
  | real (x : ℝ)
  | infinity
  | negInfinity
  | undefined

namespace Exact

/-- How numbers are written. No statistic depends on it, only the labels of numbers do. -/
class Wording where
  text : Exact → String

instance : Coe ℝ Exact := ⟨real⟩

/-- An infinity times a real number. -/
noncomputable def infinite (x : ℝ) : Exact :=
  if 0 < x then infinity else if x < 0 then negInfinity else undefined

def neg : Exact → Exact
  | real x => real (-x)
  | infinity => negInfinity
  | negInfinity => infinity
  | undefined => undefined

noncomputable def add : Exact → Exact → Exact
  | real x, real y => real (x + y)
  | infinity, real _ | real _, infinity | infinity, infinity => infinity
  | negInfinity, real _ | real _, negInfinity | negInfinity, negInfinity => negInfinity
  | _, _ => undefined

noncomputable def mul : Exact → Exact → Exact
  | real x, real y => real (x * y)
  | infinity, real x | real x, infinity => infinite x
  | negInfinity, real x | real x, negInfinity => infinite (-x)
  | infinity, infinity | negInfinity, negInfinity => infinity
  | infinity, negInfinity | negInfinity, infinity => negInfinity
  | _, _ => undefined

/-- A divisor of zero counts as positive. -/
noncomputable def div : Exact → Exact → Exact
  | real x, real y => if y = 0 then infinite x else real (x / y)
  | real _, infinity | real _, negInfinity => real 0
  | infinity, real y => if y < 0 then negInfinity else infinity
  | negInfinity, real y => if y < 0 then infinity else negInfinity
  | _, _ => undefined

/-- An undefined value is not even equal to itself in this order. -/
def le : Exact → Exact → Prop
  | real x, real y => x ≤ y
  | negInfinity, real _ | real _, infinity | negInfinity, infinity => True
  | infinity, infinity | negInfinity, negInfinity => True
  | _, _ => False

def lt : Exact → Exact → Prop
  | real x, real y => x < y
  | negInfinity, real _ | real _, infinity | negInfinity, infinity => True
  | _, _ => False

noncomputable def abs : Exact → Exact
  | real x => real |x|
  | undefined => undefined
  | _ => infinity

noncomputable def sqrt : Exact → Exact
  | real x => if x < 0 then undefined else real (√x)
  | infinity => infinity
  | _ => undefined

noncomputable def exp : Exact → Exact
  | real x => real (Real.exp x)
  | infinity => infinity
  | negInfinity => real 0
  | undefined => undefined

noncomputable def log : Exact → Exact
  | real x => if 0 < x then real (Real.log x) else if x = 0 then negInfinity else undefined
  | infinity => infinity
  | _ => undefined

/-- A negative number has whole powers only. -/
noncomputable def pow : Exact → Exact → Exact
  | real x, real y =>
    if y = 0 then real 1
    else if 0 < x then real (x ^ y)
    else if x = 0 then if 0 < y then real 0 else infinity
    else if (⌊y⌋ : ℝ) = y then real (x ^ ⌊y⌋) else undefined
  | infinity, real y => if y = 0 then real 1 else if 0 < y then infinity else real 0
  | negInfinity, real y =>
    if y = 0 then real 1
    else if y < 0 then real 0
    else if (⌊y⌋ : ℝ) = y ∧ Odd ⌊y⌋ then negInfinity else infinity
  | undefined, real y => if y = 0 then real 1 else undefined
  | real x, infinity => if |x| = 1 then real 1 else if |x| < 1 then real 0 else infinity
  | real x, negInfinity => if |x| = 1 then real 1 else if |x| < 1 then infinity else real 0
  | real x, undefined => if x = 1 then real 1 else undefined
  | infinity, infinity | negInfinity, infinity => infinity
  | infinity, negInfinity | negInfinity, negInfinity => real 0
  | _, _ => undefined

noncomputable def whole? : Exact → Option ℤ
  | real x => if (⌊x⌋ : ℝ) = x then some ⌊x⌋ else none
  | _ => none

def isFinite : Exact → Bool
  | real _ => true
  | _ => false

open Classical in
noncomputable instance [Wording] : Scalar Exact where
  add := add
  sub x y := add x (neg y)
  mul := mul
  div := div
  neg := neg
  lt := lt
  le := le
  ofScientific mantissa negative exponent :=
    real (OfScientific.ofScientific mantissa negative exponent)
  decidableLT _ _ := inferInstance
  decidableLE _ _ := inferInstance
  ofNat n := real n
  infinity := infinity
  undefined := undefined
  isFinite := isFinite
  abs := abs
  sqrt := sqrt
  exp := exp
  log := log
  pow := pow
  whole? := whole?
  text := Wording.text

/-! ## Vectors -/

theorem real_injective : Function.Injective real := fun _ _ h => by
  injection h

@[simp] theorem real_inj {x y : ℝ} : real x = real y ↔ x = y :=
  real_injective.eq_iff

variable {n : ℕ}

/-- The entries of a real vector, as the statistics take them. -/
def ofVector (v : Fin n → ℝ) : List Exact :=
  List.ofFn fun i => real (v i)

@[simp] theorem length_ofVector (v : Fin n → ℝ) : (ofVector v).length = n := by
  simp [ofVector]

theorem ofVector_eq_map (v : Fin n → ℝ) : ofVector v = (List.ofFn v).map real :=
  List.map_ofFn.symm

theorem ofVector_injective : Function.Injective (ofVector (n := n)) := by
  intro v w h
  funext i
  exact real_injective (congrFun (List.ofFn_injective h) i)

theorem ofVector_succ (v : Fin (n + 1) → ℝ) :
    ofVector v = real (v 0) :: ofVector (Fin.tail v) := by
  simp [ofVector, List.ofFn_succ, Fin.tail]

variable [Wording]

/-! ## Arithmetic on real numbers -/

@[simp] theorem real_add (x y : ℝ) : real x + real y = real (x + y) := rfl

@[simp] theorem real_neg (x : ℝ) : -real x = real (-x) := rfl

@[simp] theorem real_sub (x y : ℝ) : real x - real y = real (x - y) :=
  congrArg real (sub_eq_add_neg x y).symm

@[simp] theorem real_mul (x y : ℝ) : real x * real y = real (x * y) := rfl

theorem real_div (x : ℝ) {y : ℝ} (h : y ≠ 0) : real x / real y = real (x / y) :=
  if_neg h

@[simp] theorem real_lt (x y : ℝ) : real x < real y ↔ x < y := Iff.rfl

@[simp] theorem real_le (x y : ℝ) : real x ≤ real y ↔ x ≤ y := Iff.rfl

theorem ne_of_lt {x y : Exact} (h : x < y) : x ≠ y := by
  rintro rfl
  cases x with
  | real x => exact lt_irrefl x h
  | infinity | negInfinity | undefined => exact h

theorem ofScientific_eq (mantissa : ℕ) (negative : Bool) (exponent : ℕ) :
    (OfScientific.ofScientific mantissa negative exponent : Exact) =
      real (OfScientific.ofScientific mantissa negative exponent) := rfl

@[simp] theorem zero_eq : (0.0 : Exact) = real 0 := by
  rw [ofScientific_eq]
  norm_num

@[simp] theorem one_eq : (1.0 : Exact) = real 1 := by
  rw [ofScientific_eq]
  norm_num

@[simp] theorem two_eq : (2.0 : Exact) = real 2 := by
  rw [ofScientific_eq]
  norm_num

@[simp] theorem ofNat_eq (n : ℕ) : (Scalar.ofNat n : Exact) = real n := rfl

@[simp] theorem isFinite_real (x : ℝ) : Scalar.isFinite (real x) = true := rfl

theorem isFinite_iff {x : Exact} : Scalar.isFinite x = true ↔ ∃ r : ℝ, x = real r := by
  cases x with
  | real r => simp
  | infinity => exact ⟨fun h => Bool.noConfusion h, fun ⟨_, h⟩ => by injection h⟩
  | negInfinity => exact ⟨fun h => Bool.noConfusion h, fun ⟨_, h⟩ => by injection h⟩
  | undefined => exact ⟨fun h => Bool.noConfusion h, fun ⟨_, h⟩ => by injection h⟩

@[simp] theorem square_real (x : ℝ) : Scalar.square (real x) = real (x ^ 2) :=
  congrArg real (sq x).symm

@[simp] theorem isUndefined_real (x : ℝ) : Scalar.isUndefined (real x) = false := by
  simp [Scalar.isUndefined]

@[simp] theorem isUndefined_infinity : Scalar.isUndefined (infinity : Exact) = false := by
  have h : (infinity : Exact) ≤ infinity := trivial
  simp [Scalar.isUndefined, h]

@[simp] theorem isUndefined_undefined : Scalar.isUndefined (undefined : Exact) = true := by
  have h : ¬(undefined : Exact) ≤ undefined := id
  simp [Scalar.isUndefined, h]

theorem sqrt_real {x : ℝ} (h : 0 ≤ x) : Scalar.sqrt (real x) = real (√x) :=
  if_neg h.not_gt

@[simp] theorem maximum_real (x y : ℝ) : Scalar.maximum (real x) (real y) = real (max x y) := by
  unfold Scalar.maximum
  by_cases h : x < y
  · simp [h, max_eq_right h.le]
  · simp [h, max_eq_left (le_of_not_gt h)]

@[simp] theorem minimum_real (x y : ℝ) : Scalar.minimum (real x) (real y) = real (min x y) := by
  unfold Scalar.minimum
  by_cases h : y < x
  · simp [h, min_eq_right h.le]
  · simp [h, min_eq_left (le_of_not_gt h)]

/-! ## A positive factor -/

section

variable {c : ℝ} (hc : 0 < c)

include hc

theorem real_mul_infinity : real c * infinity = infinity :=
  if_pos hc

theorem real_mul_negInfinity : real c * negInfinity = negInfinity := by
  have hpos : ¬0 < -c := by linarith
  have hneg : -c < 0 := by linarith
  exact (if_neg hpos).trans (if_pos hneg)

theorem real_mul_pos (x : Exact) : real 0 < real c * x ↔ real 0 < x := by
  cases x with
  | real x => rw [real_mul, real_lt, real_lt, mul_pos_iff_of_pos_left hc]
  | infinity => rw [real_mul_infinity hc]
  | negInfinity => rw [real_mul_negInfinity hc]
  | undefined => rfl

theorem isFinite_real_mul (x : Exact) : Scalar.isFinite (real c * x) = Scalar.isFinite x := by
  cases x with
  | real x => rfl
  | infinity => rw [real_mul_infinity hc]
  | negInfinity => rw [real_mul_negInfinity hc]
  | undefined => rfl

end

theorem real_one_mul (x : Exact) : real 1 * x = x := by
  cases x with
  | real x => rw [real_mul, one_mul]
  | infinity => exact real_mul_infinity one_pos
  | negInfinity => exact real_mul_negInfinity one_pos
  | undefined => rfl

/-! ## Sums and maxima -/

/-- The sum from left to right of real numbers, from any start. -/
theorem foldl_add_real {β : Type*} (f : β → ℝ) (xs : List β) (start : ℝ) :
    xs.foldl (fun sum x => sum + real (f x)) (real start) = real (start + (xs.map f).sum) := by
  induction xs generalizing start with
  | nil => simp
  | cons x xs ih =>
      rw [List.foldl_cons, real_add, ih, List.map_cons, List.sum_cons, add_assoc]

@[simp] theorem total_real (xs : List ℝ) : Scalar.total (xs.map real) = real xs.sum := by
  have h := foldl_add_real id xs 0
  simpa [Scalar.total, List.foldl_map] using h

theorem foldl_maximum_real (xs : List ℝ) (start : ℝ) :
    (xs.map real).foldl Scalar.maximum (real start) = real (xs.foldl max start) := by
  induction xs generalizing start with
  | nil => rfl
  | cons x xs ih => rw [List.map_cons, List.foldl_cons, List.foldl_cons, maximum_real, ih]

theorem foldl_minimum_real (xs : List ℝ) (start : ℝ) :
    (xs.map real).foldl Scalar.minimum (real start) = real (xs.foldl min start) := by
  induction xs generalizing start with
  | nil => rfl
  | cons x xs ih => rw [List.map_cons, List.foldl_cons, List.foldl_cons, minimum_real, ih]

theorem exists_least_real {xs : List ℝ} (h : xs ≠ []) :
    ∃ x ∈ xs, Scalar.least (xs.map real) = real x ∧ ∀ y ∈ xs, x ≤ y := by
  cases xs with
  | nil => exact absurd rfl h
  | cons x xs =>
      have hmin : (x :: xs).min? = some (xs.foldl min x) := List.min?_cons'
      obtain ⟨hmem, hle⟩ := List.min?_eq_some_iff.mp hmin
      refine ⟨xs.foldl min x, hmem, ?_, hle⟩
      rw [List.map_cons, Scalar.least, foldl_minimum_real]
      simp

theorem exists_greatest_real {xs : List ℝ} (h : xs ≠ []) :
    ∃ x ∈ xs, Scalar.greatest (xs.map real) = real x ∧ ∀ y ∈ xs, y ≤ x := by
  cases xs with
  | nil => exact absurd rfl h
  | cons x xs =>
      have hmax : (x :: xs).max? = some (xs.foldl max x) := List.max?_cons'
      obtain ⟨hmem, hle⟩ := List.max?_eq_some_iff.mp hmax
      refine ⟨xs.foldl max x, hmem, ?_, hle⟩
      rw [List.map_cons, Scalar.greatest, foldl_maximum_real]
      simp

@[simp] theorem total_ofVector (v : Fin n → ℝ) : Scalar.total (ofVector v) = real (∑ i, v i) := by
  rw [ofVector_eq_map, total_real, List.sum_ofFn]

end Exact

namespace Sample

/-- Samples with texts for labels need no wording of numbers. -/
scoped instance : Exact.Wording := ⟨fun _ => ""⟩

end Sample

end Significance
