import Significance.Proofs.Exact

/-! # Positive numbers

Which values are positive real numbers, which are real numbers that are not negative, which are
probabilities, and what the elementary functions make of them. -/

namespace Significance.Exact

/-- A real number above zero. -/
def Positive (x : Exact) : Prop :=
  ∃ r : ℝ, 0 < r ∧ x = real r

/-- A real number that is not below zero. -/
def Nonnegative (x : Exact) : Prop :=
  ∃ r : ℝ, 0 ≤ r ∧ x = real r

/-- A real number from zero to one. -/
def IsProbability (x : Exact) : Prop :=
  ∃ r : ℝ, (0 ≤ r ∧ r ≤ 1) ∧ x = real r

@[simp] theorem positive_real {x : ℝ} : Positive (real x) ↔ 0 < x := by
  simp [Positive]

@[simp] theorem nonnegative_real {x : ℝ} : Nonnegative (real x) ↔ 0 ≤ x := by
  simp [Nonnegative]

@[simp] theorem isProbability_real {x : ℝ} : IsProbability (real x) ↔ 0 ≤ x ∧ x ≤ 1 := by
  simp [IsProbability]

theorem Positive.nonnegative {x : Exact} (h : Positive x) : Nonnegative x := by
  obtain ⟨r, hr, rfl⟩ := h
  exact ⟨r, hr.le, rfl⟩

theorem IsProbability.nonnegative {x : Exact} (h : IsProbability x) : Nonnegative x := by
  obtain ⟨r, hr, rfl⟩ := h
  exact ⟨r, hr.1, rfl⟩

variable [Wording]

namespace Nonnegative

variable {x y : Exact}

theorem add (hx : Nonnegative x) (hy : Nonnegative y) : Nonnegative (x + y) := by
  obtain ⟨r, hr, rfl⟩ := hx
  obtain ⟨s, hs, rfl⟩ := hy
  exact ⟨r + s, add_nonneg hr hs, rfl⟩

theorem mul (hx : Nonnegative x) (hy : Nonnegative y) : Nonnegative (x * y) := by
  obtain ⟨r, hr, rfl⟩ := hx
  obtain ⟨s, hs, rfl⟩ := hy
  exact ⟨r * s, mul_nonneg hr hs, rfl⟩

/-- Capped at one it is a probability. -/
theorem minimum_one (hx : Nonnegative x) : IsProbability (Scalar.minimum x 1.0) := by
  obtain ⟨r, hr, rfl⟩ := hx
  rw [one_eq, minimum_real, isProbability_real]
  exact ⟨le_min hr zero_le_one, min_le_right r 1⟩

end Nonnegative

/-! ## Elementary functions -/

@[simp] theorem exp_real (x : ℝ) : Scalar.exp (real x) = real (Real.exp x) := rfl

theorem log_real {x : ℝ} (h : 0 < x) : Scalar.log (real x) = real (Real.log x) :=
  if_pos h

theorem pow_real {x : ℝ} (h : 0 < x) (y : ℝ) : Scalar.pow (real x) (real y) = real (x ^ y) := by
  change (if y = 0 then real 1 else if 0 < x then real (x ^ y) else _) = _
  by_cases hy : y = 0
  · rw [if_pos hy, hy, Real.rpow_zero]
  · rw [if_neg hy, if_pos h]

/-- Whatever is capped at one is defined, as an undefined value counts as absent. -/
theorem isUndefined_minimum_one (x : Exact) :
    Scalar.isUndefined (Scalar.minimum x 1.0) = false := by
  rw [one_eq, Scalar.minimum]
  split_ifs with hx hlt
  · exact isUndefined_real 1
  · exact isUndefined_real 1
  · simpa using hx

end Significance.Exact
