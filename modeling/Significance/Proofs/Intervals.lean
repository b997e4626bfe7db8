import Mathlib.Data.Set.List
import Significance.Proofs.Partition

/-! # Intervals of confidence

The groups of a comparison of real numbers. A group of several records has an interval around its
mean, a single record has none. -/

namespace Significance

open Exact

variable [Wording]

namespace Descriptive

theorem standardDeviation_real {xs : List ℝ} (h : 2 ≤ xs.length) :
    standardDeviation (xs.map real) = real (√(spread xs / (xs.length - 1 : ℕ))) := by
  have hdf : ((xs.length - 1 : ℕ) : ℝ) ≠ 0 := by
    rw [Nat.cast_ne_zero]
    omega
  have hvariance : variance (xs.map real) = real (spread xs / (xs.length - 1 : ℕ)) := by
    rw [variance, List.length_map, if_neg (by omega), variation_real, ofNat_eq, real_div _ hdf]
  rw [standardDeviation, hvariance, sqrt_real]
  exact div_nonneg (spread_nonneg xs) (Nat.cast_nonneg _)

end Descriptive

namespace Comparison

open Significance.Descriptive

/-- The critical values behind the intervals are real numbers, and none is negative. -/
def HasCriticalValues (d : Distribution Exact) : Prop :=
  ∀ n : ℕ, 1 ≤ n → ∃ t : ℝ, 0 ≤ t ∧ d.studentWithin confidence (real n) = real t

/-- The mean of a group is a real number. The group is a single record without an interval, or it
is of several and has an interval around its mean. -/
inductive Estimated : GroupSummary Exact → Prop
  | single {group} (m : ℝ) : group.count = 1 → group.mean = real m →
      group.lower = undefined → group.upper = undefined → Estimated group
  | several {group} (m half : ℝ) : 2 ≤ group.count → group.mean = real m → 0 ≤ half →
      group.lower = real (m - half) → group.upper = real (m + half) → Estimated group

variable {d : Distribution Exact}

theorem exists_halfInterval (hd : HasCriticalValues d) {xs : List ℝ} (h : 2 ≤ xs.length) :
    ∃ half : ℝ, 0 ≤ half ∧
      halfInterval d xs.length (standardDeviation (xs.map real)) = real half := by
  obtain ⟨t, ht, hcritical⟩ := hd (xs.length - 1) (by omega)
  have hroot : √(xs.length : ℝ) ≠ 0 := by
    rw [Real.sqrt_ne_zero (Nat.cast_nonneg _), Nat.cast_ne_zero]
    omega
  refine ⟨t * √(spread xs / (xs.length - 1 : ℕ)) / √xs.length, by positivity, ?_⟩
  rw [halfInterval, ofNat_eq, hcritical, standardDeviation_real h, ofNat_eq,
    sqrt_real (Nat.cast_nonneg _), real_mul, real_div _ hroot]

theorem estimated_summarize (hd : HasCriticalValues d) {xs : List ℝ} (h : xs ≠ []) (x : String)
    (hue : Option String) : Estimated (summarize d x hue (xs.map real)) := by
  have hmean := mean_real h
  by_cases htwo : 2 ≤ xs.length
  · obtain ⟨half, hhalf, heq⟩ := exists_halfInterval hd htwo
    refine .several (average xs) half ?_ hmean hhalf ?_ ?_
    · simpa [summarize] using htwo
    · simp [summarize, htwo, hmean, heq]
    · simp [summarize, htwo, hmean, heq]
  · have hone : xs.length = 1 := by
      have hpos := List.length_pos_of_ne_nil h
      omega
    refine .single (average xs) ?_ hmean ?_ ?_
    · simpa [summarize] using hone
    · simp only [summarize, List.length_map, htwo, if_false, hmean]
      rfl
    · simp only [summarize, List.length_map, htwo, if_false, hmean]
      rfl

/-- Where the points have real values, every group is estimated. -/
theorem estimated_of_mem (hd : HasCriticalValues d) {points : List (Point Exact)}
    (hreal : ∀ point ∈ points, ∃ r : ℝ, real r = point.y) {xLevels : List String}
    {hues : List (Option String)} {group : GroupSummary Exact}
    (hgroup : group ∈ summaries d points xLevels hues) : Estimated group := by
  obtain ⟨hue, -, x, -, hoccurs, rfl⟩ := mem_summaries.mp hgroup
  have hvalues : valuesAt points x hue ∈ Set.range (List.map real) := by
    rw [Set.range_list_map]
    intro y hy
    obtain ⟨point, hpoint, rfl⟩ := List.mem_map.mp hy
    exact hreal point (List.mem_of_mem_filter hpoint)
  obtain ⟨xs, hxs⟩ := hvalues
  rw [← hxs]
  apply estimated_summarize hd
  rintro rfl
  exact valuesAt_eq_nil.mp hxs.symm hoccurs

end Comparison

end Significance
