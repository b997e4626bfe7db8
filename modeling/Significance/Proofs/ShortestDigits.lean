import Significance.Decimal.Shortest
import Significance.Proofs.DecimalReading

/-! # Shortest digits read back

The reals that a neighbourhood holds are those that are read as its double. The search over the
decimal grids ends in a point of the neighbourhood: seventeen digits are off by so little that the
nearest point of their grid always is one. -/

namespace Significance.Decimal

variable {m : ℕ} {e : ℤ}

/-! ## The neighbourhood of a double -/

theorem quotient_snd_pos (significand : ℕ) (e : ℤ) : 0 < (quotient significand e).2 := by
  rw [quotient]
  split
  · exact Nat.one_pos
  · exact twoTo_pos _

theorem quotient_fst (significand : ℕ) (e : ℤ) :
    ((quotient significand e).1 : ℚ) = significand * 2 ^ e * (quotient significand e).2 := by
  rw [quotient]
  split
  · next he =>
      obtain ⟨k, rfl⟩ := Int.eq_ofNat_of_zero_le he
      simp [twoTo]
  · next he =>
      obtain ⟨k, hk⟩ := Int.eq_ofNat_of_zero_le (show 0 ≤ -e by omega)
      obtain rfl : e = -(k : ℤ) := by omega
      simp [twoTo]

/-- How far the neighbourhood of a double reaches down, in quarters of the last place. -/
def quartersBelow (m : ℕ) : ℕ :=
  if m = twoTo 52 then 1 else 2

/-- A power of ten as a quotient of whole numbers. -/
theorem exists_power (k : ℤ) :
    ∃ power divisor : ℕ, (if 0 ≤ k then (tenTo k.toNat, 1) else (1, tenTo (-k).toNat)) =
        (power, divisor) ∧ 0 < divisor ∧ (power : ℚ) = 10 ^ k * divisor := by
  by_cases hk : 0 ≤ k
  · obtain ⟨j, rfl⟩ := Int.eq_ofNat_of_zero_le hk
    exact ⟨_, _, if_pos hk, Nat.one_pos, by simp [tenTo]⟩
  · obtain ⟨j, hj⟩ := Int.eq_ofNat_of_zero_le (show 0 ≤ -k by omega)
    obtain rfl : k = -(j : ℤ) := by omega
    exact ⟨_, _, if_neg hk, tenTo_pos _, by simp [tenTo]⟩

/-- The ends of a neighbourhood and a grid point are compared in quarters of the last place. -/
theorem contains_iff {n : ℕ} {k : ℤ} {w : ℚ} (hm : 0 < m) (hw : (n : ℚ) * 10 ^ k = w * 2 ^ e) :
    (Neighbourhood.ofBinary m e).contains n k = true ↔
      if m % 2 = 0 then m - (quartersBelow m : ℚ) / 4 ≤ w ∧ w ≤ m + 1 / 2
      else m - (quartersBelow m : ℚ) / 4 < w ∧ w < m + 1 / 2 := by
  obtain ⟨power, divisor, hpower, hdivisor, hten⟩ := exists_power k
  have hscale := quotient_fst 1 (e - 2)
  have hden := quotient_snd_pos 1 (e - 2)
  rw [Neighbourhood.ofBinary, Neighbourhood.contains, hpower]
  dsimp only
  generalize (quotient 1 (e - 2)).1 = scale at *
  generalize (quotient 1 (e - 2)).2 = den at *
  rw [Nat.cast_one, one_mul, zpow_sub₀ two_ne_zero] at hscale
  have hunit : (0 : ℚ) < 2 ^ e * den * divisor := by
    have : (0 : ℚ) < den := by exact_mod_cast hden
    have : (0 : ℚ) < divisor := by exact_mod_cast hdivisor
    positivity
  have hpoint : ((n * power * den : ℕ) : ℚ) = w * (2 ^ e * den * divisor) := by
    push_cast
    rw [hten]
    linear_combination (divisor * den : ℚ) * hw
  have hend : ∀ a : ℕ, ((a * scale * divisor : ℕ) : ℚ) = a / 4 * (2 ^ e * den * divisor) := by
    intro a
    push_cast
    rw [hscale]
    ring
  have hlow : (((4 * m - quartersBelow m : ℕ) : ℚ)) / 4 = m - (quartersBelow m : ℚ) / 4 := by
    have hle : quartersBelow m ≤ 4 * m := by
      rw [quartersBelow]
      split <;> omega
    push_cast [hle]
    ring
  have hhigh : ((4 * m + 2 : ℕ) : ℚ) / 4 = m + 1 / 2 := by
    push_cast
    ring
  have hle : ∀ a : ℕ, a * scale * divisor ≤ n * power * den ↔ (a / 4 : ℚ) ≤ w := by
    intro a
    rw [← Nat.cast_le (α := ℚ), hpoint, hend, mul_le_mul_iff_left₀ hunit]
  have hge : ∀ a : ℕ, n * power * den ≤ a * scale * divisor ↔ w ≤ (a / 4 : ℚ) := by
    intro a
    rw [← Nat.cast_le (α := ℚ), hpoint, hend, mul_le_mul_iff_left₀ hunit]
  have hbelow : (if m = twoTo 52 then 1 else 2) = quartersBelow m := rfl
  rw [hbelow]
  by_cases heven : m % 2 = 0
  · rw [if_pos heven, if_pos (decide_eq_true heven), Bool.and_eq_true, decide_eq_true_iff,
      decide_eq_true_iff, hle, hge, hlow, hhigh]
  · rw [if_neg heven, if_neg (by simpa using heven), Bool.and_eq_true, decide_eq_true_iff,
      decide_eq_true_iff, ← not_le, ← not_le, hle, hge, hlow, hhigh, not_le, not_le]

theorem quartersBelow_div (m : ℕ) :
    (quartersBelow m : ℚ) / 4 = if m = 2 ^ 52 then 1 / 4 else 1 / 2 := by
  have hpower : twoTo 52 = 2 ^ 52 := rfl
  rw [quartersBelow, hpower]
  split <;> norm_num

/-- A grid point that a neighbourhood contains is read as the double. -/
theorem near_of_contains {n : ℕ} {k : ℤ} {w : ℚ} (hm : 0 < m) (hw : (n : ℚ) * 10 ^ k = w * 2 ^ e)
    (h : (Neighbourhood.ofBinary m e).contains n k = true) : Near m w := by
  rw [contains_iff hm hw, quartersBelow_div] at h
  split at h
  · next heven => exact ⟨h.1, h.2, fun hodd => by omega⟩
  · next hodd =>
      have hne : m ≠ 2 ^ 52 := by
        rintro rfl
        exact hodd (by decide)
      refine ⟨h.1.le, h.2.le, fun _ => ?_⟩
      rwa [if_neg hne] at h

/-- A grid point that is off the double by less than its `2⁻⁵⁴`th part is in its neighbourhood. -/
theorem contains_of_close (hc : Canonical m e) {n : ℕ} {k : ℤ} {w : ℚ}
    (hw : (n : ℚ) * 10 ^ k = w * 2 ^ e) (hclose : |w - m| < m / 2 ^ 54) :
    (Neighbourhood.ofBinary m e).contains n k = true := by
  obtain ⟨hlow, hhigh⟩ := abs_lt.mp hclose
  have hwide : (m : ℚ) / 2 ^ 54 < 1 / 2 := by
    have hlt : (m : ℚ) < 2 ^ 53 := by exact_mod_cast hc.lt
    calc
      (m : ℚ) / 2 ^ 54 < 2 ^ 53 / 2 ^ 54 := div_lt_div_of_pos_right hlt (by positivity)
      _ = 1 / 2 := by norm_num
  have hbelow : (m : ℚ) / 2 ^ 54 ≤ if m = 2 ^ 52 then 1 / 4 else 1 / 2 := by
    split
    · next heq =>
        rw [heq]
        norm_num
    · exact hwide.le
  rw [contains_iff hc.pos hw, quartersBelow_div]
  split
  · exact ⟨by linarith, by linarith⟩
  · exact ⟨by linarith, by linarith⟩

/-! ## The search -/

/-- The double in units of a grid, as a quotient of whole numbers. -/
theorem exists_units (s : Neighbourhood) (k : ℤ) :
    ∃ numerator denominator : ℕ,
      (if 0 ≤ k then (s.value, s.denominator * tenTo k.toNat)
        else (s.value * tenTo (-k).toNat, s.denominator)) = (numerator, denominator) ∧
      (0 < s.denominator → 0 < denominator) ∧
      (s.value : ℚ) * denominator = numerator * 10 ^ k * s.denominator := by
  by_cases hk : 0 ≤ k
  · obtain ⟨j, rfl⟩ := Int.eq_ofNat_of_zero_le hk
    refine ⟨_, _, if_pos hk, fun hpos => Nat.mul_pos hpos (tenTo_pos _), ?_⟩
    simp [tenTo]
    ring
  · obtain ⟨j, hj⟩ := Int.eq_ofNat_of_zero_le (show 0 ≤ -k by omega)
    obtain rfl : k = -(j : ℤ) := by omega
    refine ⟨_, _, if_neg hk, id, ?_⟩
    simp [tenTo]

theorem contains_of_nearest? {tie : Tie} {s : Neighbourhood} {k : ℤ} {n : ℕ}
    (h : s.nearest? tie k = some n) : s.contains n k = true := by
  obtain ⟨numerator, denominator, hunits, -, -⟩ := exists_units s k
  rw [Neighbourhood.nearest?, hunits] at h
  dsimp only at h
  generalize (if roundQuotient tie numerator denominator = numerator / denominator then
    numerator / denominator + 1 else numerator / denominator) = other at h
  by_cases hbest : s.contains (roundQuotient tie numerator denominator) k = true
  · rw [if_pos hbest] at h
    exact Option.some.inj h ▸ hbest
  · rw [if_neg hbest] at h
    by_cases hother : s.contains other k = true
    · rw [if_pos hother] at h
      exact Option.some.inj h ▸ hother
    · rw [if_neg hother] at h
      cases h

/-- If one of the grids to be searched has a point that is read back, one is found. -/
theorem contains_search {tie : Tie} {s : Neighbourhood} {fuel : ℕ} {k : ℤ} {j : ℕ} (hj : j < fuel)
    (hsome : (s.nearest? tie (k - j)).isSome) :
    s.contains (s.search tie fuel k).digits (s.search tie fuel k).exponent = true := by
  induction fuel generalizing k j with
  | zero => cases hj
  | succ fuel ih =>
      rw [Neighbourhood.search]
      cases hnearest : s.nearest? tie k with
      | some n => exact contains_of_nearest? hnearest
      | none =>
          cases j with
          | zero => simp [hnearest] at hsome
          | succ j =>
              refine ih (Nat.lt_of_succ_lt_succ hj) ?_
              rwa [Nat.cast_succ, add_comm, ← sub_sub] at hsome

/-! ## The last grid -/

/-- The first digit of a quotient does not stand above the quotient. -/
theorem tenTo_magnitude_le {numerator denominator : ℕ} (hn : 0 < numerator)
    (hd : 0 < denominator) :
    (10 : ℚ) ^ (magnitude numerator denominator - 1) ≤ numerator / denominator := by
  have hten : (10 : ℚ) ≠ 0 := by norm_num
  have hwhole : ∀ a, 0 < a / denominator →
      (10 : ℚ) ^ (length (a / denominator) - 1) ≤ a / denominator := fun a ha =>
    calc
      (10 : ℚ) ^ (length (a / denominator) - 1) ≤ (a / denominator : ℕ) := by
        exact_mod_cast tenTo_length_le ha
      _ ≤ a / denominator := Nat.cast_div_le
  have hpos : ∀ a, 0 < length a := fun a => Nat.length_toDigits_pos
  rw [magnitude]
  by_cases hle : denominator ≤ numerator
  · rw [if_pos hle, ← Nat.cast_pred (hpos _), zpow_natCast]
    exact hwhole _ (Nat.div_pos hle hd)
  · rw [if_neg hle]
    dsimp only
    have hshort : length numerator - 1 < length denominator := by
      have hlt := (tenTo_length_le hn).trans_lt ((not_le.mp hle).trans (lt_tenTo_length denominator))
      exact (Nat.pow_lt_pow_iff_right (by decide)).mp hlt
    generalize hestimate : length denominator - length numerator + 1 = estimate
    have hlarge : denominator ≤ numerator * tenTo estimate := by
      calc
        denominator ≤ 10 ^ length denominator := (lt_tenTo_length denominator).le
        _ = 10 ^ (length numerator - 1) * 10 ^ estimate := by
          rw [← pow_add]
          congr 1
          have := hpos numerator
          omega
        _ ≤ numerator * tenTo estimate := Nat.mul_le_mul_right _ (tenTo_length_le hn)
    have hbound := hwhole _ (Nat.div_pos hlarge hd)
    generalize numerator * tenTo estimate / denominator = q at *
    rw [show ((length q : ℤ) - estimate - 1) = ((length q - 1 : ℕ) : ℤ) - estimate by
      have := hpos q
      omega, zpow_sub₀ hten, zpow_natCast, zpow_natCast, div_le_iff₀ (by positivity)]
    refine hbound.trans_eq ?_
    have hpower : (tenTo estimate : ℚ) = 10 ^ estimate := by simp [tenTo]
    rw [Nat.cast_mul, hpower]
    ring

/-- The value of a neighbourhood is the double. -/
theorem ofBinary_value (m : ℕ) (e : ℤ) :
    ((Neighbourhood.ofBinary m e).value : ℚ) =
      m * 2 ^ e * (Neighbourhood.ofBinary m e).denominator := by
  have hscale := quotient_fst 1 (e - 2)
  rw [Nat.cast_one, one_mul, zpow_sub₀ two_ne_zero] at hscale
  rw [Neighbourhood.ofBinary]
  dsimp only
  push_cast
  rw [hscale]
  ring

theorem ofBinary_denominator_pos (m : ℕ) (e : ℤ) :
    0 < (Neighbourhood.ofBinary m e).denominator :=
  quotient_snd_pos 1 (e - 2)

/-- A rounded quotient is off by half a unit at most. -/
theorem abs_roundQuotient_sub_le (tie : Tie) (numerator : ℕ) {denominator : ℕ}
    (hd : 0 < denominator) :
    |(roundQuotient tie numerator denominator : ℚ) - numerator / denominator| ≤ 1 / 2 := by
  have hd' : (0 : ℚ) < denominator := by exact_mod_cast hd
  obtain ⟨hbelow, habove⟩ := roundQuotient_near tie numerator hd
  generalize roundQuotient tie numerator denominator = rounded at *
  have hbelow' : (2 * numerator : ℚ) ≤ 2 * (denominator * rounded) + denominator := by
    exact_mod_cast hbelow
  have habove' : 2 * ((denominator : ℚ) * rounded) ≤ 2 * numerator + denominator := by
    exact_mod_cast habove
  rw [abs_le, sub_div' hd'.ne', le_div_iff₀ hd', div_le_iff₀ hd']
  constructor
  · linarith
  · linarith

/-- The grid of seventeen digits has a point that is read as the double. -/
theorem nearest?_isSome (hc : Canonical m e) (tie : Tie) {k : ℤ}
    (hk : (10 : ℚ) ^ (k + 16) ≤ m * 2 ^ e) :
    ((Neighbourhood.ofBinary m e).nearest? tie k).isSome := by
  have hvalue := ofBinary_value m e
  have hdpos := ofBinary_denominator_pos m e
  obtain ⟨numerator, denominator, hunits, hpos, heq⟩ :=
    exists_units (Neighbourhood.ofBinary m e) k
  specialize hpos hdpos
  suffices hbest : (Neighbourhood.ofBinary m e).contains
      (roundQuotient tie numerator denominator) k = true by
    rw [Neighbourhood.nearest?, hunits]
    dsimp only
    rw [if_pos hbest]
    rfl
  have hnear := abs_roundQuotient_sub_le tie numerator hpos
  generalize roundQuotient tie numerator denominator = best at *
  generalize (Neighbourhood.ofBinary m e).denominator = d at *
  have hd : (0 : ℚ) < d := by exact_mod_cast hdpos
  have hdenominator : (0 : ℚ) < denominator := by exact_mod_cast hpos
  have hunit : (0 : ℚ) < 10 ^ k := by positivity
  have hscale : (0 : ℚ) < 2 ^ e := by positivity
  -- the double in units of the grid
  have hgrid : (numerator : ℚ) / denominator = m * 2 ^ e / 10 ^ k := by
    rw [hvalue] at heq
    rw [div_eq_div_iff hdenominator.ne' hunit.ne']
    apply mul_right_cancel₀ hd.ne'
    linear_combination -heq
  have hoff : (best : ℚ) * 10 ^ k / 2 ^ e - m =
      (best - numerator / denominator) * (10 ^ k / 2 ^ e) := by
    rw [hgrid]
    field_simp
  have hsize : (10 : ℚ) ^ k / 2 ^ e ≤ m / 10 ^ 16 := by
    rw [div_le_div_iff₀ hscale (by positivity), ← zpow_natCast, ← zpow_add₀ (by norm_num)]
    exact hk
  have hm : (0 : ℚ) < m := by exact_mod_cast hc.pos
  apply contains_of_close hc (w := best * 10 ^ k / 2 ^ e) (by field_simp)
  calc
    |(best : ℚ) * 10 ^ k / 2 ^ e - m| = |best - (numerator : ℚ) / denominator| * (10 ^ k / 2 ^ e) := by
      rw [hoff, abs_mul, abs_of_pos (div_pos hunit hscale)]
    _ ≤ 1 / 2 * (m / 10 ^ 16) := mul_le_mul hnear hsize (by positivity) (by norm_num)
    _ < m / 2 ^ 54 := by
      rw [div_mul_div_comm, one_mul]
      exact div_lt_div_of_pos_left hm (by norm_num) (by norm_num)

/-- The shortest digits of a double are read as it. -/
theorem near_shortest (hc : Canonical m e) (tie : Tie) :
    0 < (shortest tie m e).digits ∧
      Near m ((shortest tie m e).digits * 10 ^ (shortest tie m e).exponent / 2 ^ e) := by
  have hvalue := ofBinary_value m e
  have hd : (0 : ℚ) < (Neighbourhood.ofBinary m e).denominator := by
    exact_mod_cast ofBinary_denominator_pos m e
  have hm : (0 : ℚ) < m := by exact_mod_cast hc.pos
  have hpos : 0 < (Neighbourhood.ofBinary m e).value := by
    have : (0 : ℚ) < (Neighbourhood.ofBinary m e).value := by
      rw [hvalue]
      positivity
    exact_mod_cast this
  have hplace := tenTo_magnitude_le hpos (ofBinary_denominator_pos m e)
  rw [hvalue, mul_div_cancel_right₀ _ hd.ne'] at hplace
  have hcontains : (Neighbourhood.ofBinary m e).contains (shortest tie m e).digits
      (shortest tie m e).exponent = true := by
    apply contains_search (j := 17) (by decide)
    apply nearest?_isSome hc tie
    convert hplace using 2
    push_cast
    ring
  have hnear : Near m ((shortest tie m e).digits * 10 ^ (shortest tie m e).exponent / 2 ^ e) :=
    near_of_contains hc.pos (by field_simp) hcontains
  refine ⟨Nat.pos_of_ne_zero fun hzero => ?_, hnear⟩
  have hhalf := hnear.half_le hc.pos
  rw [hzero] at hhalf
  norm_num at hhalf

end Significance.Decimal
