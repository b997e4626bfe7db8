import Significance.Proofs.TotalOrder

/-! # Rounding to doubles

The operations on doubles compute the bits of a product or quotient down to some place, with two
more bits for what is cut off, and round. Whatever lies nearer to a double than to its neighbours,
or midway and the double is even, is rounded to it: if no bits are missing, products and quotients
are. -/

namespace Significance.Decimal

open Float.Model UnpackedFloat

/-! ## Cutting and rounding -/

/-- Where the known bits of a cut number end: its significand and, behind the point, one bit. -/
def known (em : ExtendedMantissa) : ℚ :=
  em.mantissa + if em.roundBit then 1 / 2 else 0

/-- What a significand and its two extra bits say about the number from which they were cut. -/
def Cut (em : ExtendedMantissa) (w : ℚ) : Prop :=
  if em.stickyBit then known em < w ∧ w < known em + 1 / 2 else w = known em

/-- The numbers nearest to a whole one, and those midway to its neighbours if it is even. -/
structure RoundsTo (w : ℚ) (m : ℕ) : Prop where
  low : (m : ℚ) - 1 / 2 ≤ w
  high : w ≤ m + 1 / 2
  inside : m % 2 = 1 → (m : ℚ) - 1 / 2 < w ∧ w < m + 1 / 2

variable {em : ExtendedMantissa} {w : ℚ}

theorem Cut.le (h : Cut em w) : (em.mantissa : ℚ) ≤ w := by
  rw [Cut, known] at h
  split at h
  · split at h
    · linarith [h.1]
    · linarith [h.1]
  · split at h
    · linarith
    · linarith

theorem Cut.lt (h : Cut em w) : w < em.mantissa + 1 := by
  rw [Cut, known] at h
  split at h
  · split at h
    · linarith [h.2]
    · linarith [h.2]
  · split at h
    · linarith
    · linarith

theorem known_shiftRightOne (em : ExtendedMantissa) :
    known em.shiftRightOne = (em.mantissa : ℚ) / 2 := by
  have hm : (em.mantissa : ℚ) = 2 * (em.mantissa / 2 : ℕ) + (em.mantissa % 2 : ℕ) := by
    exact_mod_cast (Nat.div_add_mod em.mantissa 2).symm
  rcases Nat.mod_two_eq_zero_or_one em.mantissa with hlast | hlast
  · simp only [known, ExtendedMantissa.shiftRightOne, hlast] at hm ⊢
    rw [hm]
    simp
  · simp only [known, ExtendedMantissa.shiftRightOne, hlast] at hm ⊢
    rw [hm]
    simp
    ring

/-- The extra bit of half the number is the last of the significand, and the other tells whether
anything is left behind it. -/
theorem Cut.shiftRightOne (h : Cut em w) : Cut em.shiftRightOne (w / 2) := by
  have hsticky : em.shiftRightOne.stickyBit = (em.roundBit || em.stickyBit) := rfl
  rw [Cut, known] at h
  rw [Cut, known_shiftRightOne, hsticky]
  cases hround : em.roundBit with
  | false =>
      cases hrest : em.stickyBit with
      | false =>
          simp [hround, hrest] at h
          simp [h]
      | true =>
          simp only [hround, hrest, if_true] at h
          simp only [Bool.or_true, if_true]
          constructor <;> norm_num at h <;> linarith
  | true =>
      simp only [Bool.true_or, if_true]
      cases hrest : em.stickyBit with
      | false =>
          simp only [hround, hrest] at h
          norm_num at h
          constructor <;> linarith
      | true =>
          simp only [hround, hrest, if_true] at h
          constructor <;> linarith

theorem Cut.shiftRight (h : Cut em w) (count : ℕ) : Cut (em >>> count) (w / 2 ^ count) := by
  change Cut (count.repeat ExtendedMantissa.shiftRightOne em) _
  induction count with
  | zero => simpa [Nat.repeat] using h
  | succ count ih =>
      rw [Nat.repeat, pow_succ, ← div_div]
      exact ih.shiftRightOne

theorem cut_exact (m : ℕ) : Cut (.ofMantissaAndAccuracy m .exact) m := by
  simp [Cut, known, ExtendedMantissa.ofMantissaAndAccuracy]

/-- What a division leaves tells on which side of the middle the quotient is. -/
theorem cut_div (n : ℕ) {d : ℕ} (hd : 0 < d) :
    Cut (.ofMantissaAndAccuracy (n / d) (accuracyOfFraction (n % d) d)) ((n : ℚ) / d) := by
  have hd' : (0 : ℚ) < d := by exact_mod_cast hd
  have hquotient : (n : ℚ) / d = (n / d : ℕ) + (n % d : ℕ) / (d : ℚ) := by
    have hn : (n : ℚ) = d * (n / d : ℕ) + (n % d : ℕ) := by exact_mod_cast (Nat.div_add_mod n d).symm
    rw [eq_comm, eq_div_iff hd'.ne', add_mul, div_mul_cancel₀ _ hd'.ne']
    linarith
  have hrest : ((n % d : ℕ) : ℚ) / d < 1 := by
    rw [div_lt_one hd']
    exact_mod_cast Nat.mod_lt n hd
  rw [hquotient, accuracyOfFraction]
  generalize n % d = rest at *
  split
  · next hzero => simp [Cut, known, ExtendedMantissa.ofMantissaAndAccuracy, hzero]
  · next hzero =>
      have hpos : (0 : ℚ) < rest / d := by
        have : (0 : ℚ) < rest := by exact_mod_cast Nat.pos_of_ne_zero hzero
        positivity
      rcases lt_trichotomy (2 * rest) d with hlt | heq | hgt
      · have hhalf : (rest : ℚ) / d < 1 / 2 := by
          rw [div_lt_div_iff₀ hd' two_pos]
          exact_mod_cast (by omega : rest * 2 < 1 * d)
        rw [Nat.compare_eq_lt.mpr hlt]
        simp only [Cut, known, ExtendedMantissa.ofMantissaAndAccuracy, if_true]
        norm_num
        exact ⟨hpos, hhalf⟩
      · have hhalf : (rest : ℚ) / d = 1 / 2 := by
          rw [div_eq_div_iff hd'.ne' two_ne_zero]
          exact_mod_cast (by omega : rest * 2 = 1 * d)
        rw [Nat.compare_eq_eq.mpr heq]
        simp [Cut, known, ExtendedMantissa.ofMantissaAndAccuracy, hhalf]
      · have hhalf : 1 / 2 < (rest : ℚ) / d := by
          rw [div_lt_div_iff₀ two_pos hd']
          exact_mod_cast (by omega : 1 * d < rest * 2)
        rw [Nat.compare_eq_gt.mpr hgt]
        simp only [Cut, known, ExtendedMantissa.ofMantissaAndAccuracy, if_true]
        constructor <;> linarith

/-- A cut number is rounded to the nearest whole one. -/
theorem Cut.roundedMantissa (h : Cut em w) {m : ℕ} (hm : RoundsTo w m) : em.roundedMantissa = m := by
  have hnear : (em.mantissa : ℚ) = m ∨ (em.mantissa : ℚ) = m - 1 := by
    have hlow : em.mantissa < m + 1 := by
      have hlt : (em.mantissa : ℚ) < m + 1 := by linarith [h.le, hm.high]
      exact_mod_cast hlt
    have hhigh : m < em.mantissa + 2 := by
      have hlt : (m : ℚ) < em.mantissa + 2 := by linarith [hm.low, h.lt]
      exact_mod_cast hlt
    rcases Nat.lt_succ_iff_lt_or_eq.mp hlow with hlt | heq
    · right
      rw [show m = em.mantissa + 1 by omega]
      push_cast
      ring
    · exact Or.inl (congrArg _ heq)
  obtain ⟨a, round, sticky⟩ := em
  simp only [Cut, known] at h
  cases round with
  | false =>
      -- below the middle
      have hbelow : w < a + 1 / 2 := by
        cases sticky with
        | false => norm_num at h; linarith
        | true => norm_num at h; linarith
      have ha : (a : ℚ) = m := by
        rcases hnear with heq | heq
        · exact heq
        · linarith [hm.low]
      cases sticky <;> exact_mod_cast ha
  | true =>
      cases sticky with
      | false =>
          have hmiddle : w = a + 1 / 2 := by simpa using h
          change a + a % 2 = m
          rcases hnear with heq | heq
          · have heven : m % 2 ≠ 1 := fun hodd => by linarith [(hm.inside hodd).2]
            have ha : a = m := by exact_mod_cast heq
            omega
          · have heven : m % 2 ≠ 1 := fun hodd => by linarith [(hm.inside hodd).1]
            have hsum : ((a + 1 : ℕ) : ℚ) = m := by
              push_cast
              linarith
            have ha : a + 1 = m := by exact_mod_cast hsum
            omega
      | true =>
          have ha : (a : ℚ) = m - 1 := by
            norm_num at h
            rcases hnear with heq | heq
            · linarith [hm.high]
            · exact heq
          have hsum : ((a + 1 : ℕ) : ℚ) = m := by
            push_cast
            linarith
          exact_mod_cast hsum

/-! ## Doubles -/

/-- The significand and the exponent of a positive double. -/
structure Canonical (m : ℕ) (e : ℤ) : Prop where
  pos : 0 < m
  lt : m < 2 ^ 53
  le : -1074 ≤ e
  high : e ≤ 971
  low : m < 2 ^ 52 → e = -1074

/-- The numbers, in units of the last place, that are read as a double of significand `m`: those
nearer to it than to its neighbours, and if it is even those midway. Below a power of two the
neighbour is half as far. -/
structure Near (m : ℕ) (w : ℚ) : Prop where
  low : (m : ℚ) - (if m = 2 ^ 52 then 1 / 4 else 1 / 2) ≤ w
  high : w ≤ m + 1 / 2
  inside : m % 2 = 1 → (m : ℚ) - 1 / 2 < w ∧ w < m + 1 / 2

variable {m : ℕ} {e : ℤ}

theorem Near.roundsTo (h : Near m w) : RoundsTo w m := by
  refine ⟨?_, h.high, h.inside⟩
  have hlow := h.low
  split at hlow
  · linarith
  · exact hlow

/-- Below a power of two numbers are rounded in half the units, up to the power. -/
theorem Near.roundsTo_carry (h : Near (2 ^ 52) w) (hw : w < 2 ^ 52) :
    RoundsTo (w * 2) (2 ^ 53) := by
  have hlow := h.low
  rw [if_pos rfl] at hlow
  push_cast at hlow
  refine ⟨?_, ?_, by omega⟩
  · push_cast
    linarith
  · push_cast
    linarith

theorem shiftToTargetExponent_eq (mantissa : ℕ) (exponent : ℤ) (accuracy : Accuracy) {shift : ℕ}
    (hshift : (max ((mantissa.log2 : ℤ) + exponent - 52) (-1074) - exponent).toNat = shift) :
    shiftToTargetExponent Format.binary64 mantissa exponent accuracy =
      (ExtendedMantissa.ofMantissaAndAccuracy mantissa accuracy >>> shift, exponent + shift) := by
  have htarget : Format.binary64.targetExponent (totalExponent mantissa exponent) =
      max ((mantissa.log2 : ℤ) + exponent - 52) (-1074) := by
    simp only [Format.targetExponent, totalExponent, Format.mantissaBits, Format.minExponent]
    norm_num
    omega
  rw [shiftToTargetExponent, htarget, shiftToExponent, hshift]

/-- Rounding to the exponent of a double, and the shift after it. -/
theorem roundWithAccuracy_eq (s : Sign) {mantissa : ℕ} {exponent : ℤ} {accuracy : Accuracy}
    (shift rounded carry : ℕ) (hpos : 0 < m)
    (hshift : (max ((mantissa.log2 : ℤ) + exponent - 52) (-1074) - exponent).toNat = shift)
    (hrounded : (ExtendedMantissa.ofMantissaAndAccuracy mantissa accuracy >>> shift).roundedMantissa =
      rounded)
    (hcarry : (max ((rounded.log2 : ℤ) + (exponent + shift) - 52) (-1074) -
      (exponent + shift)).toNat = carry)
    (hm : (ExtendedMantissa.ofMantissaAndAccuracy rounded .exact >>> carry).mantissa = m)
    (he : exponent + shift + carry = e) :
    roundWithAccuracy Format.binary64 s mantissa exponent accuracy = .finite s m e hpos := by
  rw [roundWithAccuracy, shiftToTargetExponent_eq mantissa exponent accuracy hshift]
  dsimp only
  rw [hrounded, shiftToTargetExponent_eq rounded (exponent + shift) .exact hcarry]
  dsimp only
  rw [dif_neg (hm ▸ hpos.ne')]
  subst hm he
  rfl

theorem log2_lt_of_lt {n k : ℕ} (hk : 0 < k) (h : n < 2 ^ k) : n.log2 < k := by
  by_cases hn : n = 0
  · rw [hn, Nat.log2_zero]
    exact hk
  · exact (Nat.log2_lt hn).mpr h

theorem Near.lt (h : Near m w) (hm : m < 2 ^ 53) : w < 2 ^ 53 := by
  have hle : (m : ℚ) ≤ 2 ^ 53 - 1 := by
    rw [le_sub_iff_add_le]
    exact_mod_cast hm
  linarith [h.high]

theorem mantissa_ofMantissaAndAccuracy (mantissa : ℕ) (accuracy : Accuracy) :
    (ExtendedMantissa.ofMantissaAndAccuracy mantissa accuracy).mantissa = mantissa := by
  cases accuracy with
  | exact => rfl
  | inexact half => cases half <;> rfl

/-- The bits of the whole part of a scaled number that is a power of two or above it. -/
theorem le_log2_of_lt {k cut n : ℕ} (hw : 2 ^ k ≤ w) (habove : w * 2 ^ cut < n + 1) :
    k + cut ≤ n.log2 := by
  have hlong : 2 ^ (k + cut) ≤ n := by
    have hlt : (2 : ℚ) ^ (k + cut) < n + 1 := by
      rw [pow_add]
      exact (mul_le_mul_of_nonneg_right hw (by positivity)).trans_lt habove
    exact Nat.lt_succ_iff.mp (by exact_mod_cast hlt)
  exact (Nat.le_log2 ((Nat.two_pow_pos _).trans_le hlong).ne').mpr hlong

theorem log2_lt_of_le {k cut n : ℕ} (hk : 0 < k) (hw : w < 2 ^ k) (hbelow : n ≤ w * 2 ^ cut) :
    n.log2 < k + cut := by
  have hlt : (n : ℚ) < 2 ^ (k + cut) := by
    rw [pow_add]
    exact hbelow.trans_lt (mul_lt_mul_of_pos_right hw (by positivity))
  exact log2_lt_of_lt (by omega) (by exact_mod_cast hlt)

/-- Whatever lies nearest to a double is rounded to it, if no bits are missing. -/
theorem roundWithAccuracy_near (hc : Canonical m e) (hnear : Near m w) (s : Sign) {mantissa cut : ℕ}
    {accuracy : Accuracy}
    (hcut : Cut (.ofMantissaAndAccuracy mantissa accuracy) (w * 2 ^ cut)) :
    roundWithAccuracy Format.binary64 s mantissa (e - cut) accuracy = .finite s m e hc.pos := by
  have hbelow := hcut.le
  have habove := hcut.lt
  rw [mantissa_ofMantissaAndAccuracy] at hbelow habove
  have hshort : mantissa.log2 < 53 + cut := log2_lt_of_le (by decide) (hnear.lt hc.lt) hbelow
  have hown : m.log2 < 53 := log2_lt_of_lt (by decide) hc.lt
  have hle := hc.le
  by_cases hedge : m = 2 ^ 52 ∧ w < 2 ^ 52 ∧ e ≠ -1074 ∧ cut ≠ 0
  · -- below a power of two one more bit is kept, and rounding up to the power drops it
    obtain ⟨rfl, hw, he, hsome⟩ := hedge
    obtain ⟨shift, rfl⟩ := Nat.exists_eq_succ_of_ne_zero hsome
    have hlow := hnear.low
    rw [if_pos rfl] at hlow
    have hfirst : 51 + (shift + 1) ≤ mantissa.log2 :=
      le_log2_of_lt (by push_cast at hlow; linarith) habove
    have hlast : mantissa.log2 < 52 + (shift + 1) := log2_lt_of_le (by decide) hw hbelow
    refine roundWithAccuracy_eq s shift (2 ^ 53) 1 hc.pos ?_ ?_ ?_ rfl ?_
    · omega
    · have hhalf := hcut.shiftRight shift
      have htwo : w * 2 ^ (shift + 1) / 2 ^ shift = w * 2 := by
        rw [pow_succ]
        field_simp
      rw [htwo] at hhalf
      exact hhalf.roundedMantissa (hnear.roundsTo_carry hw)
    · rw [Nat.log2_two_pow]
      omega
    · omega
  · have hlong : e = -1074 ∨ cut = 0 ∨ 52 + cut ≤ mantissa.log2 := by
      by_contra! hnot
      obtain ⟨he, hsome, hlog⟩ := hnot
      have hm : 2 ^ 52 ≤ m := not_lt.mp fun hlt => he (hc.low hlt)
      have hw : w < 2 ^ 52 := not_le.mp fun hw => hlog.not_ge (le_log2_of_lt hw habove)
      have hne : m ≠ 2 ^ 52 := fun heq => hedge ⟨heq, hw, he, hsome⟩
      have hnext : (2 : ℚ) ^ 52 + 1 ≤ m := by exact_mod_cast hm.lt_of_ne' hne
      linarith [hnear.roundsTo.low]
    refine roundWithAccuracy_eq s cut m 0 hc.pos ?_ ?_ ?_ rfl ?_
    · omega
    · have hwhole := hcut.shiftRight cut
      rw [mul_div_cancel_right₀ _ (by positivity)] at hwhole
      exact hwhole.roundedMantissa hnear.roundsTo
    · omega
    · omega

/-! ## Products and quotients -/

/-- The exact product of two doubles is rounded to the double that it is nearest to. -/
theorem mul_near (hc : Canonical m e) (hnear : Near m w) {m₁ m₂ : ℕ} {e₁ e₂ : ℤ} (h₁ : 0 < m₁)
    (h₂ : 0 < m₂) (hw : (m₁ * m₂ : ℚ) * 2 ^ (e₁ + e₂) = w * 2 ^ e) (hlong : 2 ^ 53 ≤ m₁ * m₂) :
    UnpackedFloat.mul Format.binary64 (.finite .positive m₁ e₁ h₁) (.finite .positive m₂ e₂ h₂) =
      .finite .positive m e hc.pos := by
  have he : e₁ + e₂ ≤ e := by
    have hpower : (2 : ℚ) ^ (e₁ + e₂) * 2 ^ 53 < 2 ^ e * 2 ^ 53 := by
      calc
        (2 : ℚ) ^ (e₁ + e₂) * 2 ^ 53 ≤ 2 ^ (e₁ + e₂) * (m₁ * m₂ : ℚ) := by
          gcongr
          exact_mod_cast hlong
        _ = w * 2 ^ e := by rw [mul_comm, hw]
        _ < 2 ^ e * 2 ^ 53 := by
          rw [mul_comm]
          gcongr
          exact hnear.lt hc.lt
    exact ((zpow_lt_zpow_iff_right₀ one_lt_two).mp (lt_of_mul_lt_mul_right hpower (by positivity))).le
  obtain ⟨cut, hcut⟩ := Int.eq_ofNat_of_zero_le (sub_nonneg.mpr he)
  have hexponent : e₁ + e₂ = e - cut := by omega
  have hexact : ((m₁ * m₂ : ℕ) : ℚ) = w * 2 ^ cut := by
    rw [hexponent, zpow_sub₀ two_ne_zero, zpow_natCast] at hw
    have htwo : (2 : ℚ) ^ e ≠ 0 := by positivity
    field_simp at hw
    push_cast
    linarith
  have hround := roundWithAccuracy_near hc hnear .positive (hexact ▸ cut_exact (m₁ * m₂))
  rw [← hexponent] at hround
  exact hround

/-- A quotient is computed to enough bits. -/
theorem divCore_le {m₁ m₂ : ℕ} {e₁ e₂ : ℤ} (h₁ : 0 < m₁) (h₂ : 0 < m₂) (hw : w < 2 ^ 53)
    (heq : (m₁ / m₂ : ℚ) * 2 ^ (e₁ - e₂) = w * 2 ^ e) (he : -1074 ≤ e) :
    (divCore Format.binary64 m₁ e₁ m₂ e₂).2.1 ≤ e := by
  have hlow : (2 : ℚ) ^ m₁.log2 ≤ m₁ := by exact_mod_cast Nat.log2_self_le h₁.ne'
  have hhigh : (m₂ : ℚ) < 2 ^ (m₂.log2 + 1) := by exact_mod_cast Nat.lt_log2_self
  have hquotient : (2 : ℚ) ^ ((m₁.log2 : ℤ) - (m₂.log2 + 1 : ℕ)) < m₁ / m₂ := by
    rw [zpow_sub₀ two_ne_zero, zpow_natCast, zpow_natCast]
    exact div_lt_div₀' hlow hhigh (by exact_mod_cast h₁) (by exact_mod_cast h₂)
  have hpower : (2 : ℚ) ^ ((m₁.log2 : ℤ) - (m₂.log2 + 1 : ℕ) + (e₁ - e₂)) < 2 ^ (53 + e) := by
    rw [zpow_add₀ two_ne_zero, zpow_add₀ two_ne_zero]
    calc
      (2 : ℚ) ^ ((m₁.log2 : ℤ) - (m₂.log2 + 1 : ℕ)) * 2 ^ (e₁ - e₂)
          < (m₁ / m₂ : ℚ) * 2 ^ (e₁ - e₂) := mul_lt_mul_of_pos_right hquotient (by positivity)
      _ = w * 2 ^ e := heq
      _ < 2 ^ (53 : ℤ) * 2 ^ e := mul_lt_mul_of_pos_right (by exact_mod_cast hw) (by positivity)
  have hexponent := (zpow_lt_zpow_iff_right₀ one_lt_two).mp hpower
  simp only [divCore, Format.targetExponent, totalExponent, Format.mantissaBits,
    Format.minExponent]
  norm_num
  omega

/-- The quotient of two doubles is rounded to the double that it is nearest to. -/
theorem div_near (hc : Canonical m e) (hnear : Near m w) {m₁ m₂ : ℕ} {e₁ e₂ : ℤ} (h₁ : 0 < m₁)
    (h₂ : 0 < m₂) (hw : (m₁ / m₂ : ℚ) * 2 ^ (e₁ - e₂) = w * 2 ^ e) :
    UnpackedFloat.div Format.binary64 (.finite .positive m₁ e₁ h₁) (.finite .positive m₂ e₂ h₂) =
      .finite .positive m e hc.pos := by
  have hle := divCore_le h₁ h₂ (hnear.lt hc.lt) hw hc.le
  obtain ⟨cut, hcut⟩ := Int.eq_ofNat_of_zero_le (sub_nonneg.mpr hle)
  rw [divCore] at hle hcut
  dsimp only at hle hcut
  rw [UnpackedFloat.div, divCore]
  dsimp only
  generalize htarget : min (e₁ - e₂) (Format.binary64.targetExponent
    (totalExponent m₁ e₁ - totalExponent m₂ e₂)) = target at *
  have hshift : e₁ - e₂ = target + (e₁ - e₂ - target).toNat := by omega
  generalize (e₁ - e₂ - target).toNat = shift at *
  obtain rfl : target = e - cut := by omega
  have hexact : ((m₁ <<< shift : ℕ) : ℚ) / m₂ = w * 2 ^ cut := by
    rw [hshift, zpow_add₀ two_ne_zero, zpow_sub₀ two_ne_zero, zpow_natCast, zpow_natCast] at hw
    have htwo : (2 : ℚ) ^ e ≠ 0 := by positivity
    rw [Nat.shiftLeft_eq]
    field_simp at hw
    push_cast
    rw [div_eq_iff (by positivity)]
    linarith
  exact roundWithAccuracy_near hc hnear .positive (hexact ▸ cut_div _ h₂)

end Significance.Decimal
