import Significance.Proofs.Rounding

/-! # Reading decimals as doubles

A double is packed into a word and found in it again. A decimal is read by one product or quotient:
of two doubles that are exact if it is short, else of whole numbers of any length. So a decimal that
lies nearest to a double is read as that double, whichever way is taken. -/

namespace Significance.Decimal

open Float.Model UnpackedFloat

variable {m : ℕ} {e : ℤ} {w : ℚ}

/-! ## Packing -/

def signWord : Sign → ℕ
  | .positive => 0
  | .negative => 2 ^ 63

theorem toNat_packComponents (s : Sign) (f : BitVec 11) (fraction : BitVec 52) :
    (packComponents Format.binary64 s f fraction).toNat =
      signWord s + 2 ^ 52 * f.toNat + fraction.toNat := by
  rw [packComponents, BitVec.toNat_append, BitVec.toNat_append,
    ← Nat.shiftLeft_add_eq_or_of_lt fraction.isLt, ← Nat.shiftLeft_add_eq_or_of_lt f.isLt,
    Nat.shiftLeft_eq, Nat.shiftLeft_eq]
  cases s with
  | positive =>
      simp [Sign.toBitVec, signWord]
      omega
  | negative =>
      simp [Sign.toBitVec, signWord]
      omega

/-- A number is packed into the word of its fields. -/
theorem toNat_pack_ofFields (s : Sign) {f fraction : ℕ} (hf : f < 2047)
    (hfraction : fraction < 2 ^ 52) :
    (UnpackedFloat.pack Format.binary64 (ofFields s f fraction)).toNat =
      signWord s + 2 ^ 52 * f + fraction := by
  have hbias : Format.binary64.exponentBias = 1023 := by decide
  have hbits : Format.binary64.mantissaBits = 53 := rfl
  rw [ofFields, if_neg hf.ne]
  by_cases hlow : f = 0
  · rw [if_pos hlow]
    by_cases hzero : fraction = 0
    · rw [dif_pos hzero, UnpackedFloat.pack, packedZero, toNat_packComponents, hlow, hzero]
      rfl
    · have hlog : fraction.log2 + 1 ≠ 53 := by
        have := (Nat.log2_lt hzero).mpr hfraction
        omega
      have hnat : (BitVec.ofNat 52 fraction).toNat = fraction := by
        rw [BitVec.toNat_ofNat, Nat.mod_eq_of_lt hfraction]
      rw [dif_neg hzero, UnpackedFloat.pack, hbias, hbits, if_neg hlog, if_neg (by decide),
        toNat_packComponents, hlow]
      exact congrArg (signWord s + ·) hnat
  · have hlog : (2 ^ 52 + fraction).log2 + 1 = 53 := by
      have hle := (Nat.le_log2 (by omega : 2 ^ 52 + fraction ≠ 0)).mpr (by omega : 2 ^ 52 ≤ _)
      have hlt := (Nat.log2_lt (by omega : 2 ^ 52 + fraction ≠ 0)).mpr (by omega : _ < 2 ^ 53)
      omega
    have hfield : ((f : ℤ) - 1075 + (1023 : ℕ) + (52 : ℕ)).toNat = f := by omega
    have hnat : (BitVec.ofNat 52 (2 ^ 52 + fraction)).toNat = fraction := by
      rw [BitVec.toNat_ofNat, Nat.add_mod_left, Nat.mod_eq_of_lt hfraction]
    have hnat' : (BitVec.ofNat 11 f).toNat = f := by
      rw [BitVec.toNat_ofNat, Nat.mod_eq_of_lt (by omega)]
    have hpack : UnpackedFloat.pack Format.binary64
        (.finite s (2 ^ 52 + fraction) ((f : ℤ) - 1075)
          (Nat.add_pos_left (Nat.two_pow_pos 52) fraction)) =
        packComponents Format.binary64 s (BitVec.ofNat 11 f) (BitVec.ofNat 52 (2 ^ 52 + fraction)) := by
      rw [UnpackedFloat.pack, hbias, hbits, hfield,
        if_neg (show ¬2 ^ 11 ≤ f + 1 by omega), if_pos hlog]
    rw [if_neg hlow, hpack, toNat_packComponents, hnat, hnat']

theorem finite_congr {s : Sign} {m' : ℕ} {e' : ℤ} (hm : m = m') (he : e = e') (hpos : 0 < m)
    (hpos' : 0 < m') : UnpackedFloat.finite s m e hpos = .finite s m' e' hpos' := by
  subst hm he
  rfl

theorem toNat_pack_infinity (s : Sign) :
    (UnpackedFloat.pack Format.binary64 (.infinity s)).toNat = signWord s + 2047 * 2 ^ 52 := by
  cases s <;> decide

theorem signWord_signOf {word : ℕ} (h : word < 2 ^ 64) :
    signWord (signOf word) = 2 ^ 63 * (word / 2 ^ 63) := by
  rw [signOf]
  split
  · rw [signWord]
    omega
  · rw [signWord]
    omega

/-- There is one double for what it holds, also for what is no number. -/
theorem ofModel_pack_unpack (x : Float) :
    Float.ofModel (Float.Model.pack x.toModel.unpack) = x := by
  have hword : (Float.ofModel (Float.Model.pack x.toModel.unpack)).toBits.toNat =
      (UnpackedFloat.pack Format.binary64 x.toModel.unpack).toNat := rfl
  have hsign := signWord_signOf x.toBits.toNat_lt
  apply eq_of_toNat_toBits
  rw [hword, unpack_toModel]
  by_cases hlast : x.toBits.toNat / 2 ^ 52 % 2 ^ 11 = 2047
  · rw [ofFields, if_pos hlast]
    by_cases hzero : x.toBits.toNat % 2 ^ 52 = 0
    · rw [if_pos hzero, toNat_pack_infinity, hsign]
      omega
    · have hexponent : @unpackExponent Format.binary64 x.toModel.toBits.toBitVec = -1#_ := by
        rw [← BitVec.toNat_inj, toNat_unpackExponent]
        exact hlast
      have hmantissa : @unpackMantissa Format.binary64 x.toModel.toBits.toBitVec ≠ 0#_ := by
        rw [Ne, ← BitVec.toNat_inj, toNat_unpackMantissa]
        exact hzero
      rw [if_neg hzero]
      exact (congrArg BitVec.toNat (x.toModel.valid.eq_packedNaN hexponent hmantissa)).symm
  · rw [toNat_pack_ofFields _ (by omega) (by omega), hsign]
    omega

theorem Canonical.exists_fields (hc : Canonical m e) (s : Sign) :
    ∃ f fraction, f < 2047 ∧ fraction < 2 ^ 52 ∧ .finite s m e hc.pos = ofFields s f fraction := by
  have hlt := hc.lt
  have hle := hc.le
  have hhigh := hc.high
  by_cases hlow : m < 2 ^ 52
  · obtain rfl := hc.low hlow
    refine ⟨0, m, by decide, hlow, ?_⟩
    rw [ofFields, if_neg (by decide), if_pos rfl, dif_neg hc.pos.ne']
  · refine ⟨(e + 1075).toNat, m - 2 ^ 52, by omega, by omega, ?_⟩
    rw [ofFields, if_neg (by omega), if_neg (by omega)]
    exact finite_congr (by omega) (by omega) _ _

/-- What is packed as a double is found in it again. -/
theorem unpack_pack (hc : Canonical m e) (s : Sign) :
    (Float.Model.pack (.finite s m e hc.pos)).unpack = .finite s m e hc.pos := by
  obtain ⟨f, fraction, hf, hfraction, heq⟩ := hc.exists_fields s
  have hword : (Float.Model.pack (.finite s m e hc.pos)).toBits.toBitVec.toNat =
      signWord s + 2 ^ 52 * f + fraction := by
    rw [heq]
    exact toNat_pack_ofFields s hf hfraction
  rw [Float.Model.unpack, unpack_eq, hword, heq]
  congr 1
  · rw [signOf]
    cases s with
    | positive => exact if_pos (by rw [signWord]; omega)
    | negative => exact if_neg (by rw [signWord]; omega)
  · cases s with
    | positive => rw [signWord]; omega
    | negative => rw [signWord]; omega
  · cases s with
    | positive => rw [signWord]; omega
    | negative => rw [signWord]; omega

/-! ## Reading a decimal -/

theorem Near.self (m : ℕ) : Near m m := by
  refine ⟨?_, by linarith, fun _ => ⟨by linarith, by linarith⟩⟩
  split
  · linarith
  · linarith

/-- A double that lies near some number is not far below it. -/
theorem Near.half_le (h : Near m w) (hm : 0 < m) : 1 / 2 ≤ w := by
  have hone : (1 : ℚ) ≤ m := by exact_mod_cast hm
  linarith [h.roundsTo.low]

/-- A short whole number is a double itself. -/
theorem unpack_toFloat {n : ℕ} (hpos : 0 < n) (hn : n < 2 ^ 53) :
    ∃ (m₁ : ℕ) (e₁ : ℤ) (h₁ : 0 < m₁), 2 ^ 52 ≤ m₁ ∧ (m₁ : ℚ) * 2 ^ e₁ = n ∧
      n.toUInt64.toFloat.toModel.unpack = .finite .positive m₁ e₁ h₁ := by
  have hlog : n.log2 < 53 := (Nat.log2_lt hpos.ne').mpr hn
  obtain ⟨shift, hshift⟩ : ∃ shift, n.log2 + shift = 52 := ⟨52 - n.log2, by omega⟩
  have hlow : 2 ^ 52 ≤ n <<< shift := by
    rw [Nat.shiftLeft_eq, ← hshift, pow_add]
    gcongr
    exact Nat.log2_self_le hpos.ne'
  have hhigh : n <<< shift < 2 ^ 53 := by
    rw [Nat.shiftLeft_eq, show 53 = n.log2 + 1 + shift by omega, pow_add]
    gcongr
    exact Nat.lt_log2_self
  have hc : Canonical (n <<< shift) (-shift) :=
    ⟨by omega, hhigh, by omega, by omega, fun hlt => absurd hlow (not_le.mpr hlt)⟩
  have hround : UnpackedFloat.ofUInt64 Format.binary64 n.toUInt64 =
      .finite .positive (n <<< shift) (-shift) hc.pos := by
    have hword : n.toUInt64.toNat = n := Nat.mod_eq_of_lt (by omega)
    have htarget : Format.binary64.targetExponent (totalExponent n 0) = -shift := by
      simp only [Format.targetExponent, totalExponent, Format.mantissaBits, Format.minExponent]
      norm_num
      omega
    have hexact : roundWithAccuracy Format.binary64 .positive (n <<< shift) (-shift - (0 : ℕ)) .exact =
        .finite .positive (n <<< shift) (-shift) hc.pos :=
      roundWithAccuracy_near hc (Near.self _) .positive (by simpa using cut_exact (n <<< shift))
    rw [UnpackedFloat.ofUInt64, UnpackedFloat.ofNat, UnpackedFloat.ofInt, hword,
      Float.Model.UnpackedFloat.normalize, Int.compare_eq_gt.mpr (by exact_mod_cast hpos)]
    dsimp only
    rw [UnpackedFloat.round, Int.toNat_natCast, htarget, decreaseExponent]
    simpa using hexact
  refine ⟨n <<< shift, -shift, hc.pos, hlow, ?_, ?_⟩
  · rw [Nat.shiftLeft_eq, zpow_neg, zpow_natCast]
    push_cast
    field_simp
  · have hunpack := unpack_pack hc .positive
    rw [← hround] at hunpack
    exact hunpack.trans hround

theorem size_powers : Float.exactlyRepresentablePowersOfTen.size = 23 := rfl

theorem powers_exact (j : Fin Float.exactlyRepresentablePowersOfTen.size) :
    let word := Float.exactlyRepresentablePowersOfTen[j].toBits.toNat
    word < 2 ^ 63 ∧ 1023 ≤ word / 2 ^ 52 ∧ word / 2 ^ 52 < 2047 ∧
      (2 ^ 52 + word % 2 ^ 52) * 2 ^ (word / 2 ^ 52 - 1023) = 10 ^ (j : ℕ) * 2 ^ 52 := by
  decide +kernel +revert

/-- The table of powers of ten is exact. -/
theorem unpack_power {j : ℕ} (hj : j < Float.exactlyRepresentablePowersOfTen.size) :
    ∃ (m₂ : ℕ) (e₂ : ℤ) (h₂ : 0 < m₂), 2 ^ 52 ≤ m₂ ∧ (m₂ : ℚ) * 2 ^ e₂ = 10 ^ j ∧
      Float.exactlyRepresentablePowersOfTen[j].toModel.unpack = .finite .positive m₂ e₂ h₂ := by
  obtain ⟨hsign, hlow, hhigh, hvalue⟩ := powers_exact ⟨j, hj⟩
  rw [unpack_toModel]
  generalize (Float.exactlyRepresentablePowersOfTen[j]).toBits.toNat = word at *
  obtain ⟨f, hf⟩ := Nat.exists_eq_add_of_le hlow
  rw [hf, Nat.add_sub_cancel_left] at hvalue
  refine ⟨2 ^ 52 + word % 2 ^ 52, f - 52, by omega, by omega, ?_, ?_⟩
  · have hcast : ((2 ^ 52 + word % 2 ^ 52 : ℕ) : ℚ) * 2 ^ f = 10 ^ j * 2 ^ 52 := by
      exact_mod_cast hvalue
    rw [zpow_sub₀ two_ne_zero, zpow_natCast, ← mul_div_assoc, hcast]
    norm_num
  · rw [ofFields, if_neg (by omega), if_neg (by omega), signOf, if_pos hsign]
    exact finite_congr rfl (by omega) _ _

theorem Near.value_lt (h : Near m w) (hc : Canonical m e) : w * 2 ^ e < 2 ^ (1024 : ℤ) := by
  have hwide : w < 2 ^ (53 : ℤ) := by exact_mod_cast h.lt hc.lt
  calc
    w * 2 ^ e < 2 ^ (53 : ℤ) * 2 ^ e := mul_lt_mul_of_pos_right hwide (by positivity)
    _ = 2 ^ (53 + e) := (zpow_add₀ two_ne_zero _ _).symm
    _ ≤ 2 ^ (1024 : ℤ) := zpow_le_zpow_right₀ one_le_two (by linarith [hc.high])

theorem Near.le_value (h : Near m w) (hc : Canonical m e) : 2 ^ (-1075 : ℤ) ≤ w * 2 ^ e := by
  have hhalf := h.half_le hc.pos
  calc
    (2 : ℚ) ^ (-1075 : ℤ) = 1 / 2 * 2 ^ (-1074 : ℤ) := by
      rw [show (-1075 : ℤ) = -1 + -1074 by norm_num, zpow_add₀ two_ne_zero, zpow_neg_one, one_div]
    _ ≤ w * 2 ^ e :=
      mul_le_mul hhalf (zpow_le_zpow_right₀ one_le_two hc.le) (by positivity) (by linarith)

/-- A decimal that is near a double is not so long that its power of ten would not be computed. -/
theorem exponent_bounds (hc : Canonical m e) (hnear : Near m w) {n : ℕ} {k : ℤ} (hn : 0 < n)
    (hw : (n : ℚ) * 10 ^ k = w * 2 ^ e) : k ≤ 2048 ∧ -(2048 + (n.log2 : ℤ)) ≤ k := by
  constructor
  · by_contra! hk
    have hone : (1 : ℚ) ≤ n := by exact_mod_cast hn
    have hlarge : (2 : ℚ) ^ (1024 : ℤ) < 2 ^ (1024 : ℤ) := by
      calc
        (2 : ℚ) ^ (1024 : ℤ) ≤ 2 ^ k := zpow_le_zpow_right₀ one_le_two (by omega)
        _ ≤ 10 ^ k := zpow_le_zpow_left₀ (by omega) (by norm_num) (by norm_num)
        _ ≤ n * 10 ^ k := le_mul_of_one_le_left (by positivity) hone
        _ = w * 2 ^ e := hw
        _ < 2 ^ (1024 : ℤ) := hnear.value_lt hc
    exact lt_irrefl _ hlarge
  · by_contra! hk
    obtain ⟨j, hj⟩ := Int.eq_ofNat_of_zero_le (show 0 ≤ -k by omega)
    obtain rfl : k = -(j : ℤ) := by omega
    have hshort : (n : ℚ) < 2 ^ ((n.log2 : ℤ) + 1) := by exact_mod_cast Nat.lt_log2_self
    have hpower : (10 : ℚ) ^ (-(j : ℤ)) ≤ 2 ^ (-(j : ℤ)) := by
      rw [zpow_neg, zpow_neg, zpow_natCast, zpow_natCast]
      gcongr
      norm_num
    have hsmall : (2 : ℚ) ^ (-1075 : ℤ) < 2 ^ (-1075 : ℤ) := by
      calc
        (2 : ℚ) ^ (-1075 : ℤ) ≤ w * 2 ^ e := hnear.le_value hc
        _ = n * 10 ^ (-(j : ℤ)) := hw.symm
        _ ≤ n * 2 ^ (-(j : ℤ)) := mul_le_mul_of_nonneg_left hpower (by positivity)
        _ < 2 ^ ((n.log2 : ℤ) + 1) * 2 ^ (-(j : ℤ)) :=
          mul_lt_mul_of_pos_right hshort (by positivity)
        _ = 2 ^ ((n.log2 : ℤ) + 1 + -(j : ℤ)) := (zpow_add₀ two_ne_zero _ _).symm
        _ ≤ 2 ^ (-1075 : ℤ) := zpow_le_zpow_right₀ one_le_two (by omega)
    exact lt_irrefl _ hsmall

/-- A decimal is computed to the double that it is near to. -/
theorem unpacked_ofScientific (hc : Canonical m e) (hnear : Near m w) {n : ℕ} {k : ℤ} (hn : 0 < n)
    (hw : (n : ℚ) * 10 ^ k = w * 2 ^ e) :
    UnpackedFloat.ofScientific Format.binary64 n k = .finite .positive m e hc.pos := by
  obtain ⟨hhigh, hlow⟩ := exponent_bounds hc hnear hn hw
  rw [UnpackedFloat.ofScientific, dif_neg hn.ne', if_neg (by norm_num; exact hhigh),
    if_neg (by norm_num; omega)]
  by_cases hk : 0 ≤ k
  · rw [if_pos hk]
    obtain ⟨j, rfl⟩ := Int.eq_ofNat_of_zero_le hk
    apply mul_near hc hnear
    · rw [← hw, Nat.shiftLeft_eq, Int.toNat_natCast, zpow_natCast, add_zero, zpow_neg, zpow_natCast]
      push_cast
      field_simp
    · have hlong : 1 * 2 ^ 53 * 1 ≤ n * 2 ^ 53 * 10 ^ j :=
        Nat.mul_le_mul (Nat.mul_le_mul_right _ hn) (Nat.one_le_pow _ _ (by decide))
      have hbits : Format.binary64.mantissaBits = 53 := rfl
      rw [Nat.shiftLeft_eq, hbits]
      simpa using hlong
  · rw [if_neg hk]
    obtain ⟨j, hj⟩ := Int.eq_ofNat_of_zero_le (show 0 ≤ -k by omega)
    apply div_near hc hnear
    rw [← hw, hj, sub_zero, zpow_zero, mul_one, Int.toNat_natCast, show k = -(j : ℤ) by omega,
      zpow_neg, zpow_natCast]
    push_cast
    rw [div_eq_mul_inv]

/-- A decimal that is near a positive double is read as it. -/
theorem ofScientific_near (hc : Canonical m e) (hnear : Near m w) {n : ℕ} {k : ℤ} (hn : 0 < n)
    (hw : (n : ℚ) * 10 ^ k = w * 2 ^ e) :
    Float.ofScientific n (k < 0) k.natAbs =
      Float.ofModel (Float.Model.pack (.finite .positive m e hc.pos)) := by
  rw [Float.ofScientific]
  by_cases hshort : n < 2 ^ 53 ∧ k.natAbs ≤ 22
  · obtain ⟨m₁, e₁, h₁, hlong₁, hvalue₁, hunpack₁⟩ := unpack_toFloat hn hshort.1
    obtain ⟨m₂, e₂, h₂, hlong₂, hvalue₂, hunpack₂⟩ :=
      unpack_power (show k.natAbs < Float.exactlyRepresentablePowersOfTen.size by
        rw [size_powers]; omega)
    rw [dif_pos hshort]
    by_cases hk : k < 0
    · rw [if_pos (decide_eq_true hk)]
      have hquotient : (m₁ / m₂ : ℚ) * 2 ^ (e₁ - e₂) = w * 2 ^ e := by
        have hpower : (10 : ℚ) ^ k = (10 ^ k.natAbs)⁻¹ := by
          rw [← zpow_natCast, ← zpow_neg]
          congr 1
          omega
        rw [← hw, hpower, ← hvalue₁, ← hvalue₂, zpow_sub₀ two_ne_zero]
        field_simp
      have hdiv := div_near hc hnear h₁ h₂ hquotient
      rw [← hunpack₁, ← hunpack₂] at hdiv
      exact congrArg (fun u => Float.ofModel (Float.Model.pack u)) hdiv
    · rw [if_neg (by simpa using hk)]
      have hproduct : (m₁ * m₂ : ℚ) * 2 ^ (e₁ + e₂) = w * 2 ^ e := by
        have hpower : (10 : ℚ) ^ k = 10 ^ k.natAbs := by
          rw [← zpow_natCast]
          congr 1
          omega
        rw [← hw, hpower, ← hvalue₁, ← hvalue₂, zpow_add₀ two_ne_zero]
        ring
      have hlong : 2 ^ 53 ≤ m₁ * m₂ :=
        (by norm_num : 2 ^ 53 ≤ 2 ^ 52 * 2 ^ 52).trans (Nat.mul_le_mul hlong₁ hlong₂)
      have hmul := mul_near hc hnear h₁ h₂ hproduct hlong
      rw [← hunpack₁, ← hunpack₂] at hmul
      exact congrArg (fun u => Float.ofModel (Float.Model.pack u)) hmul
  · rw [dif_neg hshort]
    have hexponent : (if decide (k < 0) = true then Int.negOfNat k.natAbs else Int.ofNat k.natAbs) =
        k := by
      by_cases hk : k < 0
      · rw [if_pos (decide_eq_true hk), Int.negOfNat_eq, Int.ofNat_eq_natCast]
        omega
      · rw [if_neg (by simpa using hk), Int.ofNat_eq_natCast]
        omega
    dsimp only
    rw [hexponent, Float.Model.ofScientific, unpacked_ofScientific hc hnear hn hw]

/-! ## Places of decimals -/

theorem lt_tenTo_length (n : ℕ) : n < 10 ^ length n :=
  (Nat.length_toDigits_le_iff (by decide) Nat.length_toDigits_pos).mp le_rfl

theorem tenTo_length_le {n : ℕ} (hn : 0 < n) : 10 ^ (length n - 1) ≤ n := by
  by_cases hone : length n = 1
  · rw [hone]
    exact hn
  · have hpos : 0 < length n := Nat.length_toDigits_pos
    by_contra! hlt
    have hshort := (Nat.length_toDigits_le_iff (n := n) (by decide : 1 < 10)
      (by omega : 0 < length n - 1)).mpr hlt
    rw [length] at *
    omega

/-- The power of ten above a decimal, and the one below it. -/
theorem place_bounds {n : ℕ} (hn : 0 < n) (k : ℤ) :
    (10 : ℚ) ^ ((length n : ℤ) + k - 1) ≤ n * 10 ^ k ∧ (n : ℚ) * 10 ^ k < 10 ^ ((length n : ℤ) + k) := by
  have hpos : 0 < length n := Nat.length_toDigits_pos
  have hten : (10 : ℚ) ≠ 0 := by norm_num
  constructor
  · rw [show (length n : ℤ) + k - 1 = (length n - 1 : ℕ) + k by omega, zpow_add₀ hten, zpow_natCast]
    gcongr
    exact_mod_cast tenTo_length_le hn
  · rw [zpow_add₀ hten, zpow_natCast]
    gcongr
    exact_mod_cast lt_tenTo_length n

theorem two_pow_lt_ten_pow : (2 : ℚ) ^ (1075 : ℤ) < 10 ^ (400 : ℤ) := by
  exact_mod_cast (by decide +kernel : 2 ^ 1075 < 10 ^ 400)

def signOfBool (negative : Bool) : Sign :=
  if negative then .negative else .positive

/-- A numeral that is near a double is read as it. -/
theorem toFloat_near (hc : Canonical m e) (hnear : Near m w) {numeral : Numeral}
    (hpos : 0 < numeral.digits)
    (hw : (numeral.digits : ℚ) * 10 ^ numeral.exponent = w * 2 ^ e) :
    numeral.toFloat = Float.ofModel
      (Float.Model.pack (.finite (signOfBool numeral.negative) m e hc.pos)) := by
  obtain ⟨hlow, hhigh⟩ := place_bounds hpos numeral.exponent
  rw [hw] at hlow hhigh
  have hten : (1 : ℚ) < 10 := by norm_num
  have hnotLong : ¬400 < (length numeral.digits : ℤ) + numeral.exponent := by
    intro hlong
    have hlt : (10 : ℚ) ^ ((length numeral.digits : ℤ) + numeral.exponent - 1) < 10 ^ (400 : ℤ) :=
      (hlow.trans_lt (hnear.value_lt hc)).trans
        ((zpow_le_zpow_right₀ one_le_two (by decide)).trans_lt two_pow_lt_ten_pow)
    have := (zpow_lt_zpow_iff_right₀ hten).mp hlt
    omega
  have hnotShort : ¬(length numeral.digits : ℤ) + numeral.exponent < -400 := by
    intro hshort
    have hsmall : (10 : ℚ) ^ (-400 : ℤ) ≤ 2 ^ (-1075 : ℤ) := by
      rw [zpow_neg, zpow_neg]
      exact inv_anti₀ (by positivity) two_pow_lt_ten_pow.le
    have hlt : (10 : ℚ) ^ (-400 : ℤ) < 10 ^ ((length numeral.digits : ℤ) + numeral.exponent) :=
      (hsmall.trans (hnear.le_value hc)).trans_lt hhigh
    have := (zpow_lt_zpow_iff_right₀ hten).mp hlt
    omega
  rw [Numeral.toFloat, if_neg hpos.ne', if_neg hnotLong, if_neg hnotShort,
    ofScientific_near hc hnear hpos hw, signOfBool]
  cases numeral.negative with
  | false => rfl
  | true =>
      have hneg := congrArg UnpackedFloat.neg (unpack_pack hc .positive)
      exact congrArg (fun u => Float.ofModel (Float.Model.pack u)) hneg

/-! ## What a double holds -/

variable {x : Float} {negative : Bool}

/-- What the arithmetic of doubles makes of what a double holds. -/
def Binary.unpacked : Binary → UnpackedFloat
  | .nan => .notANumber
  | .infinite negative => .infinity (signOfBool negative)
  | .finite negative m e =>
    if h : 0 < m then .finite (signOfBool negative) m e h else .zero (signOfBool negative)

theorem signOfBool_decide (word : ℕ) : signOfBool (decide (2 ^ 63 ≤ word)) = signOf word := by
  rw [signOfBool, signOf]
  by_cases h : 2 ^ 63 ≤ word
  · rw [if_pos (decide_eq_true h), if_neg (not_lt.mpr h)]
  · rw [if_neg (by simpa using h), if_pos (not_le.mp h)]

theorem ofFloat_eq (x : Float) :
    Binary.ofFloat x =
      if x.toBits.toNat / 2 ^ 52 % 2 ^ 11 = 2047 then
        if x.toBits.toNat % 2 ^ 52 = 0 then .infinite (decide (2 ^ 63 ≤ x.toBits.toNat)) else .nan
      else if x.toBits.toNat / 2 ^ 52 % 2 ^ 11 = 0 then
        .finite (decide (2 ^ 63 ≤ x.toBits.toNat)) (x.toBits.toNat % 2 ^ 52) (-1074)
      else
        .finite (decide (2 ^ 63 ≤ x.toBits.toNat)) (2 ^ 52 + x.toBits.toNat % 2 ^ 52)
          ((x.toBits.toNat / 2 ^ 52 % 2 ^ 11 : ℕ) - 1075) :=
  rfl

theorem unpack_eq_unpacked (x : Float) : x.toModel.unpack = (Binary.ofFloat x).unpacked := by
  rw [unpack_toModel, ofFloat_eq, ofFields, ← signOfBool_decide]
  split
  · split
    · rfl
    · rfl
  · split
    · by_cases hzero : x.toBits.toNat % 2 ^ 52 = 0
      · rw [dif_pos hzero, Binary.unpacked, dif_neg (by omega)]
      · rw [dif_neg hzero, Binary.unpacked, dif_pos (Nat.pos_of_ne_zero hzero)]
    · rw [Binary.unpacked, dif_pos (by omega)]

/-- A double is determined by what it holds. -/
theorem eq_of_ofFloat {b : Binary} (h : Binary.ofFloat x = b) :
    x = Float.ofModel (Float.Model.pack b.unpacked) := by
  rw [← h, ← unpack_eq_unpacked, ofModel_pack_unpack]

theorem eq_of_ofFloat_nan (h : Binary.ofFloat x = .nan) : x = 0.0 / 0.0 :=
  (eq_of_ofFloat h).trans (by decide +kernel)

theorem eq_of_ofFloat_infinite (h : Binary.ofFloat x = .infinite negative) :
    x = if negative then -(1.0 / 0.0) else 1.0 / 0.0 := by
  rw [eq_of_ofFloat h]
  cases negative <;> decide +kernel

theorem eq_of_ofFloat_zero (h : Binary.ofFloat x = .finite negative 0 e) :
    x = if negative then -0.0 else 0.0 := by
  rw [eq_of_ofFloat h]
  cases negative <;> rfl

/-- What a finite double holds is canonical, unless it is a zero. -/
theorem canonical_of_ofFloat (h : Binary.ofFloat x = .finite negative m e) (hm : 0 < m) :
    Canonical m e := by
  rw [ofFloat_eq] at h
  split at h
  · split at h
    · cases h
    · cases h
  · split at h
    · obtain ⟨-, rfl, rfl⟩ := Binary.finite.inj h
      exact ⟨hm, by omega, le_rfl, by decide, fun _ => rfl⟩
    · obtain ⟨-, rfl, rfl⟩ := Binary.finite.inj h
      exact ⟨hm, by omega, by omega, by omega, by omega⟩

/-- A numeral that is near a double in units of its last place is read as the double. -/
theorem toFloat_of_near (hx : Binary.ofFloat x = .finite negative m e) (hm : 0 < m)
    (hnear : Near m w) {n : ℕ} {k : ℤ} (hn : 0 < n)
    (hw : (n : ℚ) * 10 ^ k = w * 2 ^ e) : (Numeral.mk negative n k).toFloat = x := by
  have hself := eq_of_ofFloat hx
  rw [Binary.unpacked, dif_pos hm] at hself
  exact (toFloat_near (canonical_of_ofFloat hx hm) hnear hn hw).trans hself.symm

end Significance.Decimal
