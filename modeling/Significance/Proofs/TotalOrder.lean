import Mathlib
import Significance.Decimal.Order

/-! # The total order of written numbers

Doubles are ordered by their bits. On numbers this is the order of their values, with the negative
zero before the positive one, and what is no number is beyond all numbers on the side of its
sign. -/

namespace Significance.Decimal

open Float.Model UnpackedFloat

/-! ## Fields of a double -/

/-- The number of a sign, an exponent field and a mantissa field. -/
def ofFields (sign : Sign) (e m : ℕ) : UnpackedFloat :=
  if e = 2047 then
    if m = 0 then .infinity sign else .notANumber
  else if e = 0 then
    if h : m = 0 then .zero sign else .finite sign m (-1074) (Nat.pos_of_ne_zero h)
  else .finite sign (2 ^ 52 + m) (e - 1075) (Nat.add_pos_left (Nat.two_pow_pos 52) m)

def signOf (word : ℕ) : Sign :=
  if word < 2 ^ 63 then .positive else .negative

section

variable (w : BitVec 64)

theorem toNat_unpackMantissa :
    (@unpackMantissa Format.binary64 w).toNat = w.toNat % 2 ^ 52 := by
  simp [unpackMantissa]

theorem toNat_unpackExponent :
    (@unpackExponent Format.binary64 w).toNat = w.toNat / 2 ^ 52 % 2 ^ 11 := by
  simp [unpackExponent, Nat.shiftRight_eq_div_pow]

theorem ofBitVec_unpackSign :
    Sign.ofBitVec (@unpackSign Format.binary64 w) = signOf w.toNat := by
  have hbit : (@unpackSign Format.binary64 w).toNat = w.toNat / 2 ^ 63 % 2 := by
    simp [unpackSign, Nat.shiftRight_eq_div_pow]
  have hlt := w.isLt
  rw [Sign.ofBitVec, signOf]
  congr 1
  rw [← BitVec.toNat_inj, hbit, BitVec.toNat_ofNat, eq_iff_iff]
  omega

theorem unpack_eq :
    UnpackedFloat.unpack Format.binary64 w =
      ofFields (signOf w.toNat) (w.toNat / 2 ^ 52 % 2 ^ 11) (w.toNat % 2 ^ 52) := by
  have hhigh : @unpackExponent Format.binary64 w = -1#_ ↔
      w.toNat / 2 ^ 52 % 2 ^ 11 = 2047 := by
    rw [← BitVec.toNat_inj, toNat_unpackExponent]
    rfl
  have hlow : @unpackExponent Format.binary64 w = 0#_ ↔
      w.toNat / 2 ^ 52 % 2 ^ 11 = 0 := by
    rw [← BitVec.toNat_inj, toNat_unpackExponent]
    rfl
  have hnone : @unpackMantissa Format.binary64 w = 0#_ ↔ w.toNat % 2 ^ 52 = 0 := by
    rw [← BitVec.toNat_inj, toNat_unpackMantissa]
    rfl
  have hbias : Format.binary64.exponentBias = 1023 := by decide
  have happend : (1#1 ++ @unpackMantissa Format.binary64 w).toNat =
      2 ^ 52 + w.toNat % 2 ^ 52 := by
    rw [BitVec.toNat_append, ← Nat.shiftLeft_add_eq_or_of_lt (BitVec.isLt _),
      toNat_unpackMantissa]
    rfl
  simp only [UnpackedFloat.unpack, hhigh, hlow, hnone, hbias, happend, ofBitVec_unpackSign,
    toNat_unpackMantissa, toNat_unpackExponent]
  rw [ofFields]
  by_cases hinfinite : w.toNat / 2 ^ 52 % 2 ^ 11 = 2047
  · rw [if_pos hinfinite, if_pos hinfinite]
  rw [if_neg hinfinite, if_neg hinfinite]
  by_cases hsubnormal : w.toNat / 2 ^ 52 % 2 ^ 11 = 0
  · rw [if_pos hsubnormal, if_pos hsubnormal]
    by_cases hzero : w.toNat % 2 ^ 52 = 0
    · rw [dif_pos hzero, dif_pos hzero]
    · rw [dif_neg hzero, dif_neg hzero, hsubnormal]
      rfl
  · rw [if_neg hsubnormal, if_neg hsubnormal]
    rfl

end

def significand (e m : ℕ) : ℕ :=
  if e = 0 then m else 2 ^ 52 + m

def exponent (e : ℕ) : ℤ :=
  if e = 0 then -1074 else e - 1075

/-- A number is a zero, an infinity or finite. -/
theorem ofFields_cases (s : Sign) {e m : ℕ} (h : e = 2047 → m = 0) :
    (e = 0 ∧ m = 0 ∧ ofFields s e m = .zero s) ∨
      (e = 2047 ∧ m = 0 ∧ ofFields s e m = .infinity s) ∨
      (e ≠ 2047 ∧ (e = 0 → m ≠ 0) ∧
        ∃ hpos, ofFields s e m = .finite s (significand e m) (exponent e) hpos) := by
  by_cases hinfinite : e = 2047
  · refine Or.inr (Or.inl ⟨hinfinite, h hinfinite, ?_⟩)
    rw [ofFields, if_pos hinfinite, if_pos (h hinfinite)]
  by_cases hlow : e = 0
  · by_cases hzero : m = 0
    · refine Or.inl ⟨hlow, hzero, ?_⟩
      rw [ofFields, if_neg hinfinite, if_pos hlow, dif_pos hzero]
    · refine Or.inr (Or.inr ⟨hinfinite, fun _ => hzero, ?_⟩)
      simp only [ofFields, if_neg hinfinite, if_pos hlow, dif_neg hzero, significand, exponent]
      exact ⟨Nat.pos_of_ne_zero hzero, trivial⟩
  · refine Or.inr (Or.inr ⟨hinfinite, fun heq => absurd heq hlow, ?_⟩)
    simp only [ofFields, if_neg hinfinite, if_neg hlow, significand, exponent]
    exact ⟨by omega, trivial⟩

variable {e m e' m' : ℕ}

/-- The order of exponents and then of significands is that of the fields as one number. -/
theorem fields_lt_iff (hm : m < 2 ^ 52) (hm' : m' < 2 ^ 52) :
    exponent e < exponent e' ∨
        exponent e = exponent e' ∧ significand e m < significand e' m' ↔
      2 ^ 52 * e + m < 2 ^ 52 * e' + m' := by
  rw [exponent, exponent, significand, significand]
  split
  · split
    · omega
    · omega
  · split
    · omega
    · omega

theorem lt_finite (hm : m < 2 ^ 52) (hm' : m' < 2 ^ 52) {s t : Sign}
    {hpos : 0 < significand e m} {hpos' : 0 < significand e' m'} :
    (finite s (significand e m) (exponent e) hpos).lt
        (finite t (significand e' m') (exponent e') hpos') = true ↔
      s.apply (2 ^ 52 * e + m : ℕ) < t.apply (2 ^ 52 * e' + m' : ℕ) := by
  have hsome : 2 ^ 52 * e + m ≠ 0 := by
    rw [significand] at hpos
    split at hpos
    · omega
    · omega
  cases s with
  | negative =>
      cases t with
      | negative =>
          rw [UnpackedFloat.lt, UnpackedFloat.compare, beq_iff_eq, Option.some.injEq,
            Ordering.swap_eq_lt, Ordering.then_eq_gt, Int.compare_eq_gt, Int.compare_eq_eq,
            Nat.compare_eq_gt, Sign.apply, Sign.apply, Int.neg_lt_neg_iff, Int.ofNat_lt,
            ← fields_lt_iff hm' hm, eq_comm (a := exponent e)]
      | positive =>
          refine iff_of_true rfl ?_
          rw [Sign.apply, Sign.apply]
          omega
  | positive =>
      cases t with
      | negative =>
          refine iff_of_false Bool.false_ne_true ?_
          rw [Sign.apply, Sign.apply]
          omega
      | positive =>
          rw [UnpackedFloat.lt, UnpackedFloat.compare, beq_iff_eq, Option.some.injEq,
            Ordering.then_eq_lt, Int.compare_eq_lt, Int.compare_eq_eq, Nat.compare_eq_lt,
            Sign.apply, Sign.apply, Int.ofNat_lt, fields_lt_iff hm hm']

/-- Numbers are ordered by their fields, with their signs. -/
theorem lt_ofFields (hm : m < 2 ^ 52) (hm' : m' < 2 ^ 52) (he : e ≤ 2047) (he' : e' ≤ 2047)
    (h : e = 2047 → m = 0) (h' : e' = 2047 → m' = 0) {s t : Sign} :
    (ofFields s e m).lt (ofFields t e' m') = true ↔
      s.apply (2 ^ 52 * e + m : ℕ) < t.apply (2 ^ 52 * e' + m' : ℕ) := by
  rcases ofFields_cases s h with ⟨rfl, rfl, hu⟩ | ⟨rfl, rfl, hu⟩ | ⟨hne, hsome, hpos, hu⟩
  · rcases ofFields_cases t h' with ⟨rfl, rfl, hv⟩ | ⟨rfl, rfl, hv⟩ | ⟨hne', hsome', hpos', hv⟩
    · rw [hu, hv]
      cases s <;> cases t <;> decide
    · rw [hu, hv]
      cases s <;> cases t <;> decide
    · rw [hu, hv]
      cases s <;> cases t <;> simp [UnpackedFloat.lt, UnpackedFloat.compare, Sign.apply] <;> omega
  · rcases ofFields_cases t h' with ⟨rfl, rfl, hv⟩ | ⟨rfl, rfl, hv⟩ | ⟨hne', hsome', hpos', hv⟩
    · rw [hu, hv]
      cases s <;> cases t <;> decide
    · rw [hu, hv]
      cases s <;> cases t <;> decide
    · rw [hu, hv]
      cases s <;> cases t <;> simp [UnpackedFloat.lt, UnpackedFloat.compare, Sign.apply] <;> omega
  · rcases ofFields_cases t h' with ⟨rfl, rfl, hv⟩ | ⟨rfl, rfl, hv⟩ | ⟨hne', hsome', hpos', hv⟩
    · rw [hu, hv]
      cases s <;> cases t <;> simp [UnpackedFloat.lt, UnpackedFloat.compare, Sign.apply] <;> omega
    · rw [hu, hv]
      cases s <;> cases t <;> simp [UnpackedFloat.lt, UnpackedFloat.compare, Sign.apply] <;> omega
    · rw [hu, hv]
      exact lt_finite hm hm'

/-! ## Doubles -/

/-- The place of a double among the numbers, zero for both zeros. -/
def place (x : Float) : ℤ :=
  (signOf x.toBits.toNat).apply (x.toBits.toNat % 2 ^ 63 : ℕ)

theorem unpack_toModel (x : Float) :
    x.toModel.unpack =
      ofFields (signOf x.toBits.toNat) (x.toBits.toNat / 2 ^ 52 % 2 ^ 11)
        (x.toBits.toNat % 2 ^ 52) :=
  unpack_eq x.toModel.toBits.toBitVec

theorem fraction_eq_zero {x : Float} (h : x.isNaN = false)
    (hhigh : x.toBits.toNat / 2 ^ 52 % 2 ^ 11 = 2047) : x.toBits.toNat % 2 ^ 52 = 0 := by
  have hnumber : x.toModel.unpack.isNaN = false := h
  by_contra hfraction
  rw [unpack_toModel, ofFields, if_pos hhigh, if_neg hfraction] at hnumber
  cases hnumber

/-- Numbers are ordered by their places. -/
theorem lt_iff_place {x y : Float} (hx : x.isNaN = false) (hy : y.isNaN = false) :
    x < y ↔ place x < place y := by
  have hfields : ∀ word : ℕ,
      word % 2 ^ 63 = 2 ^ 52 * (word / 2 ^ 52 % 2 ^ 11) + word % 2 ^ 52 := by
    omega
  have hmodel : x < y ↔ x.toModel.unpack.lt y.toModel.unpack = true := decide_eq_true_iff
  rw [hmodel, unpack_toModel, unpack_toModel, place, place, hfields, hfields]
  exact lt_ofFields (by omega) (by omega) (by omega) (by omega) (fraction_eq_zero hx)
    (fraction_eq_zero hy)

theorem eq_of_toNat_toBits {x y : Float} (h : x.toBits.toNat = y.toBits.toNat) : x = y := by
  obtain ⟨⟨bits, hvalid⟩⟩ := x
  obtain ⟨⟨bits', hvalid'⟩⟩ := y
  obtain rfl : bits = bits' := UInt64.toNat_inj.mp h
  rfl

theorem rank_eq (x : Float) :
    rank x = if x.toBits.toNat < 2 ^ 63 then place x else place x - 1 := by
  have hlt : x.toBits.toNat < 2 ^ 64 := x.toBits.toNat_lt
  have hpower : twoTo 63 = 2 ^ 63 := rfl
  rw [rank, place, signOf, hpower]
  split
  · rw [Sign.apply]
    omega
  · rw [Sign.apply]
    omega

theorem rank_injective : Function.Injective rank := by
  intro x y h
  have hlt : x.toBits.toNat < 2 ^ 64 := x.toBits.toNat_lt
  have hlt' : y.toBits.toNat < 2 ^ 64 := y.toBits.toNat_lt
  have hpower : twoTo 63 = 2 ^ 63 := rfl
  apply eq_of_toNat_toBits
  rw [rank, rank, hpower] at h
  split at h
  · split at h
    · omega
    · omega
  · split at h
    · omega
    · omega

theorem eq_negZero_iff {x : Float} : x = -0.0 ↔ x.toBits.toNat = 2 ^ 63 :=
  ⟨fun h => h ▸ rfl, fun h => eq_of_toNat_toBits h⟩

theorem eq_zero_iff {x : Float} : x = 0.0 ↔ x.toBits.toNat = 0 :=
  ⟨fun h => h ▸ rfl, fun h => eq_of_toNat_toBits h⟩

/-- Ranks have the order of the numbers, with the negative zero before the positive one. -/
theorem rank_lt_rank {x y : Float} (hx : x.isNaN = false) (hy : y.isNaN = false) :
    rank x < rank y ↔ x < y ∨ (x = -0.0 ∧ y = 0.0) := by
  have hlt : x.toBits.toNat < 2 ^ 64 := x.toBits.toNat_lt
  have hlt' : y.toBits.toNat < 2 ^ 64 := y.toBits.toNat_lt
  rw [lt_iff_place hx hy, eq_negZero_iff, eq_zero_iff, rank_eq, rank_eq, place, place, signOf,
    signOf]
  split
  · split
    · simp only [Sign.apply]
      omega
    · simp only [Sign.apply]
      omega
  · split
    · simp only [Sign.apply]
      omega
    · simp only [Sign.apply]
      omega

theorem abs_rank_lt {x : Float} (h : x.isNaN = false) : -2 ^ 63 < rank x ∧ rank x < 2 ^ 63 := by
  have hlt : x.toBits.toNat < 2 ^ 64 := x.toBits.toNat_lt
  have hpower : twoTo 63 = 2 ^ 63 := rfl
  have hfraction := fraction_eq_zero h
  rw [rank, hpower]
  split
  · omega
  · omega

/-! ## Written numbers -/

/-- What a text that reads as a double stands for. What is no number keeps the sign that it is
written with. -/
inductive Written
  | number (x : Float) (h : x.isNaN = false)
  | notNumber (negative : Bool)

def written? (text : String) : Option Written :=
  (read? text).map fun x =>
    if h : x.isNaN = false then .number x h else .notNumber (text.toList.head? = some '-')

namespace Written

/-- The order of numbers with the negative zero before the positive one. What is no number is
before all numbers or behind them. -/
def Before : Written → Written → Prop
  | number x _, number y _ => x < y ∨ (x = -0.0 ∧ y = 0.0)
  | number _ _, notNumber negative => negative = false
  | notNumber negative, number _ _ => negative = true
  | notNumber negative, notNumber negative' => negative = true ∧ negative' = false

def rank : Written → ℤ
  | number x _ => Decimal.rank x
  | notNumber negative => if negative then -2 ^ 63 else 2 ^ 63

variable {v w : Written}

theorem before_iff : v.Before w ↔ v.rank < w.rank := by
  cases v with
  | number x hx =>
      obtain ⟨hlow, hhigh⟩ := abs_rank_lt hx
      cases w with
      | number y hy => exact (rank_lt_rank hx hy).symm
      | notNumber negative =>
          cases negative with
          | true => exact iff_of_false Bool.false_ne_true.symm hlow.asymm
          | false => exact iff_of_true rfl hhigh
  | notNumber negative =>
      cases w with
      | number y hy =>
          obtain ⟨hlow, hhigh⟩ := abs_rank_lt hy
          cases negative with
          | true => exact iff_of_true rfl hlow
          | false => exact iff_of_false Bool.false_ne_true hhigh.asymm
      | notNumber negative' =>
          cases negative <;> cases negative' <;> simp [Before, rank]

theorem rank_injective : Function.Injective rank := by
  intro v w h
  cases v with
  | number x hx =>
      obtain ⟨hlow, hhigh⟩ := abs_rank_lt hx
      cases w with
      | number y hy =>
          obtain rfl := Decimal.rank_injective h
          rfl
      | notNumber negative =>
          cases negative with
          | true => exact absurd h hlow.ne'
          | false => exact absurd h hhigh.ne
  | notNumber negative =>
      cases w with
      | number y hy =>
          obtain ⟨hlow, hhigh⟩ := abs_rank_lt hy
          cases negative with
          | true => exact absurd h hlow.ne
          | false => exact absurd h hhigh.ne'
      | notNumber negative' =>
          cases negative <;> cases negative' <;> simp [rank] at h ⊢

end Written

theorem rank?_eq (text : String) : rank? text = (written? text).map Written.rank := by
  rw [rank?, written?, Option.map_map]
  congr 1
  funext x
  by_cases h : x.isNaN = false
  · rw [Function.comp_apply, dif_pos h, if_neg (ne_true_of_eq_false h)]
    rfl
  · rw [Function.comp_apply, dif_neg h, if_pos (Bool.eq_true_of_not_eq_false h), Written.rank]
    simp only [decide_eq_true_eq]
    rfl

end Significance.Decimal
