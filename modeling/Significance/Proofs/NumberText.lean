import Significance.Decimal.Layout
import Significance.Text.Blank
import Significance.Proofs.ShortestDigits

/-! # Texts of doubles read back

The digits that are written are read as the number they stand for, wherever the point stands. So the
shortest text of a double is read as the double. -/

namespace Significance.Decimal

/-! ## Digits -/

variable {digits whole fraction rest : List Char} {negative : Bool}

def AllDigits (text : List Char) : Prop :=
  ∀ c ∈ text, c.isDigit = true

theorem AllDigits.append (h : AllDigits whole) (h' : AllDigits fraction) :
    AllDigits (whole ++ fraction) :=
  List.forall_mem_append.mpr ⟨h, h'⟩

theorem AllDigits.take (h : AllDigits digits) (count : ℕ) : AllDigits (digits.take count) :=
  fun c hc => h c (List.mem_of_mem_take hc)

theorem AllDigits.drop (h : AllDigits digits) (count : ℕ) : AllDigits (digits.drop count) :=
  fun c hc => h c (List.mem_of_mem_drop hc)

theorem allDigits_digitsOf (n : ℕ) : AllDigits (digitsOf n) := fun _ hc =>
  Nat.isDigit_of_mem_toDigits (by decide) (by decide) hc

theorem allDigits_zeros (count : ℕ) : AllDigits (zeros count) := fun _ hc =>
  List.eq_of_mem_replicate hc ▸ rfl

def digitValue (c : Char) : ℕ :=
  c.toNat - '0'.toNat

/-- The number that digits stand for. -/
def valueOf (digits : List Char) : ℕ :=
  Nat.ofDigitChars 10 digits 0

theorem digitsOf_ne_nil (n : ℕ) : digitsOf n ≠ [] :=
  List.ne_nil_of_length_pos Nat.length_toDigits_pos

theorem valueOf_digitsOf (n : ℕ) : valueOf (digitsOf n) = n :=
  Nat.ofDigitChars_ten_toDigits

theorem valueOf_digitsOf_zeros (n count : ℕ) :
    valueOf (digitsOf n ++ zeros count) = n * 10 ^ count := by
  have hvalue := valueOf_digitsOf n
  rw [valueOf] at hvalue
  rw [valueOf, Nat.ofDigitChars_append, hvalue, zeros, Nat.ofDigitChars_replicate_zero, mul_comm]

theorem valueOf_zeros_append (count : ℕ) (digits : List Char) :
    valueOf (zeros count ++ digits) = valueOf digits := by
  rw [valueOf, Nat.ofDigitChars_append, zeros, Nat.ofDigitChars_replicate_zero, mul_zero, valueOf]

theorem digit?_of_isDigit {c : Char} (h : c.isDigit = true) :
    digit? c = some (digitValue c) := by
  rw [Char.isDigit, Bool.and_eq_true, decide_eq_true_iff, decide_eq_true_iff] at h
  exact if_pos h

/-- Digits end where no digit follows. -/
theorem spanDigits_append (h : AllDigits digits) (hrest : ∀ c ∈ rest.head?, digit? c = none) :
    spanDigits (digits ++ rest) = (digits.map digitValue, rest) := by
  induction digits with
  | nil =>
      cases rest with
      | nil => rfl
      | cons c rest =>
          rw [List.nil_append, spanDigits, hrest c rfl]
          rfl
  | cons c digits ih =>
      obtain ⟨hc, hdigits⟩ := List.forall_mem_cons.mp h
      rw [List.cons_append, spanDigits, digit?_of_isDigit hc, ih hdigits]
      rfl

theorem spanDigits_digits (h : AllDigits digits) :
    spanDigits digits = (digits.map digitValue, []) := by
  have hspan := @spanDigits_append digits [] h (by simp)
  rwa [List.append_nil] at hspan

theorem ofDigits_map (digits : List Char) :
    ofDigits (digits.map digitValue) = valueOf digits := by
  rw [ofDigits, List.foldl_map]
  rfl

/-- Digits alone are a numeral. -/
theorem unsigned?_digits (h : AllDigits digits) (hne : digits ≠ []) :
    unsigned? negative digits = some ⟨negative, valueOf digits, 0⟩ := by
  rw [unsigned?, spanDigits_digits h]
  simp [hne, exponent?, ofDigits_map]

/-- The digits of a whole number are read as the number. -/
theorem unsigned?_digitsOf (negative : Bool) (n : ℕ) :
    unsigned? negative (digitsOf n) = some ⟨negative, n, 0⟩ := by
  rw [unsigned?_digits (allDigits_digitsOf n) (digitsOf_ne_nil n), valueOf_digitsOf]

/-- Digits with a point among them are a numeral of the same digits. -/
theorem unsigned?_point (hwhole : AllDigits whole) (hfraction : AllDigits fraction)
    (hne : whole ≠ []) :
    unsigned? negative (whole ++ '.' :: fraction) =
      some ⟨negative, valueOf (whole ++ fraction), -fraction.length⟩ := by
  have hpoint : ∀ c ∈ ('.' :: fraction).head?, digit? c = none := by
    rintro c ⟨⟩
    decide
  rw [unsigned?, spanDigits_append hwhole hpoint]
  simp [spanDigits_digits hfraction, hne, exponent?, ← List.map_append, ofDigits_map]

/-! ## Points -/

/-- Digits filled up with zeros have some before the point and as many behind it as are asked for. -/
theorem exists_pointed (h : AllDigits digits) (places : ℕ) :
    ∃ whole fraction, AllDigits whole ∧ AllDigits fraction ∧ whole ≠ [] ∧
      fraction.length = places ∧ valueOf (whole ++ fraction) = valueOf digits ∧
      pointed digits places = if fraction.isEmpty then whole else whole ++ '.' :: fraction := by
  have hfilled := (allDigits_zeros (places + 1 - digits.length)).append h
  have hlength : places + 1 ≤ (zeros (places + 1 - digits.length) ++ digits).length := by
    rw [List.length_append, zeros, List.length_replicate]
    omega
  rw [pointed, ← valueOf_zeros_append (places + 1 - digits.length)]
  generalize zeros (places + 1 - digits.length) ++ digits = filled at *
  refine ⟨_, _, hfilled.take (filled.length - places), hfilled.drop (filled.length - places),
    ?_, ?_, ?_, rfl⟩
  · exact List.ne_nil_of_length_pos (by rw [List.length_take]; omega)
  · rw [List.length_drop]
    omega
  · rw [List.take_append_drop]

/-- A point moves the digits by the places behind it. -/
theorem unsigned?_pointed (h : AllDigits digits) (places : ℕ) :
    unsigned? negative (pointed digits places) = some ⟨negative, valueOf digits, -places⟩ := by
  obtain ⟨whole, fraction, hwhole, hfraction, hne, rfl, hvalue, hpointed⟩ := exists_pointed h places
  rw [hpointed, ← hvalue]
  cases fraction with
  | nil =>
      rw [List.append_nil]
      exact unsigned?_digits hwhole hne
  | cons c fraction => exact unsigned?_point hwhole hfraction hne

/-! ## Signs -/

/-- The characters of a number, its sign apart. -/
def IsUnsigned (text : List Char) : Prop :=
  ∀ c ∈ text, c.isDigit = true ∨ c = '.'

theorem AllDigits.isUnsigned (h : AllDigits digits) : IsUnsigned digits :=
  fun c hc => Or.inl (h c hc)

theorem isUnsigned_pointed (h : AllDigits digits) (places : ℕ) :
    IsUnsigned (pointed digits places) := by
  obtain ⟨whole, fraction, hwhole, hfraction, -, -, -, hpointed⟩ := exists_pointed h places
  rw [hpointed]
  split
  · exact hwhole.isUnsigned
  · exact List.forall_mem_append.mpr ⟨hwhole.isUnsigned,
      List.forall_mem_cons.mpr ⟨Or.inr rfl, hfraction.isUnsigned⟩⟩

theorem spanSign_sign {text : List Char} (h : IsUnsigned text) :
    spanSign (sign negative ++ text) = (negative, text) := by
  cases negative with
  | true => rfl
  | false =>
      rw [sign, if_neg Bool.false_ne_true, List.nil_append, spanSign.eq_def]
      split
      · rcases h '-' List.mem_cons_self with hdigit | hpoint
        · cases hdigit
        · cases hpoint
      · rcases h '+' List.mem_cons_self with hdigit | hpoint
        · cases hdigit
        · cases hpoint
      · rfl

/-- A text with its sign is read as the numeral that the text is without it. -/
theorem read?_sign {text : List Char} {numeral : Numeral} (h : IsUnsigned text)
    (hnumeral : unsigned? negative text = some numeral) :
    read? (String.ofList (sign negative ++ text)) = some numeral.toFloat := by
  rw [read?, String.toList_ofList, spanSign_sign h]
  simp only [hnumeral]

/-! ## Shortest digits -/

theorem plain_positive (m : ℕ) (e : ℤ) :
    Layout.plain.positive m e =
      if 0 ≤ (shortest .up m e).exponent then
        digitsOf (shortest .up m e).digits ++ zeros (shortest .up m e).exponent.toNat
      else pointed (digitsOf (shortest .up m e).digits) (-(shortest .up m e).exponent).toNat := by
  simp [Layout.positive, Layout.plain]

theorem isUnsigned_positive (m : ℕ) (e : ℤ) : IsUnsigned (Layout.plain.positive m e) := by
  rw [plain_positive]
  split
  · exact ((allDigits_digitsOf _).append (allDigits_zeros _)).isUnsigned
  · exact isUnsigned_pointed (allDigits_digitsOf _) _

/-- Shortest digits are read as the point of the grid that they are. -/
theorem unsigned?_positive (negative : Bool) (m : ℕ) (e : ℤ) :
    ∃ n k, unsigned? negative (Layout.plain.positive m e) = some ⟨negative, n, k⟩ ∧
      (n : ℚ) * 10 ^ k = (shortest .up m e).digits * 10 ^ (shortest .up m e).exponent := by
  rw [plain_positive]
  generalize shortest .up m e = point
  by_cases hpoint : 0 ≤ point.exponent
  · obtain ⟨j, hj⟩ := Int.eq_ofNat_of_zero_le hpoint
    refine ⟨point.digits * 10 ^ j, 0, ?_, ?_⟩
    · rw [if_pos hpoint, hj, Int.toNat_natCast,
        unsigned?_digits ((allDigits_digitsOf _).append (allDigits_zeros _))
          (List.append_ne_nil_of_left_ne_nil (digitsOf_ne_nil _) _), valueOf_digitsOf_zeros]
    · rw [hj]
      simp
  · refine ⟨point.digits, point.exponent, ?_, rfl⟩
    rw [if_neg hpoint, unsigned?_pointed (allDigits_digitsOf _), valueOf_digitsOf]
    congr 2
    omega

/-! ## Texts of doubles -/

theorem toFloat_zero (negative : Bool) :
    (Numeral.mk negative 0 0).toFloat = if negative then -0.0 else 0.0 := by
  cases negative <;> rfl

theorem plain_finite {x : Float} {m : ℕ} {e : ℤ} (hx : Binary.ofFloat x = .finite negative m e)
    (hm : 0 < m) :
    plain x = String.ofList (sign negative ++ Layout.plain.positive m e) := by
  obtain ⟨m, rfl⟩ := Nat.exists_eq_succ_of_ne_zero hm.ne'
  rw [plain, Layout.text, hx]
  rfl

theorem plain_zero {x : Float} {e : ℤ} (hx : Binary.ofFloat x = .finite negative 0 e) :
    plain x = String.ofList (sign negative ++ digitsOf 0) := by
  rw [plain, Layout.text, hx]
  rfl

/-- The shortest text of a double is read as the double. -/
theorem read?_plain (x : Float) : read? (plain x) = some x := by
  cases hx : Binary.ofFloat x with
  | nan =>
      rw [eq_of_ofFloat_nan hx]
      decide +kernel
  | infinite negative =>
      rw [eq_of_ofFloat_infinite hx]
      cases negative <;> decide +kernel
  | finite negative m e =>
      rcases Nat.eq_zero_or_pos m with rfl | hm
      · rw [plain_zero hx, eq_of_ofFloat_zero hx, ← toFloat_zero]
        exact read?_sign (allDigits_digitsOf 0).isUnsigned (unsigned?_digitsOf negative 0)
      · obtain ⟨hpos, hnear⟩ := near_shortest (canonical_of_ofFloat hx hm) .up
        obtain ⟨n, k, hnumeral, hvalue⟩ := unsigned?_positive negative m e
        have hdigits : (0 : ℚ) < (shortest .up m e).digits := by exact_mod_cast hpos
        have hn : 0 < n := by
          have hproduct : (0 : ℚ) < n * 10 ^ k := by
            rw [hvalue]
            positivity
          exact_mod_cast pos_of_mul_pos_left hproduct (by positivity)
        rw [plain_finite hx hm, read?_sign (isUnsigned_positive m e) hnumeral,
          toFloat_of_near hx hm hnear hn (by rw [hvalue]; field_simp)]

theorem integral_signed {size : ℕ} (h : 0 < size) (negative : Bool) :
    integral (if negative then -size else size) = String.ofList (sign negative ++ digitsOf size) := by
  cases negative with
  | true => rw [integral, if_pos rfl, decide_eq_true (by omega), Int.natAbs_neg, Int.natAbs_natCast]
  | false =>
      rw [integral, if_neg Bool.false_ne_true, decide_eq_false (by omega), Int.natAbs_natCast]

/-- The size of a whole double is what it holds. -/
theorem whole?_finite {x : Float} {m : ℕ} {e : ℤ} {n : ℤ}
    (hx : Binary.ofFloat x = .finite negative m e) (h : whole? x = some n) :
    ∃ size : ℕ, (size : ℚ) = m * 2 ^ e ∧ n = if negative then -(size : ℤ) else size := by
  have hquotient := quotient_fst m e
  have hdpos := quotient_snd_pos m e
  have hd : ((quotient m e).2 : ℚ) ≠ 0 := by exact_mod_cast hdpos.ne'
  rw [whole?, hx] at h
  dsimp only at h
  split at h
  · next hwhole =>
      obtain ⟨size, hfactor⟩ := Nat.dvd_of_mod_eq_zero hwhole
      rw [hfactor, Nat.mul_div_cancel_left _ hdpos] at h
      rw [hfactor, Nat.cast_mul, mul_comm] at hquotient
      exact ⟨size, mul_right_cancel₀ hd hquotient, (Option.some.inj h).symm⟩
  · cases h

/-- The digits of a whole double are read as the double, up to the sign of a zero. -/
theorem read?_integral {x : Float} {n : ℤ} (h : whole? x = some n) :
    read? (integral n) = some (if x = -0.0 then 0.0 else x) := by
  cases hx : Binary.ofFloat x with
  | nan =>
      rw [whole?, hx] at h
      cases h
  | infinite negative =>
      rw [whole?, hx] at h
      cases h
  | finite negative m e =>
      obtain ⟨size, hsize, rfl⟩ := whole?_finite hx h
      rcases Nat.eq_zero_or_pos m with rfl | hm
      · rw [Nat.cast_zero, zero_mul, Nat.cast_eq_zero] at hsize
        rw [hsize, eq_of_ofFloat_zero hx]
        cases negative <;> decide +kernel
      · have hne : x ≠ -0.0 := by
          rintro rfl
          have hbits : Binary.ofFloat (-0.0) = .finite true 0 (-1074) := by decide
          exact hm.ne (Binary.finite.inj (hbits.symm.trans hx)).2.1
        have hpos : 0 < size := by
          have hproduct : (0 : ℚ) < size := by
            have hm' : (0 : ℚ) < m := by exact_mod_cast hm
            rw [hsize]
            positivity
          exact_mod_cast hproduct
        rw [if_neg hne, integral_signed hpos,
          read?_sign (allDigits_digitsOf size).isUnsigned (unsigned?_digitsOf negative size),
          toFloat_of_near hx hm (Near.self m) hpos (by rw [zpow_zero, mul_one, hsize])]

/-! ## White space -/

theorem isBlank_of_isDigit {c : Char} (h : c.isDigit = true) : Text.isBlank c = false := by
  rw [Char.isDigit, Bool.and_eq_true, decide_eq_true_iff, decide_eq_true_iff] at h
  have hlow : 48 ≤ c.toNat := UInt32.le_iff_toNat_le.mp h.1
  have hhigh : c.toNat ≤ 57 := UInt32.le_iff_toNat_le.mp h.2
  simp only [Text.isBlank, Bool.or_eq_false_iff, Bool.and_eq_false_iff, decide_eq_false_iff_not]
  omega

theorem isBlank_sign_append {text : List Char} (h : IsUnsigned text) :
    ∀ c ∈ sign negative ++ text, Text.isBlank c = false := by
  intro c hc
  rcases List.mem_append.mp hc with hsign | htext
  · cases negative with
    | true =>
        obtain rfl := List.mem_singleton.mp hsign
        decide
    | false => cases hsign
  · rcases h c htext with hdigit | rfl
    · exact isBlank_of_isDigit hdigit
    · decide

theorem isBlank_integral (n : ℤ) : ∀ c ∈ (integral n).toList, Text.isBlank c = false := by
  rw [integral, String.toList_ofList]
  exact isBlank_sign_append (allDigits_digitsOf _).isUnsigned

theorem isBlank_plain (x : Float) : ∀ c ∈ (plain x).toList, Text.isBlank c = false := by
  cases hx : Binary.ofFloat x with
  | nan =>
      rw [plain, Layout.text, hx]
      simp [Text.isBlank]
  | infinite negative =>
      rw [plain, Layout.text, hx, String.toList_ofList]
      cases negative <;> simp [sign, Text.isBlank]
  | finite negative m e =>
      rcases Nat.eq_zero_or_pos m with rfl | hm
      · rw [plain_zero hx, String.toList_ofList]
        exact isBlank_sign_append (allDigits_digitsOf 0).isUnsigned
      · rw [plain_finite hx hm, String.toList_ofList]
        exact isBlank_sign_append (isUnsigned_positive m e)

end Significance.Decimal
