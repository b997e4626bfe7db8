import Mathlib.Probability.CDF
import Mathlib.Probability.Distributions.Gaussian.Real
import Significance.Proofs.RangeProbability

/-! # The probability of a studentized range

The probabilities of ranges are summed over the nodes of the pieces of the scale. For two values and
two degrees of freedom at least the sum is a probability, all its operations stay within the real
numbers, and only arguments out of place have no probability. -/

namespace Significance.Distribution.StudentizedRange

open Exact

/-! ## The parts of the sum -/

section

variable {α : Type} [Scalar α] (cdf : α → α) (q k df factor step : α)

/-- The scale at a node of the piece `i`, counted from one. -/
def scaleAt (i : ℕ) (node : Node α) : α :=
  Scalar.ofNat (2 * i - 1) * step + node.place * step

/-- The logarithm of the density of the scale. -/
def logDensity (u : α) : α :=
  factor + (df * 0.5 - 1.0) * Scalar.log u - u * (df * 0.25)

/-- The range that belongs to the scale. -/
def rangeAt (u : α) : α :=
  q * Scalar.sqrt (u * 0.5)

theorem scaleMass_eq (i : ℕ) :
    scaleMass cdf q k df factor step (Scalar.ofNat (2 * i - 1) * step) =
      sixteen.foldl (fun sum node =>
        if -30.0 ≤ logDensity df factor (scaleAt step i node) then
          sum + rangeBelow cdf (rangeAt q (scaleAt step i node)) k * node.weight *
            Scalar.exp (logDensity df factor (scaleAt step i node))
        else sum) 0.0 := rfl

/-- The sum over all pieces, which is capped at one to give a probability. -/
def scaleTotal (logGamma : α → α) : α :=
  scaleMasses cdf q k df (logFactor logGamma df) (scaleStep df) 50 1 0.0

end

variable [Wording] {cdf logGamma : Exact → Exact} {Φ : ℝ → ℝ}

/-- A studentized range has no probability exactly where the arguments are out of place. -/
theorem isUndefined_below (cdf logGamma : Exact → Exact) (q k df : Exact) :
    Scalar.isUndefined (below cdf logGamma q k df) = true ↔
      Scalar.isUndefined q = true ∨ k < 2.0 ∨ df < 2.0 := by
  rw [below]
  split_ifs with hout
  · simp only [hout, iff_true]
    exact isUndefined_undefined
  all_goals simp only [hout, iff_false, Bool.not_eq_true]
  · exact isUndefined_real _
  · exact isUndefined_real _
  · exact isUndefined_rangeBelow cdf q k
  · exact isUndefined_minimum_one _

/-! ## Real arguments -/

/-- The function has a real value at every positive argument. -/
def RealOnPositive (f : Exact → Exact) : Prop :=
  ∀ x, 0 < x → ∃ y, f (real x) = real y

theorem scaleStep_pos (df : Exact) : Positive (scaleStep df) := by
  unfold scaleStep
  split_ifs
  all_goals exact ⟨_, by norm_num, rfl⟩

section

variable {step : Exact} (hstep : Positive step) {i : ℕ} (hi : 1 ≤ i) {a b : Node Exact}

include hstep

theorem scaleAt_lt (ha : a.Inside) (hb : b.Inside) (hlt : a.place < b.place) :
    scaleAt step i a < scaleAt step i b := by
  obtain ⟨s, hs, rfl⟩ := hstep
  obtain ⟨t, _, -, -, rfl⟩ := ha
  obtain ⟨u, _, -, -, rfl⟩ := hb
  have hmul : t * s < u * s := mul_lt_mul_of_pos_right hlt hs
  have hadd : ((2 * i - 1 : ℕ) : ℝ) * s + t * s < ((2 * i - 1 : ℕ) : ℝ) * s + u * s := by linarith
  exact hadd

/-- Every node of a piece of the scale is used once. -/
theorem scaleAt_nodup (i : ℕ) : (sixteen.map (scaleAt step i)).Nodup := by
  rw [List.Nodup, List.pairwise_map]
  apply sixteen_distinct.imp_of_mem
  intro a b ha hb hne
  rcases hne with hlt | hlt
  · exact ne_of_lt (scaleAt_lt hstep (inside_of_mem_sixteen ha) (inside_of_mem_sixteen hb) hlt)
  · exact (ne_of_lt
      (scaleAt_lt hstep (inside_of_mem_sixteen hb) (inside_of_mem_sixteen ha) hlt)).symm

include hi

/-- The first piece starts at zero, and a node is never at the end of its piece. -/
theorem scaleAt_pos (ha : a.Inside) : Positive (scaleAt step i a) := by
  obtain ⟨s, hs, rfl⟩ := hstep
  obtain ⟨t, _, ht, -, rfl⟩ := ha
  -- The scale is `2 * i - 1 + t` steps, with a place `t` above `-1`.
  have hone : (1 : ℝ) ≤ (2 * i - 1 : ℕ) := by
    rw [Nat.one_le_cast]
    omega
  have hpos : 0 < ((2 * i - 1 : ℕ) + t) * s := mul_pos (by linarith [ht.1]) hs
  refine ⟨((2 * i - 1 : ℕ) + t) * s, hpos, ?_⟩
  rw [scaleAt, ofNat_eq, real_mul, real_mul, real_add, add_mul]

end

section

variable {q k df : ℝ}

theorem exists_logFactor (hgamma : RealOnPositive logGamma) (hdf : 0 < df) :
    ∃ factor : ℝ, logFactor logGamma (real df) = real factor := by
  obtain ⟨step, hstep, heq⟩ := scaleStep_pos (real df)
  obtain ⟨y, hy⟩ := hgamma (df * 0.5) (by linarith)
  refine ⟨df * 0.5 * Real.log df - df * 0.693147180559945309417232121458 - y + Real.log step, ?_⟩
  simp only [logFactor, logTwo, ofScientific_eq, real_mul, log_real hdf, hy, heq, log_real hstep,
    real_sub, real_add]

theorem exists_logDensity (df factor : ℝ) {u : Exact} (hu : Positive u) :
    ∃ y : ℝ, logDensity (real df) (real factor) u = real y := by
  obtain ⟨r, hr, rfl⟩ := hu
  refine ⟨factor + (df * 0.5 - 1.0) * Real.log r - r * (df * 0.25), ?_⟩
  simp only [logDensity, ofScientific_eq, real_mul, real_sub, log_real hr, real_add]

theorem half_pos {u : Exact} (hu : Positive u) : Positive (u * 0.5) := by
  obtain ⟨r, hr, rfl⟩ := hu
  exact ⟨r * 0.5, by linarith, rfl⟩

theorem exists_rangeAt (hq : 0 < q) {u : Exact} (hu : Positive u) :
    ∃ w : ℝ, 0 < w ∧ rangeAt (real q) u = real w := by
  obtain ⟨r, hr, heq⟩ := half_pos hu
  refine ⟨q * √r, by positivity, ?_⟩
  rw [rangeAt, heq, sqrt_real hr.le, real_mul]

variable (h : IsCentred cdf Φ) (hq : 0 < q) (hk : 0 ≤ k) {step : Exact} (hstep : Positive step)

include h hq hk hstep

theorem scaleMass_nonneg (df factor : ℝ) {i : ℕ} (hi : 1 ≤ i) :
    Nonnegative (scaleMass cdf (real q) (real k) (real df) (real factor) step
      (Scalar.ofNat (2 * i - 1) * step)) := by
  rw [scaleMass_eq]
  apply List.foldlRecOn
  · rw [zero_eq, nonnegative_real]
  · intro sum hsum node hnode
    have hinside := inside_of_mem_sixteen hnode
    have hscale := scaleAt_pos hstep hi hinside
    obtain ⟨w, hw, hrange⟩ := exists_rangeAt hq hscale
    obtain ⟨y, hy⟩ := exists_logDensity df factor hscale
    obtain ⟨_, s, -, hs, rfl⟩ := hinside
    have hweight : Nonnegative (real s) := nonnegative_real.mpr hs.le
    have hexp : Nonnegative (Scalar.exp (real y)) := nonnegative_real.mpr (Real.exp_pos y).le
    rw [hrange, hy]
    split_ifs
    · exact hsum.add (((rangeBelow_isProbability h hw hk).nonnegative.mul hweight).mul hexp)
    · exact hsum

/-- Every piece adds a number that is not negative. -/
theorem scaleMasses_nonneg (df factor : ℝ) (fuel : ℕ) {i : ℕ} (hi : 1 ≤ i) {sum : Exact}
    (hsum : Nonnegative sum) :
    Nonnegative (scaleMasses cdf (real q) (real k) (real df) (real factor) step fuel i sum) := by
  -- The sum stays as it is where the loop ends early, and otherwise grows by one more piece.
  induction fuel generalizing i sum with
  | zero => exact hsum
  | succ fuel ih =>
      rw [scaleMasses]
      split_ifs
      · exact hsum
      · exact ih (by omega) (hsum.add (scaleMass_nonneg h hq hk hstep df factor hi))

end

theorem scaleTotal_nonneg (h : IsCentred cdf Φ) (hgamma : RealOnPositive logGamma) {q k df : ℝ}
    (hq : 0 < q) (hk : 0 ≤ k) (hdf : 0 < df) :
    Nonnegative (scaleTotal cdf (real q) (real k) (real df) logGamma) := by
  obtain ⟨factor, hfactor⟩ := exists_logFactor hgamma hdf
  rw [scaleTotal, hfactor]
  apply scaleMasses_nonneg h hq hk (scaleStep_pos _) df factor 50 le_rfl
  rw [zero_eq, nonnegative_real]

theorem admitted (q : ℝ) {k df : ℝ} (hk : 2 ≤ k) (hdf : 2 ≤ df) :
    ¬(Scalar.isUndefined (real q) = true ∨ real k < 2.0 ∨ real df < 2.0) := by
  rw [isUndefined_real, two_eq, real_lt, real_lt]
  simp [hk, hdf]

/-- For a range above zero the probability is the sum, or that of the range itself where the scale
counts as known. -/
theorem below_of_pos (cdf logGamma : Exact → Exact) {q k df : ℝ} (hq : 0 < q) (hk : 2 ≤ k)
    (hdf : 2 ≤ df) :
    below cdf logGamma (real q) (real k) (real df) =
      if 25000.0 < real df then rangeBelow cdf (real q) (real k)
      else Scalar.minimum (scaleTotal cdf (real q) (real k) (real df) logGamma) 1.0 := by
  have hpos : ¬real q ≤ 0.0 := by
    rw [zero_eq, real_le]
    exact not_le.mpr hq
  rw [below, if_neg (admitted q hk hdf), if_neg hpos, if_neg (by simp), scaleTotal]

theorem below_isProbability (h : IsCentred cdf Φ) (hgamma : RealOnPositive logGamma) (q : ℝ)
    {k df : ℝ} (hk : 2 ≤ k) (hdf : 2 ≤ df) :
    IsProbability (below cdf logGamma (real q) (real k) (real df)) := by
  rcases le_or_gt q 0 with hzero | hpos
  · have hle : real q ≤ 0.0 := by
      rw [zero_eq, real_le]
      exact hzero
    rw [below, if_neg (admitted q hk hdf), if_pos hle]
    simp
  · rw [below_of_pos cdf logGamma hpos hk hdf]
    split_ifs
    · exact rangeBelow_isProbability h hpos (by linarith)
    · exact (scaleTotal_nonneg h hgamma hpos (by linarith) (by linarith)).minimum_one

/-- The sum for the probability of a studentized range is sound: the arguments of its logarithms and
square roots are positive, the sums for the ranges within it are sound, and no node of a piece is
used twice. The first equations say what is summed up. -/
structure SoundScale (cdf logGamma : Exact → Exact) (q k df : Exact) : Prop where
  below_eq : below cdf logGamma q k df =
    if 25000.0 < df then rangeBelow cdf q k
    else Scalar.minimum (scaleTotal cdf q k df logGamma) 1.0
  mass_eq : ∀ (factor : Exact) (i : ℕ),
    scaleMass cdf q k df factor (scaleStep df) (Scalar.ofNat (2 * i - 1) * scaleStep df) =
      sixteen.foldl (fun sum node =>
        if -30.0 ≤ logDensity df factor (scaleAt (scaleStep df) i node) then
          sum + rangeBelow cdf (rangeAt q (scaleAt (scaleStep df) i node)) k * node.weight *
            Scalar.exp (logDensity df factor (scaleAt (scaleStep df) i node))
        else sum) 0.0
  freedom : Positive df
  step : Positive (scaleStep df)
  scale : ∀ i, 1 ≤ i → ∀ node ∈ sixteen, Positive (scaleAt (scaleStep df) i node)
  root : ∀ i, 1 ≤ i → ∀ node ∈ sixteen, Positive (scaleAt (scaleStep df) i node * 0.5)
  range : ∀ i, 1 ≤ i → ∀ node ∈ sixteen,
    SoundRange cdf (rangeAt q (scaleAt (scaleStep df) i node)) k
  distinct : ∀ i, (sixteen.map (scaleAt (scaleStep df) i)).Nodup
  total : Nonnegative (scaleTotal cdf q k df logGamma)

theorem soundScale (h : IsCentred cdf Φ) (hgamma : RealOnPositive logGamma) {q k df : ℝ}
    (hq : 0 < q) (hk : 2 ≤ k) (hdf : 2 ≤ df) :
    SoundScale cdf logGamma (real q) (real k) (real df) := by
  have hstep := scaleStep_pos (real df)
  have hscale : ∀ i, 1 ≤ i → ∀ node ∈ sixteen,
      Positive (scaleAt (scaleStep (real df)) i node) := fun i hi node hnode =>
    scaleAt_pos hstep hi (inside_of_mem_sixteen hnode)
  constructor
  · exact below_of_pos cdf logGamma hq hk hdf
  · exact fun factor i => scaleMass_eq cdf _ _ _ factor _ i
  · exact positive_real.mpr (by linarith)
  · exact hstep
  · exact hscale
  · exact fun i hi node hnode => half_pos (hscale i hi node hnode)
  · intro i hi node hnode
    obtain ⟨w, hw, hrange⟩ := exists_rangeAt hq (hscale i hi node hnode)
    rw [hrange]
    exact soundRange h hw hk
  · exact scaleAt_nodup hstep
  · exact scaleTotal_nonneg h hgamma hq (by linarith) (by linarith)

/-- For two values and two degrees of freedom at least, the probabilities of ranges and of
studentized ranges are probabilities and their sums are sound. Only arguments out of place have no
probability. Both rules give each node the weight that stands beside its place in their tables. -/
theorem below_sound (h : IsCentred cdf Φ) (hgamma : RealOnPositive logGamma) {k df : ℝ}
    (hk : 2 ≤ k) (hdf : 2 ≤ df) :
    (∀ q : ℝ, IsProbability (below cdf logGamma (real q) (real k) (real df))) ∧
    (∀ w : ℝ, 0 < w → SoundRange cdf (real w) (real k)) ∧
    (∀ q : ℝ, 0 < q → SoundScale cdf logGamma (real q) (real k) (real df)) ∧
    (∀ q k df : Exact, Scalar.isUndefined (below cdf logGamma q k df) = true ↔
      Scalar.isUndefined q = true ∨ k < 2.0 ∨ df < 2.0) ∧
    (∀ j < 12, (twelve : List (Node Exact))[j]? =
      if j < 6 then halfOfTwelve[j]?.map Node.mirrored else halfOfTwelve[11 - j]?) ∧
    ∀ j < 16, (sixteen : List (Node Exact))[j]? =
      if j < 8 then halfOfSixteen[j]?.map Node.mirrored else halfOfSixteen[j - 8]? := by
  refine ⟨?_, ?_, ?_, ?_, ?_, ?_⟩
  · exact fun q => below_isProbability h hgamma q hk hdf
  · exact fun w hw => soundRange h hw hk
  · exact fun q hq => soundScale h hgamma hq hk hdf
  · exact isUndefined_below cdf logGamma
  · exact fun j hj => getElem?_twelve hj
  · exact fun j _ => getElem?_sixteen j

end Significance.Distribution.StudentizedRange

/-! ## The normal distribution -/

namespace Significance.Sample

open Exact MeasureTheory ProbabilityTheory

theorem strictMono_cdf_gaussianReal : StrictMono (cdf (gaussianReal 0 1)) := by
  intro a b hab
  have hsplit : (gaussianReal 0 1).real (Set.Iic b) =
      (gaussianReal 0 1).real (Set.Iic a) + (gaussianReal 0 1).real (Set.Ioc a b) := by
    rw [← Set.Iic_union_Ioc_eq_Iic hab.le]
    exact measureReal_union (Set.Iic_disjoint_Ioc le_rfl) measurableSet_Ioc
  have hpos : 0 < (gaussianReal 0 1).real (Set.Ioc a b) := by
    rw [measureReal_def, ENNReal.toReal_pos_iff]
    refine ⟨pos_iff_ne_zero.mpr fun hzero => ?_, measure_lt_top _ _⟩
    have hvolume := gaussianReal_absolutelyContinuous' 0 one_ne_zero hzero
    rw [Real.volume_Ioc, ENNReal.ofReal_eq_zero] at hvolume
    linarith
  rw [cdf_eq_real, cdf_eq_real, hsplit]
  linarith

theorem cdf_gaussianReal_zero : cdf (gaussianReal 0 1) 0 = 1 / 2 := by
  have hmap : (gaussianReal 0 1).map (fun x => -x) = gaussianReal 0 1 := by
    rw [gaussianReal_map_neg, neg_zero]
  have hmirror : (gaussianReal 0 1).real (Set.Iic 0) = (gaussianReal 0 1).real (Set.Ici 0) := by
    nth_rewrite 1 [← hmap]
    rw [map_measureReal_apply measurable_neg measurableSet_Iic]
    simp
  have hend : (gaussianReal 0 1).real (Set.Ioi 0) = (gaussianReal 0 1).real (Set.Ici 0) := by
    have := nullSingletonClass_gaussianReal (μ := 0) (v := 1) one_ne_zero
    exact measureReal_congr Ioi_ae_eq_Ici
  have hwhole := probReal_add_probReal_compl (μ := gaussianReal 0 1) (s := Set.Iic (0 : ℝ))
    measurableSet_Iic
  rw [Set.compl_Iic, hend, ← hmirror] at hwhole
  rw [cdf_eq_real]
  linarith

/-- The distribution function of the standard normal distribution. -/
noncomputable def normal : Exact → Exact
  | real x => real (cdf (gaussianReal 0 1) x)
  | infinity => real 1
  | negInfinity => real 0
  | undefined => undefined

theorem isCentred_normal :
    Distribution.StudentizedRange.IsCentred normal (cdf (gaussianReal 0 1)) where
  real_eq _ := rfl
  strictMono := strictMono_cdf_gaussianReal
  zero := cdf_gaussianReal_zero

/-- The logarithm of the gamma function. -/
noncomputable def logGamma : Exact → Exact
  | real x => Scalar.log (real (Real.Gamma x))
  | x => x

theorem realOnPositive_logGamma : Distribution.StudentizedRange.RealOnPositive logGamma :=
  fun x hx => ⟨Real.log (Real.Gamma x), log_real (Real.Gamma_pos_of_pos hx)⟩

end Significance.Sample

namespace Significance.Distribution.StudentizedRange

open Exact Sample

/-- The range of three means over an estimate of their scale with ten degrees of freedom. -/
theorem below_sound_normal :
    IsProbability (below normal logGamma (real 3.5) (real 3) (real 10)) ∧
    SoundRange normal (real 3.5) (real 3) ∧
    SoundScale normal logGamma (real 3.5) (real 3) (real 10) := by
  obtain ⟨hbelow, hrange, hscale, -⟩ :=
    below_sound isCentred_normal realOnPositive_logGamma (by norm_num : (2 : ℝ) ≤ 3)
      (by norm_num : (2 : ℝ) ≤ 10)
  exact ⟨hbelow 3.5, hrange 3.5 (by norm_num), hscale 3.5 (by norm_num)⟩

end Significance.Distribution.StudentizedRange
