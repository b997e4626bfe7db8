import Significance.Proofs.SharedVariance

/-! # The parts between and within the groups

For one factor the squared deviations from the grand mean are those of the group means and those
within the groups. The statistic compares the two parts, and where nothing is left within the groups
it tells whether there is anything between them. -/

namespace Significance

open Success Exact

theorem sum_sq_sub_eq_zero_iff {ι : Type*} [Fintype ι] {f g : ι → ℝ} :
    ∑ i, (f i - g i) ^ 2 = 0 ↔ ∀ i, f i = g i := by
  have hsquares : ∑ i, (f i - g i) ^ 2 = squares (f - g) := rfl
  rw [hsquares, squares_eq_zero, sub_eq_zero, funext_iff]

/-! ## Means of groups -/

namespace Dataset

/-- The mean of a field over all records. -/
noncomputable def grandMean (data : Dataset Exact) (target : String) : ℝ :=
  (∑ i, data.reals target i) / data.size

variable [Wording]

/-- The mean of a field over the records with the label of a record. -/
noncomputable def groupMean (data : Dataset Exact) (factor target : String)
    (i : Fin data.size) : ℝ :=
  (∑ j with data.level? j factor = data.level? i factor, data.reals target j) /
    (Finset.univ.filter fun j => data.level? j factor = data.level? i factor).card

/-- The squared deviations of the group means from the grand mean, over all records. -/
noncomputable def squaresBetween (data : Dataset Exact) (factor target : String) : ℝ :=
  ∑ i, (data.groupMean factor target i - data.grandMean target) ^ 2

/-- The squared deviations of the values from the means of their groups. -/
noncomputable def squaresWithin (data : Dataset Exact) (factor target : String) : ℝ :=
  ∑ i, (data.reals target i - data.groupMean factor target i) ^ 2

variable (data : Dataset Exact) (factor target : String)

theorem squaresBetween_nonneg : 0 ≤ data.squaresBetween factor target :=
  Finset.sum_nonneg fun _ _ => sq_nonneg _

theorem squaresWithin_nonneg : 0 ≤ data.squaresWithin factor target :=
  Finset.sum_nonneg fun _ _ => sq_nonneg _

theorem groupMean_eq_cellMean :
    data.groupMean factor target =
      cellMean data.level? [factor].toFinset (data.reals target) := by
  funext i
  have hagree : ∀ j, Agree data.level? [factor].toFinset i j ↔
      data.level? j factor = data.level? i factor := by
    intro j
    simp [Agree, eq_comm]
  simp only [groupMean, cellMean, cellSum, hagree, Finset.sum_const, nsmul_eq_mul, mul_one]

/-- The means of the groups sum up to the same as the values. -/
theorem sum_groupMean : ∑ i, data.groupMean factor target i = ∑ i, data.reals target i := by
  have hones : (1 : Fin data.size → ℝ) ∈ dependingOn data.level? [factor].toFinset :=
    const_mem_dependingOn _ 1
  have hsum := dotProduct_cellMean hones (data.reals target)
  rw [groupMean_eq_cellMean]
  simpa [dotProduct] using hsum

/-- The deviations within the groups are orthogonal to those between them. -/
theorem squaresBetween_add_squaresWithin :
    data.squaresBetween factor target + data.squaresWithin factor target =
      ∑ i, (data.reals target i - data.grandMean target) ^ 2 := by
  have hsplit := totalSquares_eq_add data.level? [factor].toFinset (data.reals target)
  rw [← groupMean_eq_cellMean, totalSquares, Fintype.card_fin, add_comm] at hsplit
  exact hsplit.symm

/-- Nothing is between the groups exactly if their means are equal. -/
theorem squaresBetween_eq_zero_iff :
    data.squaresBetween factor target = 0 ↔
      ∀ i j, data.groupMean factor target i = data.groupMean factor target j := by
  rw [squaresBetween, sum_sq_sub_eq_zero_iff]
  constructor
  · intro hgrand i j
    rw [hgrand i, hgrand j]
  · intro hsame i
    have hsize : (data.size : ℝ) ≠ 0 := Nat.cast_ne_zero.mpr i.pos.ne'
    have hsum : data.size * data.groupMean factor target i = ∑ j, data.reals target j := by
      rw [← sum_groupMean data factor target, Finset.sum_congr rfl fun j _ => hsame j i,
        Finset.sum_const, Finset.card_univ, Fintype.card_fin, nsmul_eq_mul]
    rw [grandMean, ← hsum, mul_div_cancel_left₀ _ hsize]

theorem reals_eq_groupMean {data : Dataset Exact} {factor target : String}
    (h : data.squaresWithin factor target = 0) (i : Fin data.size) :
    data.reals target i = data.groupMean factor target i :=
  sum_sq_sub_eq_zero_iff.mp h i

/-- Nothing is left within the groups exactly if the labels determine the values. -/
theorem squaresWithin_eq_zero_iff :
    data.squaresWithin factor target = 0 ↔
      ∀ i j, data.level? j factor = data.level? i factor →
        data.reals target j = data.reals target i := by
  constructor
  · intro hzero i j hlabel
    rw [reals_eq_groupMean hzero i, reals_eq_groupMean hzero j, groupMean, groupMean, hlabel]
  · intro hsame
    rw [squaresWithin, sum_sq_sub_eq_zero_iff]
    intro i
    let group : Finset (Fin data.size) := {j | data.level? j factor = data.level? i factor}
    have hcard : (group.card : ℝ) ≠ 0 :=
      Nat.cast_ne_zero.mpr (Finset.card_pos.mpr ⟨i, by simp [group]⟩).ne'
    have hsum : ∑ j ∈ group, data.reals target j = group.card * data.reals target i := by
      rw [Finset.sum_congr rfl fun j hj => hsame i j (Finset.mem_filter.mp hj).2, Finset.sum_const,
        nsmul_eq_mul]
    rw [groupMean, hsum, mul_div_cancel_left₀ _ hcard]

end Dataset

/-! ## Tails by convention -/

namespace Distribution.Fisher

variable [Wording] (positive? : Exact → Exact → Exact → Option Exact)

theorem above?_undefined (df₁ df₂ : Exact) :
    above? positive? undefined df₁ df₂ = some undefined := by
  rw [above?, isUndefined_undefined]
  rfl

theorem above?_infinity {df₁ df₂ : ℝ} (h₁ : 0 < df₁) (h₂ : 0 < df₂) :
    above? positive? infinity (real df₁) (real df₂) = some (real 0) := by
  have hinfinity : (Scalar.infinity : Exact) ≤ infinity := trivial
  simp [above?, h₁, h₂, hinfinity]

end Distribution.Fisher

namespace Variance

variable [Wording]

/-- Over a residual of zero the statistic only tells whether there is an effect. -/
theorem ratio_zero (between : ℝ) {m k : ℕ} (hm : m ≠ 0) (hk : k ≠ 0) :
    ratio (real between) m ⟨real 0, k⟩ = if 0 < between then infinity else undefined := by
  have hm' : (0 : ℝ) < m := Nat.cast_pos.mpr (Nat.pos_of_ne_zero hm)
  have hk' : (k : ℝ) ≠ 0 := Nat.cast_ne_zero.mpr hk
  simp only [ratio, ofNat_eq, real_div _ hm'.ne', real_div _ hk', zero_div, zero_eq, real_lt,
    lt_irrefl, if_false, div_pos_iff_of_pos_right hm']
  rfl

variable {d : Distribution Exact} {positive? : Exact → Exact → Exact → Option Exact}
  {data : Dataset Exact} {target factor : String} {table : VarianceTable Exact}

/-- Without two levels, or records beyond one for each level, there is no decomposition. -/
theorem oneWay_freedom (h : oneWay d data target factor = .ok table) :
    2 ≤ (data.grouping factor).levels.length ∧ 0 < table.residual.df := by
  simp only [oneWay, bind_eq_ok, check_eq_ok, pure_eq_ok] at h
  obtain ⟨_, -, grouping, hgrouping, ⟨⟩, htestable, hdf, _, -, rfl⟩ := h
  obtain ⟨-, rfl⟩ := Dataset.ofDataset_eq_ok.mp hgrouping
  exact ⟨Factor.ensureTestable_eq_ok.mp htestable, Nat.pos_of_ne_zero hdf⟩

/-- The parts of a decomposition over one factor, and their degrees of freedom. -/
theorem oneWay_squares (h : oneWay d data target factor = .ok table) :
    ∃ row, table.effects = [row] ∧
      row.sumSquares = real (data.squaresBetween factor target) ∧
      table.residual.sumSquares = real (data.squaresWithin factor target) ∧
      2 ≤ data.levelCount factor ∧ row.df + 1 = data.levelCount factor ∧
      0 < table.residual.df ∧ table.residual.df + data.levelCount factor = data.size ∧
      test d ⟨[factor]⟩ row.sumSquares row.df table.residual = .ok row := by
  obtain ⟨htwo, hpos⟩ := oneWay_freedom h
  obtain ⟨row, heffects, -, hgrouping, -, hwithin, hdf, hrow⟩ := oneWay_parts h
  have hlevels := (Dataset.ofDataset_eq_ok.mp hgrouping).1
  have hsize : 0 < data.size := by omega
  rw [hlevels.length_levels] at htwo hdf hrow
  obtain ⟨-, hsum, hrowdf⟩ := test_eq_ok hrow
  rw [← hsum, ← hrowdf] at hrow
  rw [between_groups hlevels hsize, ← Dataset.groupMean_eq_cellMean] at hsum
  rw [sum_spread_groups _ hlevels, ← Dataset.groupMean_eq_cellMean] at hwithin
  refine ⟨row, heffects, ?_, hwithin, htwo, by omega, hpos, by omega, hrow⟩
  rw [hsum, Fintype.card_fin]
  rfl

/-! ## The test of the parts -/

section

variable {term : Term} {residual : Residual Exact} {row : Effect Exact} {between within : ℝ}
  (h : test { d with fisherAbove? := Distribution.Fisher.above? positive? } term row.sumSquares
    row.df residual = .ok row)
  (hdf : 0 < row.df) (hpos : 0 < residual.df) (hbetween : row.sumSquares = real between)
  (hwithin : residual.sumSquares = real within)

include h hdf hpos hbetween hwithin

theorem f_eq_zero_iff (hleft : 0 < within) : row.f = real 0 ↔ between = 0 := by
  obtain ⟨sumSquares, df⟩ := residual
  obtain rfl : sumSquares = real within := hwithin
  have hdf' : (row.df : ℝ) ≠ 0 := Nat.cast_ne_zero.mpr hdf.ne'
  have herror : within / df ≠ 0 := (div_pos hleft (Nat.cast_pos.mpr hpos)).ne'
  rw [test_f hdf.ne' hpos.ne' h, hbetween, ratio_real _ hleft hdf.ne' hpos, real_inj,
    div_eq_zero_iff, or_iff_left herror, div_eq_zero_iff, or_iff_left hdf']

theorem test_of_nothing_within (hnothing : within = 0) :
    (0 < between → row.f = infinity ∧ row.p = real 0) ∧
    (¬0 < between → row.f = undefined ∧ row.p = undefined) := by
  obtain ⟨sumSquares, df⟩ := residual
  obtain rfl : sumSquares = real within := hwithin
  subst hnothing
  have hf := test_f hdf.ne' hpos.ne' h
  have hp := test_p hdf.ne' hpos.ne' h
  rw [hbetween, ratio_zero between hdf.ne' hpos.ne'] at hf
  constructor
  · intro hsome
    rw [if_pos hsome] at hf
    rw [hf] at hp
    have htail := Distribution.Fisher.above?_infinity positive? (Nat.cast_pos.mpr hdf)
      (Nat.cast_pos.mpr hpos)
    exact ⟨hf, Option.some_injective _ (hp.symm.trans htail)⟩
  · intro hnone
    rw [if_neg hnone] at hf
    rw [hf] at hp
    have htail := Distribution.Fisher.above?_undefined positive? (Scalar.ofNat row.df)
      (Scalar.ofNat df)
    exact ⟨hf, Option.some_injective _ (hp.symm.trans htail)⟩

end

/-- A decomposition over one factor parts the squared deviations from the grand mean into those of
the group means and those within the groups. Its degrees of freedom are what the numbers of groups
and of records leave. If anything is left within the groups, the statistic is zero exactly for equal
group means. Otherwise it is infinite with the p-value zero exactly for different ones, and
undefined for equal ones. -/
theorem oneWay_decomposition
    (h : oneWay { d with fisherAbove? := Distribution.Fisher.above? positive? } data target factor =
      .ok table) :
    data.numericColumn target = .ok (ofVector (data.reals target)) ∧ data.HasLevels factor ∧
    ∃ row, table.effects = [row] ∧
      row.sumSquares = real (data.squaresBetween factor target) ∧
      table.residual.sumSquares = real (data.squaresWithin factor target) ∧
      0 ≤ data.squaresBetween factor target ∧ 0 ≤ data.squaresWithin factor target ∧
      data.squaresBetween factor target + data.squaresWithin factor target =
        ∑ i, (data.reals target i - data.grandMean target) ^ 2 ∧
      2 ≤ data.levelCount factor ∧ row.df + 1 = data.levelCount factor ∧
      0 < table.residual.df ∧ table.residual.df + data.levelCount factor = data.size ∧
      (0 < data.squaresWithin factor target → (row.f = real 0 ↔
        ∀ i j, data.groupMean factor target i = data.groupMean factor target j)) ∧
      (data.squaresWithin factor target = 0 →
        (row.f = infinity ∧ row.p = real 0 ↔
          ∃ i j, data.groupMean factor target i ≠ data.groupMean factor target j) ∧
        ((∀ i j, data.groupMean factor target i = data.groupMean factor target j) →
          row.f = undefined ∧ row.p = undefined ∧ row.isSignificant = false)) := by
  obtain ⟨_, -, hvalues, hgrouping, -⟩ := oneWay_parts h
  obtain ⟨row, heffects, hbetween, hwithin, htwo, hrowdf, hpos, hsize, hrow⟩ := oneWay_squares h
  have hdf : 0 < row.df := by omega
  have hequal := data.squaresBetween_eq_zero_iff factor target
  have hnonneg := data.squaresBetween_nonneg factor target
  refine ⟨hvalues, (Dataset.ofDataset_eq_ok.mp hgrouping).1, row, heffects, hbetween, hwithin,
    hnonneg, data.squaresWithin_nonneg factor target,
    data.squaresBetween_add_squaresWithin factor target, htwo, hrowdf, hpos, hsize, ?_, ?_⟩
  · intro hleft
    rw [f_eq_zero_iff hrow hdf hpos hbetween hwithin hleft, hequal]
  · intro hnothing
    obtain ⟨hsome, hnone⟩ := test_of_nothing_within hrow hdf hpos hbetween hwithin hnothing
    -- The case distinction of the test is the one on the means.
    have hdiffer : 0 < data.squaresBetween factor target ↔
        ∃ i j, data.groupMean factor target i ≠ data.groupMean factor target j := by
      rw [hnonneg.lt_iff_ne', ne_eq, hequal]
      push Not
      rfl
    constructor
    · rw [← hdiffer]
      constructor
      · rintro ⟨hf, -⟩
        by_contra hsame
        rw [(hnone hsame).1] at hf
        cases hf
      · exact hsome
    · intro hsame
      rw [← hequal] at hsame
      obtain ⟨hf, hp⟩ := hnone hsame.not_gt
      refine ⟨hf, hp, ?_⟩
      rw [Effect.isSignificant, hp]
      exact decide_eq_false id

/-- With all tails there is a decomposition over every field of two labels or more, if some label is
that of two records. -/
theorem exists_oneWay (htails : d.HasTails) (hreals : data.HasReals target)
    (hlevels : data.HasLevels factor) (htwo : 2 ≤ data.levelCount factor)
    (hmore : data.levelCount factor < data.size) :
    ∃ table, oneWay d data target factor = .ok table := by
  have hvalues := Dataset.numericColumn_eq_ok.mpr ⟨hreals, rfl⟩
  have hgrouping := Dataset.ofDataset_eq_ok.mpr ⟨hlevels, rfl⟩
  have htestable : (data.grouping factor).ensureTestable (α := Exact) = .ok () := by
    rwa [Factor.ensureTestable_eq_ok, hlevels.length_levels]
  have hdf : data.size - 1 - (data.levelCount factor - 1) ≠ 0 := by omega
  obtain ⟨row, hrow⟩ := exists_test htails ⟨[factor]⟩
    (between (Descriptive.mean (ofVector (data.reals target)))
      ((data.grouping factor).groups (ofVector (data.reals target))))
    (data.levelCount factor - 1)
    ⟨within ((data.grouping factor).groups (ofVector (data.reals target))),
      data.size - 1 - (data.levelCount factor - 1)⟩
  simp only [oneWay, hvalues, hgrouping, htestable, ok_bind, Factor.length_groups,
    hlevels.length_levels, length_ofVector, if_neg hdf, hrow]
  exact ⟨_, rfl⟩

end Variance

/-! ## Nothing left within two groups -/

namespace Sample

/-- Exact tails of positive statistics, and those of all others by convention. -/
noncomputable def tails : Distribution Exact :=
  { Distribution.exactFisher with
    fisherAbove? := Distribution.Fisher.above? Distribution.exactFisher.fisherAbove? }

theorem hasTails_tails : tails.HasTails := by
  intro f m n _ _
  change (Distribution.Fisher.above? _ f _ _).isSome
  unfold Distribution.Fisher.above?
  split_ifs
  · rfl
  · rfl
  · rfl
  · rw [Option.isSome_map]
    cases f <;> rfl

def flat : Dataset Exact :=
  ⟨[record "s" "u" 1, record "s" "v" 1, record "t" "u" 2, record "t" "v" 2]⟩

theorem level_flat (i : Fin 4) :
    flat.level? (i : Fin flat.size) "a" = if i.val < 2 then some "s" else some "t" := by
  fin_cases i <;> rfl

theorem reals_flat (i : Fin 4) :
    flat.reals "y" (i : Fin flat.size) = ((if i.val < 2 then 1 else 2 : ℤ) : ℝ) := by
  fin_cases i <;> rfl

theorem squaresWithin_flat : flat.squaresWithin "a" "y" = 0 := by
  rw [flat.squaresWithin_eq_zero_iff]
  have hvalue : ∀ i j : Fin 4, (if j.val < 2 then some "s" else some "t") =
      (if i.val < 2 then some "s" else some "t") →
      (if j.val < 2 then (1 : ℤ) else 2) = if i.val < 2 then 1 else 2 := by
    decide
  intro i j hlabel
  rw [level_flat i, level_flat j] at hlabel
  rw [reals_flat i, reals_flat j, hvalue i j hlabel]

theorem groupMean_flat (i : Fin 4) :
    flat.groupMean "a" "y" (i : Fin flat.size) = ((if i.val < 2 then 1 else 2 : ℤ) : ℝ) :=
  (Dataset.reals_eq_groupMean squaresWithin_flat i).symm.trans (reals_flat i)

theorem exists_groupMean_ne : ∃ i j, flat.groupMean "a" "y" i ≠ flat.groupMean "a" "y" j := by
  refine ⟨(0 : Fin 4), (2 : Fin 4), ?_⟩
  intro heq
  have hvalues := (groupMean_flat 0).symm.trans (heq.trans (groupMean_flat 2))
  norm_num at hvalues

theorem exists_flat : ∃ table, Variance.oneWay tails flat "y" "a" = .ok table := by
  have hcount : flat.levelCount "a" = 2 := by
    have himage : (Finset.univ.image fun i : Fin 4 => flat.level? (i : Fin flat.size) "a") =
        {some "s", some "t"} := by
      simp only [level_flat]
      decide
    exact congrArg Finset.card himage
  apply Variance.exists_oneWay hasTails_tails
  · intro i
    change Fin 4 at i
    fin_cases i <;> exact ⟨_, rfl⟩
  · intro i
    change Fin 4 at i
    fin_cases i <;> rfl
  · exact hcount.ge
  · rw [hcount]
    decide

end Sample

namespace Variance

open Sample

theorem oneWay_decomposition_samples :
    (∃ table row, oneWay tails Sample.data "y" "a" = .ok table ∧ table.effects = [row] ∧
      row.df = 1 ∧ table.residual.df = 6 ∧
      Sample.data.squaresBetween "a" "y" + Sample.data.squaresWithin "a" "y" =
        ∑ i, (Sample.data.reals "y" i - Sample.data.grandMean "y") ^ 2) ∧
    ∃ table row, oneWay tails flat "y" "a" = .ok table ∧ table.effects = [row] ∧
      flat.squaresWithin "a" "y" = 0 ∧ row.f = infinity ∧ row.p = real 0 := by
  constructor
  · have hcount := levelCount "a" (by simp)
    obtain ⟨table, htable⟩ := exists_oneWay hasTails_tails (hasReals "y" (by simp))
      (hasLevels "a" (by simp)) hcount.ge (by rw [hcount]; decide)
    obtain ⟨-, -, row, heffects, -, -, -, -, hsum, -, hdf, -, hsize, -⟩ :=
      oneWay_decomposition htable
    rw [hcount] at hdf hsize
    exact ⟨table, row, htable, heffects, Nat.succ.inj hdf, Nat.add_right_cancel hsize, hsum⟩
  · obtain ⟨table, htable⟩ := exists_flat
    obtain ⟨-, -, row, heffects, -, -, -, -, -, -, -, -, -, -, hnothing⟩ :=
      oneWay_decomposition htable
    obtain ⟨hf, hp⟩ := (hnothing squaresWithin_flat).1.mpr exists_groupMean_ne
    exact ⟨table, row, htable, heffects, squaresWithin_flat, hf, hp⟩

end Variance

end Significance
