import Significance.Proofs.MainEffects

/-! # One variance within the groups

The table of one factor and the comparisons of its levels find the variance within the groups apart
from each other. Both find the squared deviations of the records from the means of their levels, for
each record more than there are levels. -/

namespace Significance

open Success Exact Significance.Descriptive

/-! ## The records of all groups -/

namespace Factor

variable {factor : Factor} {n : ℕ}

theorem Coded.sum_groups (h : factor.Coded n) (y : Fin n → ℝ) (f : ℝ → ℝ) :
    ((factor.groups (List.ofFn y)).map fun group => (group.map f).sum).sum = ∑ i, f (y i) := by
  rw [groups_eq_map_range, List.map_map, ← h.sum_levels]
  congr 1
  exact List.map_congr_left fun c _ => h.sum_group y f c

/-- Every record is in one group. -/
theorem Coded.length_flatten_groups (h : factor.Coded n) (y : Fin n → ℝ) :
    (factor.groups (List.ofFn y)).flatten.length = n := by
  have hsum := h.sum_groups y fun _ => 1
  simp only [List.map_const', List.sum_replicate, nsmul_eq_mul, mul_one, Finset.sum_const,
    Finset.card_univ, Fintype.card_fin] at hsum
  rw [List.length_flatten, ← Nat.cast_inj (R := ℝ), Nat.cast_list_sum, List.map_map]
  exact hsum

end Factor

/-! ## Two groups -/

/-- Two means are as far from their common mean as they are from each other. -/
theorem Descriptive.between_two {xs ys : List ℝ} (hxs : xs ≠ []) (hys : ys ≠ []) :
    xs.length * (average xs - (xs.sum + ys.sum) / (xs.length + ys.length)) ^ 2 +
        ys.length * (average ys - (xs.sum + ys.sum) / (xs.length + ys.length)) ^ 2 =
      (average ys - average xs) ^ 2 / (1 / xs.length + 1 / ys.length) := by
  have hm : (0 : ℝ) < xs.length := Nat.cast_pos.mpr (List.length_pos_of_ne_nil hxs)
  have hn : (0 : ℝ) < ys.length := Nat.cast_pos.mpr (List.length_pos_of_ne_nil hys)
  rw [average, average]
  field_simp
  ring

theorem TukeyTest.zip_sizes_means {α : Type} [Scalar α] (factor : Factor) (values : List α) :
    ((summaries factor values).map LevelSummary.size).zip
        ((summaries factor values).map LevelSummary.mean) =
      (factor.groups values).map fun group => (group.length, mean group) := by
  have hlength := factor.length_groups values
  conv_rhs => rw [← List.map_snd_zip hlength.le]
  rw [List.zip_map', summaries, List.map_map, List.map_map]
  rfl

section

variable [Wording] {d : Distribution Exact}

theorem Variance.ratio_real (between : ℝ) {within : ℝ} (hwithin : 0 < within) {m k : ℕ} (hm : m ≠ 0)
    (hk : 0 < k) :
    ratio (real between) m ⟨real within, k⟩ = real (between / m / (within / k)) := by
  have hm' : (m : ℝ) ≠ 0 := Nat.cast_ne_zero.mpr hm
  have hk' : (0 : ℝ) < k := Nat.cast_pos.mpr hk
  have herror : 0 < within / k := div_pos hwithin hk'
  simp only [ratio, ofNat_eq, real_div _ hm', real_div _ hk'.ne', zero_eq, real_lt, if_pos herror,
    real_div _ herror.ne']

theorem Variance.between_eq_total (centre : Exact) (groups : List (List Exact)) :
    between centre groups = Scalar.total (groups.map fun group =>
      Scalar.ofNat group.length * Scalar.square (mean group - centre)) := by
  have hstart : (-0.0 : Exact) = 0.0 := by simp
  rw [between, Scalar.total, List.foldl_map, hstart]

namespace TukeyTest

variable {factor : Factor} {n : ℕ} {y : Fin n → ℝ} {alpha : Exact} {test : TukeyTest Exact}

/-- A completed test has the variance of its groups, which is positive. -/
theorem variance_of_run (hcoded : factor.Coded n)
    (h : run d factor (ofVector y) alpha = .ok test) :
    test.df = n - factor.levels.length ∧ 0 < test.df ∧
      0 < ((factor.groups (List.ofFn y)).map spread).sum ∧
      test.variance = real (((factor.groups (List.ofFn y)).map spread).sum / test.df) := by
  obtain ⟨hfault, critical, rfl⟩ := eq_of_run_eq_ok h
  obtain ⟨-, -, -, -, hdf, hpos, -⟩ := fault?_eq_none.mp hfault
  dsimp only
  rw [ofVector_eq_map, Factor.groups_map, pooledVariance_real, hcoded.length_flatten_groups,
    Factor.length_groups] at hdf hpos ⊢
  by_cases hle : n ≤ factor.levels.length
  · rw [if_pos hle] at hdf
    omega
  · rw [if_neg hle] at hpos ⊢
    have hleft : 0 < n - factor.levels.length := by omega
    dsimp only at hpos ⊢
    rw [zero_eq, real_lt, div_pos_iff_of_pos_right (Nat.cast_pos.mpr hleft)] at hpos
    exact ⟨rfl, hleft, hpos, rfl⟩

/-- Every record is counted in one size, and the means of the levels have the part between them. -/
theorem between_of_run (hcoded : factor.Coded n)
    (h : run d factor (ofVector y) alpha = .ok test) (centre : Exact) :
    test.sizes.sum = n ∧
      Scalar.total ((test.sizes.zip test.means).map fun (size, mean) =>
        Scalar.ofNat size * Scalar.square (mean - centre)) =
          Variance.between centre (factor.groups (ofVector y)) := by
  obtain ⟨-, critical, rfl⟩ := eq_of_run_eq_ok h
  constructor
  · dsimp only
    rw [map_size_summaries, ← List.length_flatten, ofVector_eq_map, Factor.groups_map,
      ← List.map_flatten, List.length_map, hcoded.length_flatten_groups]
  · dsimp only
    rw [zip_sizes_means, List.map_map, Variance.between_eq_total]
    rfl

/-! ## Two levels -/

variable {xs ys : List ℝ}

theorem summaries_of_two {first second : String} (hlevels : factor.levels = [first, second])
    (hgroups : factor.groups (List.ofFn y) = [xs, ys]) (hxs : xs ≠ []) (hys : ys ≠ []) :
    summaries factor (ofVector y) =
      [⟨first, xs.length, real (average xs)⟩, ⟨second, ys.length, real (average ys)⟩] := by
  rw [ofVector_eq_map, summaries_real, hlevels, hgroups]
  simp [mean_real hxs, mean_real hys]

theorem mean_of_two (hcoded : factor.Coded n) (hgroups : factor.groups (List.ofFn y) = [xs, ys])
    (hxs : xs ≠ []) :
    mean (ofVector y) = real ((xs.sum + ys.sum) / (xs.length + ys.length)) := by
  have hsum : xs.sum + ys.sum = ∑ i, y i := by
    simpa [hgroups] using hcoded.sum_groups y id
  have hlength : xs.length + ys.length = n := by
    simpa [hgroups] using hcoded.length_flatten_groups y
  have hne : List.ofFn y ≠ [] := by
    rw [← List.length_pos_iff, List.length_ofFn, ← hlength]
    exact Nat.add_pos_left (List.length_pos_of_ne_nil hxs) _
  have hcast : (n : ℝ) = xs.length + ys.length := by
    rw [← hlength, Nat.cast_add]
  rw [ofVector_eq_map, mean_real hne, average, List.sum_ofFn, List.length_ofFn, ← hsum, hcast]

theorem between_of_two (hcoded : factor.Coded n) (hgroups : factor.groups (List.ofFn y) = [xs, ys])
    (hxs : xs ≠ []) (hys : ys ≠ []) :
    Variance.between (mean (ofVector y)) (factor.groups (ofVector y)) =
      real ((average ys - average xs) ^ 2 / (1 / xs.length + 1 / ys.length)) := by
  rw [mean_of_two hcoded hgroups hxs, ofVector_eq_map, Factor.groups_map, hgroups,
    Variance.between_real (by simp [hxs, hys]), ← between_two hxs hys]
  simp

/-- Both sides are the part between two levels over the variance within them. -/
theorem statistic_of_two {a b : LevelSummary Exact} {within m m' : ℝ} {df : ℕ}
    (hwithin : 0 < within) (hdf : 0 < df) (ha : 0 < a.size) (hb : 0 < b.size) :
    Scalar.square (real m' - real m) / Scalar.square (standardError (real (within / df)) a b) =
      2.0 * Variance.ratio (real ((m' - m) ^ 2 / (1 / a.size + 1 / b.size))) 1
        ⟨real within, df⟩ := by
  have hvariance : 0 < within / df := by positivity
  have hsizes : (0 : ℝ) < 1 / a.size + 1 / b.size := by positivity
  have hsquare : 0 < within / df / 2 * (1 / a.size + 1 / b.size) := by positivity
  rw [standardError_real hvariance.le ha.ne' hb.ne', Variance.ratio_real _ hwithin one_ne_zero hdf,
    square_real, Real.sq_sqrt hsquare.le, real_sub, square_real, real_div _ hsquare.ne', two_eq,
    real_mul, Nat.cast_one]
  congr 1
  field_simp

/-- The squared difference of two levels, as a multiple of its squared standard error, is twice the
ratio of the mean squares. -/
theorem comparison_of_two (hcoded : factor.Coded n)
    (h : run d factor (ofVector y) alpha = .ok test) (htwo : factor.levels.length = 2)
    {residual : Residual Exact} (hdf : residual.df = test.df)
    (hresidual : residual.sumSquares =
      real ((factor.groups (List.ofFn y)).map spread).sum) :
    ∃ a b pair, test.levels = [a.level, b.level] ∧ test.sizes = [a.size, b.size] ∧
      test.means = [a.mean, b.mean] ∧ test.comparisons = [pair] ∧
      Scalar.square pair.difference / Scalar.square (standardError test.variance a b) =
        2.0 * Variance.ratio (Variance.between (mean (ofVector y)) (factor.groups (ofVector y))) 1
          residual := by
  obtain ⟨-, hpos, hspread, hvariance⟩ := variance_of_run hcoded h
  obtain ⟨first, second, hlevels⟩ := List.length_eq_two.mp htwo
  obtain ⟨xs, ys, hgroups⟩ := List.length_eq_two.mp
    ((factor.length_groups (List.ofFn y)).trans htwo)
  obtain ⟨hfault, critical, htest⟩ := eq_of_run_eq_ok h
  have hlarge : ∀ group ∈ [xs, ys], 2 ≤ group.length := by
    have hall := (fault?_eq_none.mp hfault).2.2.2.1
    rw [ofVector_eq_map, Factor.groups_map, List.forall_mem_map, hgroups] at hall
    simpa using hall
  have hxs : 0 < xs.length := Nat.zero_lt_of_lt (hlarge xs (by simp))
  have hys : 0 < ys.length := Nat.zero_lt_of_lt (hlarge ys (by simp))
  have hnex := List.ne_nil_of_length_pos hxs
  have hney := List.ne_nil_of_length_pos hys
  let a : LevelSummary Exact := ⟨first, xs.length, real (average xs)⟩
  let b : LevelSummary Exact := ⟨second, ys.length, real (average ys)⟩
  have hsummaries : summaries factor (ofVector y) = [a, b] :=
    summaries_of_two hlevels hgroups hnex hney
  refine ⟨a, b, compare d alpha factor.levels.length test.variance test.df critical a b,
    ?_, ?_, ?_, ?_, ?_⟩
  · rw [htest, hlevels]
  · rw [htest, hsummaries]
    rfl
  · rw [htest, hsummaries]
    rfl
  · rw [htest, hsummaries]
    rfl
  · obtain ⟨within, df⟩ := residual
    dsimp only at hdf hresidual
    rw [hvariance, hdf, hresidual, between_of_two hcoded hgroups hnex hney]
    exact statistic_of_two (a := a) (b := b) hspread hpos hxs hys

end TukeyTest

namespace Variance

variable {data : Dataset Exact} {target factor : String} {table : VarianceTable Exact}

/-- The table of one factor has one row, and its residual is the part within the groups. -/
theorem oneWay_parts (h : oneWay d data target factor = .ok table) :
    ∃ row, table.effects = [row] ∧ data.numericColumn target = .ok (ofVector (data.reals target)) ∧
      Factor.ofDataset data factor = .ok (data.grouping factor) ∧
      table.observations = data.size ∧
      table.residual.sumSquares =
        real (((data.grouping factor).groups (List.ofFn (data.reals target))).map spread).sum ∧
      table.residual.df = data.size - (data.grouping factor).levels.length ∧
      test d ⟨[factor]⟩ (between (mean (ofVector (data.reals target)))
        ((data.grouping factor).groups (ofVector (data.reals target))))
        ((data.grouping factor).levels.length - 1) table.residual = .ok row := by
  simp only [oneWay, bind_eq_ok, check_eq_ok, pure_eq_ok, Factor.length_groups] at h
  obtain ⟨values, hvalues, grouping, hgrouping, ⟨⟩, htestable, hdf, row, hrow, rfl⟩ := h
  obtain ⟨-, rfl⟩ := Dataset.numericColumn_eq_ok.mp hvalues
  obtain ⟨-, rfl⟩ := Dataset.ofDataset_eq_ok.mp hgrouping
  have htwo := Factor.ensureTestable_eq_ok.mp htestable
  refine ⟨row, rfl, hvalues, hgrouping, length_ofVector _, ?_, ?_, hrow⟩
  · rw [ofVector_eq_map, Factor.groups_map, within_real]
  · dsimp only
    rw [length_ofVector]
    omega

end Variance

/-- The table of one factor and the comparisons of its levels agree on the variance within the
levels and on the part between them. With two levels the test statistics are the same but for a
factor. -/
theorem Analysis.variance_of_completed {data : Dataset Exact} {target factor : String}
    {options : Options Exact} {analysis : Analysis Exact} {test : TukeyTest Exact}
    (hrun : run d data target [factor] options = .ok analysis)
    (htest : test ∈ analysis.postHoc.completed) :
    ∃ row values, analysis.table.effects = [row] ∧
      analysis.data.numericColumn analysis.field = .ok values ∧
      test.df = analysis.table.residual.df ∧
      test.variance * Scalar.ofNat test.df = analysis.table.residual.sumSquares ∧
      test.sizes.sum = analysis.table.observations ∧
      Scalar.total ((test.sizes.zip test.means).map fun (size, mean) =>
        Scalar.ofNat size * Scalar.square (mean - Descriptive.mean values)) = row.sumSquares ∧
      (test.levels.length = 2 →
        ∃ a b pair, test.levels = [a.level, b.level] ∧ test.sizes = [a.size, b.size] ∧
          test.means = [a.mean, b.mean] ∧ test.comparisons = [pair] ∧
          Scalar.square pair.difference /
            Scalar.square (TukeyTest.standardError test.variance a b) = 2.0 * row.f) := by
  obtain ⟨prepared, field, reference, table, -, htable, rfl⟩ := run_eq_ok.mp hrun
  dsimp only at htest ⊢
  obtain ⟨asking, -, name, hasked, hcompared⟩ := PostHoc.mem_completed_iff.mp htest
  obtain rfl := (List.mem_singleton.mp (PostHoc.asked?_eq_some.mp hasked).2.1).symm
  cases hcompared with
  | completed hvalues hgrouping hpairs =>
      have hanswer : Variance.answer d prepared field (.oneWay factor) = .ok table := htable
      obtain ⟨row, heffects, hcolumn, hown, hcount, hwithin, hdf, hrow⟩ :=
        Variance.oneWay_parts (Variance.answer_eq_ok.mp hanswer).2.2
      obtain rfl := Except.ok.inj (hvalues.symm.trans hcolumn)
      obtain rfl := Except.ok.inj (hgrouping.symm.trans hown)
      have hcoded := prepared.coded_grouping factor
      obtain ⟨hfreedom, hpos, -, hvariance⟩ := TukeyTest.variance_of_run hcoded hpairs
      obtain ⟨hsizes, hbetween⟩ :=
        TukeyTest.between_of_run hcoded hpairs (mean (ofVector (prepared.reals field)))
      have hne : (test.df : ℝ) ≠ 0 := Nat.cast_ne_zero.mpr hpos.ne'
      have hsame : table.residual.df = test.df := hdf.trans hfreedom.symm
      refine ⟨row, _, heffects, hvalues, hsame.symm, ?_, hsizes.trans hcount.symm, ?_, ?_⟩
      · rw [hvariance, ofNat_eq, real_mul, div_mul_cancel₀ _ hne, hwithin]
      · exact hbetween.trans (Variance.test_eq_ok hrow).2.1.symm
      · intro htwo
        rw [(TukeyTest.run_eq_ok hpairs).2.1] at htwo
        rw [htwo] at hrow
        rw [Variance.test_f one_ne_zero (by omega) hrow]
        exact TukeyTest.comparison_of_two hcoded hpairs htwo hsame hwithin

end

/-! ## Two groups of two records -/

namespace Distribution

/-- The tails for two groups and two degrees of freedom, in closed form. -/
noncomputable def pairTails : Distribution Exact where
  fisherAbove?
    | real f, _, _ => some (real (1 - √(f / (f + (2 : ℕ)))))
    | _, _, _ => some undefined
  studentWithin _ _ := undefined
  rangeBelow
    | real q, _, _ => real (q / √((4 : ℕ) + q ^ 2))
    | _, _, _ => undefined
  rangeQuantile
    | real p, _, _ => real ((2 : ℕ) * p / √(1 - p ^ 2))
    | _, _, _ => undefined

end Distribution

namespace Sample

def apart : Dataset Exact :=
  ⟨[record "s" "u" 0, record "s" "v" 1, record "t" "u" 100, record "t" "v" 101]⟩

def sides : Factor :=
  ⟨"a", ["s", "t"], [0, 0, 1, 1]⟩

def heights : List Exact :=
  [0, 1, 100, 101].map real

theorem numericColumn_apart : apart.numericColumn "y" = .ok heights := by
  change Except.ok [real ((0 : ℤ) : ℝ), real ((1 : ℤ) : ℝ), real ((100 : ℤ) : ℝ),
    real ((101 : ℤ) : ℝ)] = _
  norm_num [heights]

theorem ofDataset_apart : Factor.ofDataset apart "a" = .ok sides := rfl

theorem groups_sides : sides.groups heights = [[0, 1], [100, 101]].map (List.map real) := rfl

theorem exists_row : ∃ row,
    Variance.test Distribution.pairTails ⟨["a"]⟩ (real 10000) 1 ⟨real 1, 2⟩ = .ok row ∧
      row.term = ⟨["a"]⟩ ∧ row.isSignificant := by
  have hratio : Variance.ratio (real 10000) 1 ⟨real 1, 2⟩ = real 20000 := by
    rw [Variance.ratio_real _ one_pos one_ne_zero two_pos]
    norm_num
  have htail : (1 - √(20000 / (20000 + 2)) : ℝ) < 0.05 := by
    have hsqrt : (0.95 : ℝ) < √(20000 / (20000 + 2)) := Real.lt_sqrt_of_sq_lt (by norm_num)
    linarith
  refine ⟨⟨⟨["a"]⟩, real 10000, 1, real 20000, real (1 - √(20000 / (20000 + 2)))⟩, ?_, rfl, ?_⟩
  · rw [Variance.test, if_neg (by simp), hratio]
    rfl
  · exact decide_eq_true htail

theorem exists_oneWay : ∃ table row,
    Variance.oneWay Distribution.pairTails apart "y" "a" = .ok table ∧
      row ∈ table.effects ∧ row.term = ⟨["a"]⟩ ∧ row.isSignificant := by
  obtain ⟨row, hrow, hterm, hsignificant⟩ := exists_row
  have hwithin : Variance.within (sides.groups heights) = real 1 := by
    rw [groups_sides, Variance.within_real]
    norm_num [spread, average]
  have hbetween : Variance.between (mean heights) (sides.groups heights) = real 10000 := by
    rw [groups_sides, heights, mean_real (by simp), Variance.between_real (by simp)]
    norm_num [average]
  refine ⟨⟨.oneWay, "y", "y ~ a", [row], ⟨real 1, 2⟩, 4⟩, row, ?_, by simp, hterm, hsignificant⟩
  rw [Variance.oneWay, numericColumn_apart, ok_bind, ofDataset_apart, ok_bind]
  simp only [hwithin, hbetween]
  change (Variance.test Distribution.pairTails ⟨["a"]⟩ (real 10000) 1 ⟨real 1, 2⟩ >>= fun row =>
    pure (⟨.oneWay, "y", "y ~ a", [row], ⟨real 1, 2⟩, 4⟩ : VarianceTable Exact)) = _
  rw [hrow]
  rfl

theorem exists_pairTest :
    ∃ test, TukeyTest.run Distribution.pairTails sides heights significanceLevel = .ok test := by
  have hpooled : pooledVariance (sides.groups heights) = (real (1 / 2), 2) := by
    rw [groups_sides, pooledVariance_real, if_neg (by simp)]
    norm_num [spread, average]
  have hfault : TukeyTest.fault? sides heights significanceLevel = none := by
    rw [TukeyTest.fault?_eq_none, hpooled, zero_eq, one_eq]
    refine ⟨rfl, ⟨?_, ?_⟩, le_rfl, by simp [groups_sides], le_rfl, ?_, rfl⟩
    · exact (by norm_num : (0 : ℝ) < 0.05)
    · exact (by norm_num : (0.05 : ℝ) < 1)
    · exact (by norm_num : (0 : ℝ) < 1 / 2)
  rw [TukeyTest.run_eq, hfault]
  simp only [TukeyTest.complete, hpooled, one_eq]
  exact ⟨_, rfl⟩

theorem exists_completed : ∃ analysis test,
    Analysis.run Distribution.pairTails apart "y" ["a"] ⟨false, none, .lowerIsBetter⟩ =
        .ok analysis ∧
      test ∈ analysis.postHoc.completed ∧ test.levels.length = 2 := by
  obtain ⟨table, row, htable, hrow, hterm, hsignificant⟩ := exists_oneWay
  obtain ⟨test, htest⟩ := exists_pairTest
  have hanswer : Variance.answer Distribution.pairTails apart "y" (.oneWay "a") = .ok table :=
    Variance.answer_eq_ok.mpr ⟨rfl, rfl, htable⟩
  have hanalyze : Variance.analyze Distribution.pairTails apart "y" ["a"] = .ok table := hanswer
  have hprepare : Analysis.prepare apart "y" ⟨false, none, .lowerIsBetter⟩ =
      .ok (apart, "y", none) := rfl
  have hrun := Analysis.run_eq_ok.mpr ⟨apart, "y", none, table, hprepare, hanalyze, rfl⟩
  have hasked : PostHoc.asked? ["a"] row = some "a" :=
    PostHoc.asked?_eq_some.mpr ⟨congrArg Term.factors hterm, by simp, hsignificant⟩
  refine ⟨_, test, hrun, ?_, ?_⟩
  · exact PostHoc.mem_completed_iff.mpr
      ⟨row, hrow, "a", hasked, .completed numericColumn_apart ofDataset_apart htest⟩
  · rw [(TukeyTest.run_eq_ok htest).2.1]
    rfl

end Sample

section

open Sample

theorem Analysis.variance_of_completed_apart : ∃ analysis test row a b pair,
    run Distribution.pairTails apart "y" ["a"] ⟨false, none, .lowerIsBetter⟩ = .ok analysis ∧
      test ∈ analysis.postHoc.completed ∧ analysis.table.effects = [row] ∧
      test.comparisons = [pair] ∧
      Scalar.square pair.difference /
        Scalar.square (TukeyTest.standardError test.variance a b) = 2.0 * row.f := by
  obtain ⟨analysis, test, hrun, htest, htwo⟩ := exists_completed
  obtain ⟨row, _, hrow, -, -, -, -, -, hpair⟩ := variance_of_completed hrun htest
  obtain ⟨a, b, pair, -, -, -, hcomparisons, hstatistic⟩ := hpair htwo
  exact ⟨analysis, test, row, a, b, pair, hrun, htest, hrow, hcomparisons, hstatistic⟩

end

end Significance
