import Significance.Proofs.Groups
import Significance.Proofs.Rows

/-! # The decomposition over one factor

The classical sums of squares between and within the groups are what the model with one factor takes
off the total and what it leaves. So both decompositions of one factor refuse the same data with the
same error, and else give the same table. -/

namespace Significance

open Success Exact Significance.Descriptive

/-! ## The groups as cells -/

section Cells

variable [Wording] {data : Dataset Exact} {factor : String}

theorem agree_singleton_iff (h : data.HasLevels factor) {i j : Fin data.size} :
    Agree data.level? [factor].toFinset i j ↔
      (data.grouping factor).code j = (data.grouping factor).code i := by
  rw [h.code_eq_iff]
  constructor
  · intro hagree
    exact (hagree factor (by simp)).symm
  · intro hlevel name hname
    obtain rfl : name = factor := by simpa using hname
    exact hlevel.symm

variable (y : Fin data.size → ℝ)

theorem cellMean_eq_average (h : data.HasLevels factor) (i : Fin data.size) :
    cellMean data.level? [factor].toFinset y i =
      average ((data.grouping factor).group (List.ofFn y) ((data.grouping factor).code i)) := by
  have hcoded := data.coded_grouping factor
  have hsum := hcoded.sum_group y id ((data.grouping factor).code i)
  rw [List.map_id] at hsum
  simp only [cellMean, cellSum, agree_singleton_iff h, average, hsum, hcoded.length_group y, id_eq]

theorem sum_spread_groups (h : data.HasLevels factor) :
    (((data.grouping factor).groups (List.ofFn y)).map spread).sum =
      squares (y - cellMean data.level? [factor].toFinset y) := by
  have hcoded := data.coded_grouping factor
  rw [Factor.groups_eq_map_range, List.map_map, squares, ← hcoded.sum_levels]
  congr 1
  apply List.map_congr_left
  intro c _
  rw [Function.comp_apply, spread, hcoded.sum_group]
  apply Finset.sum_congr rfl
  intro i hi
  rw [Pi.sub_apply, cellMean_eq_average y h, (Finset.mem_filter.mp hi).2]

/-- The deviations of the group means from a centre, each counted for every record of its group. -/
theorem sum_average_groups (h : data.HasLevels factor) (centre : ℝ) :
    (((data.grouping factor).groups (List.ofFn y)).map fun group =>
      group.length * (average group - centre) ^ 2).sum =
        squares (cellMean data.level? [factor].toFinset y - fun _ => centre) := by
  have hcoded := data.coded_grouping factor
  rw [Factor.groups_eq_map_range, List.map_map, squares, ← hcoded.sum_levels]
  congr 1
  apply List.map_congr_left
  intro c _
  rw [Function.comp_apply, hcoded.length_group, Finset.sum_mul]
  apply Finset.sum_congr rfl
  intro i hi
  rw [Pi.sub_apply, cellMean_eq_average y h, (Finset.mem_filter.mp hi).2, one_mul]

end Cells

theorem totalSquares_eq_add {ι κ Λ : Type*} [Fintype ι] [DecidableEq Λ] (level : ι → κ → Λ)
    (names : Finset κ) (y : ι → ℝ) :
    totalSquares y = squares (y - cellMean level names y) +
      squares (cellMean level names y - fun _ => (∑ i, y i) / Fintype.card ι) := by
  have hmem : (cellMean level names y - fun _ => (∑ i, y i) / Fintype.card ι) ∈
      dependingOn level names :=
    sub_mem (cellMean_mem names y) (const_mem_dependingOn names _)
  rw [← squares_add (orthogonal_sub_cellMean names y _ hmem), sub_add_sub_cancel]
  rfl

/-- Only constants avoid the single factor. -/
theorem avoiding_singleton {ι κ Λ : Type*} (level : ι → κ → Λ) (k : κ) :
    avoiding level {k} {k} = dependingOn level ∅ := by
  apply le_antisymm
  · apply avoiding_le
    intro names hsub hnot
    rcases Finset.subset_singleton_iff.mp hsub with rfl | rfl
    · exact le_rfl
    · exact absurd subset_rfl hnot
  · exact dependingOn_le_avoiding (Finset.empty_subset _) (by simp)

namespace Variance

section

variable [Wording]

theorem within_real (groups : List (List ℝ)) :
    within (groups.map (List.map real)) = real (groups.map spread).sum := by
  rw [within, List.foldl_map]
  simp only [variation_real]
  rw [zero_eq, foldl_add_real, zero_add]

theorem between_real {groups : List (List ℝ)} (h : ∀ group ∈ groups, group ≠ []) (centre : ℝ) :
    between (real centre) (groups.map (List.map real)) =
      real (groups.map fun group => group.length * (average group - centre) ^ 2).sum := by
  have hstep : ∀ sum, ∀ group ∈ groups,
      sum + Scalar.ofNat (group.map real).length *
          Scalar.square (mean (group.map real) - real centre) =
        sum + real (group.length * (average group - centre) ^ 2) := by
    intro sum group hgroup
    rw [mean_real (h group hgroup), List.length_map, ofNat_eq, real_sub, square_real, real_mul]
  rw [between, List.foldl_map, List.foldl_ext _ _ _ hstep, zero_eq, foldl_add_real, zero_add]

/-! ## The classical decomposition -/

variable {d : Distribution Exact} {data : Dataset Exact} {target factor : String}

/-- Between the groups are the deviations of their means from the grand mean. -/
theorem between_groups (hlevels : data.HasLevels factor) (hpos : 0 < data.size)
    (y : Fin data.size → ℝ) :
    between (mean (ofVector y)) ((data.grouping factor).groups (ofVector y)) =
      real (squares (cellMean data.level? [factor].toFinset y -
        fun _ => (∑ i, y i) / Fintype.card (Fin data.size))) := by
  have hne : List.ofFn y ≠ [] := by
    rw [ne_eq, List.ofFn_eq_nil_iff]
    exact hpos.ne'
  have hgroups : ∀ group ∈ (data.grouping factor).groups (List.ofFn y), group ≠ [] := by
    rw [Factor.groups_eq_map_range, List.forall_mem_map]
    intro c hc
    exact (data.coded_grouping factor).group_ne_nil y (List.mem_range.mp hc)
  have haverage : average (List.ofFn y) = (∑ i, y i) / Fintype.card (Fin data.size) := by
    rw [average, List.sum_ofFn, List.length_ofFn, Fintype.card_fin]
  rw [ofVector_eq_map, mean_real hne, Factor.groups_map, between_real hgroups,
    sum_average_groups y hlevels, haverage]

/-- The sums of squares of the classical decomposition. -/
theorem exists_parts_of_groups (hlevels : data.HasLevels factor) (hpos : 0 < data.size)
    (y : Fin data.size → ℝ) :
    ∃ r₀ r₁ : ℝ,
      between (mean (ofVector y)) ((data.grouping factor).groups (ofVector y)) = real (r₀ - r₁) ∧
      within ((data.grouping factor).groups (ofVector y)) = real r₁ ∧
      IsLeastDistance (dependingOn data.level? ∅) y r₀ ∧
      IsLeastDistance (dependingOn data.level? [factor].toFinset) y r₁ := by
  let means := cellMean data.level? [factor].toFinset y
  have hsplit := totalSquares_eq_add data.level? [factor].toFinset y
  refine ⟨totalSquares y, squares (y - means), ?_, ?_, isLeastDistance_totalSquares _ y,
    isLeastDistance_cellMean _ y⟩
  · rw [between_groups hlevels hpos, hsplit, add_sub_cancel_left]
  · rw [ofVector_eq_map, Factor.groups_map, within_real, sum_spread_groups y hlevels]

theorem Crossed.singleton (hlevels : data.HasLevels factor) (htwo : 2 ≤ data.levelCount factor) :
    Crossed data [factor] := by
  refine ⟨by simp, by simp, by simp [Term.maxFactors], by simpa, by simpa, ?_⟩
  intro a ha
  obtain ⟨i, hi⟩ := (data.coded_grouping factor).exists_code (a factor) (ha factor (by simp))
  refine ⟨i, ?_⟩
  intro name hname
  obtain rfl : name = factor := by simpa using hname
  exact hi

/-- The only row of one factor is tested with what the groups take off the total. -/
theorem mapM_effect_singleton (h : Crossed data [factor]) (hkeep : KeepsIndependent data [factor])
    {y : Fin data.size → ℝ} {r₀ r₁ : ℝ} (hr₀ : IsLeastDistance (dependingOn data.level? ∅) y r₀)
    (hr₁ : IsLeastDistance (dependingOn data.level? [factor].toFinset) y r₁)
    (residual : Residual Exact) :
    (Term.all [factor]).mapM
        (effect d (design data [factor]) (Term.all [factor]) (ofVector y) residual) =
      (do return [← test d ⟨[factor]⟩ (real (r₀ - r₁)) (data.levelCount factor - 1) residual]) := by
  have hterm : Term.mk [factor] ∈ Term.all [factor] := Term.mem_all.mpr ⟨List.Sublist.refl _, by simp⟩
  have hsupport : (Term.mk [factor]).support = {factor} := rfl
  have havoiding : avoiding data.level? [factor].toFinset (Term.mk [factor]).support =
      dependingOn data.level? ∅ := avoiding_singleton data.level? factor
  have hsum : dependingOn data.level? ∅ ⊔ dependingOn data.level? (Term.mk [factor]).support =
      dependingOn data.level? [factor].toFinset :=
    sup_eq_right.mpr (dependingOn_mono (Finset.empty_subset _))
  rw [← havoiding] at hr₀
  rw [← hsum, ← havoiding] at hr₁
  have heffect := effect_eq (d := d) h hkeep hterm hr₀ hr₁ residual
  rw [hsupport, Finset.prod_singleton] at heffect
  rw [← heffect]
  rfl

/-- Both decompositions of one factor end alike. -/
theorem multiWay_singleton (hkeep : KeepsIndependent data [factor]) :
    multiWay d data target [factor] = (oneWay d data target factor).map fun table =>
      { table with kind := .multiWay } := by
  unfold multiWay oneWay
  apply bind_eq_map_bind
  intro values hvalues
  rw [testableFactors, List.mapM_cons, List.mapM_nil]
  simp only [bind_assoc, pure_bind]
  apply bind_eq_map_bind
  intro grouping hgrouping
  apply bind_eq_map_bind
  intro _ htestable
  obtain ⟨-, rfl⟩ := Dataset.numericColumn_eq_ok.mp hvalues
  obtain ⟨hlevels, rfl⟩ := Dataset.ofDataset_eq_ok.mp hgrouping
  have htwo := Factor.ensureTestable_eq_ok.mp htestable
  rw [hlevels.length_levels] at htwo
  have hcrossed := Crossed.singleton hlevels htwo
  obtain ⟨-, hlattice, hcheck, hwhole⟩ := hcrossed.checks
  rw [List.map_singleton] at hcheck hwhole
  obtain ⟨r₀, r₁, hbetween, hwithin, hr₀, hr₁⟩ :=
    exists_parts_of_groups hlevels hcrossed.pos (data.reals target)
  have hcells : ∏ name ∈ [factor].toFinset, data.levelCount name = data.levelCount factor :=
    Finset.prod_singleton _ _
  have hfull := full_eq hcrossed hkeep hr₁
  rw [hcells] at hfull
  simp only [hlattice, hcheck, hwhole, hfull, ok_bind, length_ofVector, Factor.length_groups,
    hlevels.length_levels, hbetween, hwithin, Fit.residualDf]
  -- The next check of both is whether records are left for the residual.
  have hdf : data.size - 1 - (data.levelCount factor - 1) = data.size - data.levelCount factor := by
    omega
  rw [hdf]
  apply check_eq_map_check Iff.rfl
  intro _
  rw [mapM_effect_singleton hcrossed hkeep hr₀ hr₁, bind_assoc]
  apply bind_eq_map_bind
  intro row _
  rfl

/-- The two decompositions of one factor refuse the same data for the same reason, and else their
tables differ in their kind alone, whether they are asked for as such or as a request. -/
theorem multiWay_eq_map_oneWay (hkeep : KeepsIndependent data [factor]) :
    (multiWay d data target [factor] = (oneWay d data target factor).map fun table =>
      { table with kind := .multiWay }) ∧
    answer d data target (.multiWay [factor]) =
      (answer d data target (.oneWay factor)).map fun table => { table with kind := .multiWay } := by
  refine ⟨multiWay_singleton hkeep, ?_⟩
  unfold answer
  apply bind_eq_map_bind
  intro _ _
  apply check_eq_map_check Iff.rfl
  intro _
  exact multiWay_singleton hkeep

end

section

open Sample

theorem multiWay_eq_map_oneWay_sample :
    KeepsIndependent Sample.data ["a"] ∧ ∃ table,
      oneWay Distribution.exactFisher Sample.data "y" "a" = .ok table ∧
      multiWay Distribution.exactFisher Sample.data "y" ["a"] =
        .ok { table with kind := .multiWay } := by
  have hkeep : KeepsIndependent Sample.data ["a"] := keepsIndependent (by decide) ["a"]
  have hcount := levelCount "a" (by simp)
  have hcrossed := Crossed.singleton (hasLevels "a" (by simp)) hcount.ge
  have hcells : ∏ name ∈ ["a"].toFinset, Sample.data.levelCount name = 2 :=
    (Finset.prod_singleton _ _).trans hcount
  obtain ⟨whole, hwhole⟩ := exists_multiWay hasTails (hasReals "y" (by simp)) hcrossed hkeep
    (by rw [hcells]; decide)
  have heq : multiWay Distribution.exactFisher Sample.data "y" ["a"] =
      (oneWay Distribution.exactFisher Sample.data "y" "a").map fun table =>
        { table with kind := .multiWay } :=
    (multiWay_eq_map_oneWay hkeep).1
  obtain ⟨table, htable, rfl⟩ := map_eq_ok.mp (heq.symm.trans hwhole)
  exact ⟨hkeep, table, htable, hwhole⟩

end

end Variance

end Significance
