import Significance.Comparison
import Significance.Proofs.DerivedField
import Significance.Proofs.PairTest
import Significance.Proofs.Requests

/-! # Groupings beside the deviations

Relative deviations take the place of one field. The groupings by all other fields are those of the
caller's records, in an analysis and in a comparison. -/

namespace Significance

open Success

section

variable {α : Type} [Scalar α]

/-! ## Groupings of an analysis -/

/-- A completed comparison is one of the levels of its factor, with their numbers of records. -/
theorem TukeyTest.run_eq_ok {d : Distribution α} {factor : Factor} {values : List α} {alpha : α}
    {test : TukeyTest α} (h : run d factor values alpha = .ok test) :
    test.factor = factor.name ∧ test.levels = factor.levels ∧ test.sizes = factor.levelCounts := by
  obtain ⟨hfault, critical, rfl⟩ := eq_of_run_eq_ok h
  refine ⟨rfl, rfl, ?_⟩
  exact (map_size_summaries factor values).trans
    (Factor.map_length_groups (fault?_eq_none.mp hfault).1)

theorem Factor.name_of_ofDataset {data : Dataset α} {name : String} {factor : Factor}
    (h : ofDataset data name = .ok factor) : factor.name = name := by
  simp only [ofDataset, bind_eq_ok, pure_eq_ok] at h
  obtain ⟨labels, -, rfl⟩ := h
  rfl

theorem PostHoc.exists_grouping {d : Distribution α} {data : Dataset α} {target : String}
    {table : VarianceTable α} {factors : List String} {test : TukeyTest α}
    (h : test ∈ (run d data target table factors).completed) :
    ∃ grouping values, Factor.ofDataset data test.factor = .ok grouping ∧
      data.numericColumn target = .ok values ∧
      TukeyTest.run d grouping values significanceLevel = .ok test ∧
      test.levels = grouping.levels ∧ test.sizes = grouping.levelCounts := by
  obtain ⟨_, hmem, htest⟩ := List.mem_filterMap.mp h
  obtain ⟨effect, -, rfl⟩ := List.mem_map.mp hmem
  cases hcompare : compareLevels d data target effect.name with
  | error e => simp [FactorOutcome.test?, entry, hcompare] at htest
  | ok found =>
      obtain rfl : found = test := by simpa [FactorOutcome.test?, entry, hcompare] using htest
      simp only [compareLevels, bind_eq_ok] at hcompare
      obtain ⟨values, hvalues, grouping, hgrouping, hrun⟩ := hcompare
      obtain ⟨hfactor, hlevels, hsizes⟩ := TukeyTest.run_eq_ok hrun
      rw [hfactor, Factor.name_of_ofDataset hgrouping]
      exact ⟨grouping, values, hgrouping, hvalues, hrun, hlevels, hsizes⟩

theorem Analysis.column_prepare {data prepared : Dataset α} {target field : String}
    {reference : Option α} {options : Options α}
    (h : prepare data target options = .ok (prepared, field, reference)) {name : String}
    (hname : options.normalize = true → name ≠ Deviation.fieldName target) :
    prepared.column name = data.column name := by
  obtain ⟨normalize, given, sense⟩ := options
  cases normalize with
  | true =>
      obtain ⟨_, _, -, -, hprepared, -⟩ := prepare_eq_ok.mp h
      exact Dataset.column_withField_of_ne hprepared (hname rfl)
  | false =>
      obtain ⟨rfl, -⟩ := prepare_eq_ok_of_raw.mp h
      rfl

/-! ## Groups of a comparison -/

namespace Comparison

variable {d : Distribution α} {data data' : Dataset α} {x y : String} {hue : Option String}

/-- A group without its statistics. -/
def counted (group : GroupSummary α) : String × Option String × ℕ :=
  (group.x, group.hue, group.count)

/-- A comparison of columns that were read. -/
def ofColumns (d : Distribution α) (x y : String) (hue : Option String) (normalized : Bool)
    (xs : List String) (hues : List (Option String)) (values : List α) : Comparison α :=
  let points := (xs.zip (hues.zip values)).map fun (x, hue, y) => (⟨x, hue, y⟩ : Point α)
  let hueLevels := levelOrder (hues.filterMap id)
  { xField := x, yField := y, hueField := hue, normalized, xLevels := levelOrder xs, hueLevels
    groups := summaries d points (levelOrder xs)
      (if hue.isSome then hueLevels.map some else [none]) }

theorem run_eq_ok_of_raw {given : Option α} {sense : Sense} {clean : Bool}
    {comparison : Comparison α} :
    run d data x y hue ⟨false, given, sense, clean⟩ = .ok comparison ↔
      data.requireFields ([x, y] ++ hue.toList) = .ok () ∧
      ∃ values xs hues, data.numericColumn y = .ok values ∧ data.categoricalColumn x = .ok xs ∧
        hueLabels data hue clean = .ok hues ∧
        comparison = ofColumns d x y hue false xs hues values := by
  simp only [run, bind_eq_ok, Bool.false_eq_true, ↓reduceIte, pure_eq_ok]
  constructor
  · rintro ⟨_, hfields, _, rfl, values, hvalues, xs, hxs, hues, hhues, rfl⟩
    exact ⟨hfields, values, xs, hues, hvalues, hxs, hhues, rfl⟩
  · rintro ⟨hfields, values, xs, hues, hvalues, hxs, hhues, rfl⟩
    exact ⟨(), hfields, _, rfl, values, hvalues, xs, hxs, hues, hhues, rfl⟩

theorem run_eq_ok_of_normalized {given : Option α} {sense : Sense} {clean : Bool}
    {comparison : Comparison α} :
    run d data x y hue ⟨true, given, sense, clean⟩ = .ok comparison ↔
      data.requireFields ([x, y] ++ hue.toList) = .ok () ∧
      ∃ prepared yField values xs hues,
        Deviation.normalize data y given sense = .ok (prepared, yField) ∧
        prepared.numericColumn yField = .ok values ∧ prepared.categoricalColumn x = .ok xs ∧
        hueLabels prepared hue clean = .ok hues ∧
        comparison = ofColumns d x yField hue true xs hues values := by
  simp only [run, bind_eq_ok, ↓reduceIte, pure_eq_ok, Prod.exists]
  constructor
  · rintro ⟨_, hfields, prepared, yField, hprepared, values, hvalues, xs, hxs, hues, hhues, rfl⟩
    exact ⟨hfields, prepared, yField, values, xs, hues, hprepared, hvalues, hxs, hhues, rfl⟩
  · rintro ⟨hfields, prepared, yField, values, xs, hues, hprepared, hvalues, hxs, hhues, rfl⟩
    exact ⟨(), hfields, prepared, yField, hprepared, values, hvalues, xs, hxs, hues, hhues, rfl⟩

theorem hueLabels_congr (hue : Option String) (hsize : data'.size = data.size)
    (h : ∀ name ∈ hue, data'.column name = data.column name) (clean : Bool) :
    hueLabels data' hue clean = hueLabels data hue clean := by
  cases hue with
  | none => rw [hueLabels, hueLabels, hsize]
  | some name => rw [hueLabels, hueLabels, Dataset.categoricalColumn_congr (h name rfl)]

theorem counted_summaries (g : α → α) (points : List (Point α)) (xLevels : List String)
    (hues : List (Option String)) :
    (summaries d (points.map fun point => { point with y := g point.y }) xLevels hues).map counted =
      (summaries d points xLevels hues).map counted := by
  have hvalues : ∀ x hue, groupValues (points.map fun point => { point with y := g point.y }) x hue =
      (groupValues points x hue).map g := by
    intro x hue
    rw [groupValues, groupValues, List.filterMap_map, List.map_filterMap]
    congr 1
    funext point
    by_cases h : point.x = x ∧ point.hue = hue
    · simp [h]
    · simp [h]
  simp only [summaries, List.map_flatMap, List.map_filterMap, hvalues]
  congr 1
  funext hue
  congr 1
  funext x
  cases groupValues points x hue with
  | nil => rfl
  | cons value values => simp [summarize, counted]

/-- Other values in the same groups are counted alike. -/
theorem counted_ofColumns (g : α → α) {normalized normalized' : Bool} {y y' : String}
    {xs : List String} {hues : List (Option String)} {values : List α} :
    (ofColumns d x y' hue normalized' xs hues (values.map g)).groups.map counted =
      (ofColumns d x y hue normalized xs hues values).groups.map counted := by
  have hpoints : (xs.zip (hues.zip (values.map g))).map (fun (x, hue, y) => (⟨x, hue, y⟩ : Point α)) =
      ((xs.zip (hues.zip values)).map fun (x, hue, y) => (⟨x, hue, y⟩ : Point α)).map
        fun point => { point with y := g point.y } := by
    rw [List.zip_map_right, List.zip_map_right, List.map_map, List.map_map]
    rfl
  simp only [ofColumns, hpoints, counted_summaries]

/-- A comparison of deviations that reads its labels elsewhere has the groups of one of the values. -/
theorem exists_raw_of_normalized {given : Option α} {sense : Sense} {clean : Bool}
    {comparison : Comparison α} (hx : x ≠ Deviation.fieldName y)
    (hhue : hue ≠ some (Deviation.fieldName y))
    (h : run d data x y hue ⟨true, given, sense, clean⟩ = .ok comparison) :
    ∃ prepared raw,
      Deviation.normalize data y given sense = .ok (prepared, Deviation.fieldName y) ∧
      prepared.categoricalColumn x = data.categoricalColumn x ∧
      hueLabels prepared hue clean = hueLabels data hue clean ∧
      run d data x y hue ⟨false, given, sense, clean⟩ = .ok raw ∧
      comparison.xLevels = raw.xLevels ∧ comparison.hueLevels = raw.hueLevels ∧
      comparison.groups.map counted = raw.groups.map counted := by
  obtain ⟨hfields, prepared, yField, values', xs, hues, hprepared, hvalues', hxs, hhues, rfl⟩ :=
    run_eq_ok_of_normalized.mp h
  obtain ⟨values, r, hvalues, -, hdeviations, rfl⟩ := Deviation.normalize_eq_ok.mp hprepared
  have hothers : ∀ name, name ≠ Deviation.fieldName y → prepared.column name = data.column name :=
    fun name hname => Dataset.column_withField_of_ne hdeviations hname
  have hcolumn := Dataset.column_withField_self hdeviations
  rw [List.map_map] at hcolumn
  obtain ⟨-, rfl⟩ := (Dataset.numericColumn_of_numbers hcolumn).mp hvalues'
  have hxs' := Dataset.categoricalColumn_congr (hothers x hx)
  have hhues' := hueLabels_congr hue (Dataset.size_withField hdeviations).symm
    (fun name hname => hothers name fun heq => hhue (heq ▸ hname)) clean
  rw [hxs'] at hxs
  rw [hhues'] at hhues
  exact ⟨prepared, _, hprepared, hxs', hhues',
    run_eq_ok_of_raw.mpr ⟨hfields, values, xs, hues, hvalues, hxs, hhues, rfl⟩, rfl, rfl,
    counted_ofColumns _⟩

end Comparison

/-! ## All groupings -/

/-- Deviations leave the groupings by all fields but their own as they are: those of an analysis, of
its decomposition and of its comparisons of levels are those of the caller's records, and a
comparison has the same labels and counts as one without deviations. -/
theorem Deviation.groupings_of_other_fields (d : Distribution α) (data : Dataset α)
    (target : String) :
    (∀ factors options analysis, Analysis.run d data target factors options = .ok analysis →
      (∀ name, (options.normalize = true → name ≠ fieldName target) →
        Factor.ofDataset analysis.data name = Factor.ofDataset data name) ∧
      (∃ groupings, Variance.testableFactors analysis.data factors = .ok groupings ∧
        ∀ grouping ∈ groupings, (options.normalize = true → grouping.name ≠ fieldName target) →
          Factor.ofDataset data grouping.name = .ok grouping) ∧
      (∀ test ∈ analysis.postHoc.completed,
        (options.normalize = true → test.factor ≠ fieldName target) →
          ∃ grouping values, Factor.ofDataset data test.factor = .ok grouping ∧
            analysis.data.numericColumn analysis.field = .ok values ∧
            TukeyTest.run d grouping values significanceLevel = .ok test ∧
            test.levels = grouping.levels ∧ test.sizes = grouping.levelCounts) ∧
      (options.normalize = true → ∃ values r, data.numericColumn target = .ok values ∧
        reference target values options.reference options.sense = .ok r ∧
        analysis.data.column (fieldName target) =
          (relative values r).map fun x => some (.number x))) ∧
    ∀ x hue given sense clean comparison, x ≠ fieldName target → hue ≠ some (fieldName target) →
      Comparison.run d data x target hue ⟨true, given, sense, clean⟩ = .ok comparison →
      ∃ prepared raw,
        normalize data target given sense = .ok (prepared, fieldName target) ∧
        prepared.categoricalColumn x = data.categoricalColumn x ∧
        Comparison.hueLabels prepared hue clean = Comparison.hueLabels data hue clean ∧
        Comparison.run d data x target hue ⟨false, given, sense, clean⟩ = .ok raw ∧
        comparison.xLevels = raw.xLevels ∧ comparison.hueLevels = raw.hueLevels ∧
        comparison.groups.map Comparison.counted = raw.groups.map Comparison.counted := by
  constructor
  · intro factors options analysis hrun
    obtain ⟨prepared, field, reference, table, hprepare, htable, rfl⟩ := Analysis.run_eq_ok.mp hrun
    have hothers : ∀ name, (options.normalize = true → name ≠ fieldName target) →
        Factor.ofDataset prepared name = Factor.ofDataset data name :=
      fun name hname => Dataset.ofDataset_congr (Analysis.column_prepare hprepare hname)
    refine ⟨hothers, ?_, ?_, ?_⟩
    · obtain ⟨groupings, hgroupings⟩ := Variance.exists_testableFactors htable
      refine ⟨groupings, hgroupings, ?_⟩
      intro grouping hmem hname
      obtain ⟨name, -, hfactor⟩ := exists_of_mem_mapM hgroupings hmem
      simp only [bind_eq_ok, pure_eq_ok] at hfactor
      obtain ⟨_, hfactor, _, -, rfl⟩ := hfactor
      rw [← hothers _ hname, Factor.name_of_ofDataset hfactor]
      exact hfactor
    · intro test htest hname
      obtain ⟨grouping, values, hgrouping, hsame⟩ := PostHoc.exists_grouping htest
      rw [hothers _ hname] at hgrouping
      exact ⟨grouping, values, hgrouping, hsame⟩
    · intro hnormalize
      obtain ⟨normalize, given, sense⟩ := options
      obtain rfl : normalize = true := hnormalize
      obtain ⟨values, r, hvalues, hr, hdeviations, -⟩ := Analysis.prepare_eq_ok.mp hprepare
      refine ⟨values, r, hvalues, hr, ?_⟩
      exact (Dataset.column_withField_self hdeviations).trans (List.map_map ..)
  · intro x hue given sense clean comparison hx hhue h
    exact Comparison.exists_raw_of_normalized hx hhue h

end

/-! ## A field in the place of the deviations -/

namespace Sample

theorem pairwise_fields : ["cost", "costRpd", "group"].Pairwise (· < ·) := by
  decide

def priced (cost : Float) (kind group : String) : Record (Value Float) :=
  ⟨[("cost", .number cost), ("costRpd", .text kind), ("group", .text group)],
    List.pairwise_map.mp pairwise_fields⟩

def prices : Dataset Float :=
  ⟨[priced 1 "a" "s", priced 1 "b" "t", priced 2 "a" "s", priced 2 "b" "t"]⟩

end Sample

namespace Deviation

open Sample

theorem groupings_of_other_fields_prices :
    (∃ analysis, Analysis.run Distribution.standard prices "cost" ["group"]
        ⟨true, none, .lowerIsBetter⟩ = .ok analysis ∧
      Factor.ofDataset analysis.data "group" = Factor.ofDataset prices "group") ∧
    ∃ comparison raw,
      Comparison.run Distribution.standard prices "group" "cost" none
        ⟨true, none, .lowerIsBetter, false⟩ = .ok comparison ∧
      Comparison.run Distribution.standard prices "group" "cost" none
        ⟨false, none, .lowerIsBetter, false⟩ = .ok raw ∧
      comparison.groups.map Comparison.counted = raw.groups.map Comparison.counted := by
  have hrun : ((Analysis.run Distribution.standard prices "cost" ["group"]
      ⟨true, none, .lowerIsBetter⟩).toOption).isSome := by decide +kernel
  have hcompare : ((Comparison.run Distribution.standard prices "group" "cost" none
      ⟨true, none, .lowerIsBetter, false⟩).toOption).isSome := by decide +kernel
  obtain ⟨analysis, hanalysis⟩ := Option.isSome_iff_exists.mp hrun
  obtain ⟨comparison, hcomparison⟩ := Option.isSome_iff_exists.mp hcompare
  rw [toOption_eq_some] at hanalysis hcomparison
  obtain ⟨hanalyses, hcomparisons⟩ :=
    groupings_of_other_fields Distribution.standard prices "cost"
  obtain ⟨-, raw, -, -, -, hraw, -, -, hcounted⟩ :=
    hcomparisons _ _ _ _ _ comparison (by decide) (by decide) hcomparison
  exact ⟨⟨analysis, hanalysis, (hanalyses _ _ analysis hanalysis).1 "group" (by decide)⟩,
    comparison, raw, hcomparison, hraw, hcounted⟩

/-- The caller's labels in the field of the deviations are lost to the analysis. -/
theorem grouping_of_own_field_replaced :
    prices.requireFields ["cost", "costRpd"] = .ok () ∧
    Factor.ofDataset prices "costRpd" = .ok ⟨"costRpd", ["a", "b"], [0, 1, 0, 1]⟩ ∧
    ∃ analysis, Analysis.run Distribution.standard prices "cost" ["costRpd"]
        ⟨true, none, .lowerIsBetter⟩ = .ok analysis ∧
      Factor.ofDataset analysis.data "costRpd" =
        .ok ⟨"costRpd", ["0", "100"], [0, 0, 1, 1]⟩ := by
  have hlevels : ((Analysis.run Distribution.standard prices "cost" ["costRpd"]
      ⟨true, none, .lowerIsBetter⟩).toOption.bind fun analysis =>
        (Factor.ofDataset analysis.data "costRpd").toOption) =
      some ⟨"costRpd", ["0", "100"], [0, 0, 1, 1]⟩ := by
    decide +kernel
  obtain ⟨analysis, hanalysis, hfactor⟩ := Option.bind_eq_some_iff.mp hlevels
  exact ⟨rfl, rfl, analysis, toOption_eq_some.mp hanalysis, toOption_eq_some.mp hfactor⟩

end Deviation

end Significance
