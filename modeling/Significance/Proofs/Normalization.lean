import Significance.Proofs.Correspondence
import Significance.Proofs.DerivedField
import Significance.Proofs.PairTest
import Significance.Proofs.Requests

/-! # Analyses of deviations

Relative deviations are the values on another scale and counted from another zero. So an analysis
finds for them what it finds for the values. -/

namespace Significance

open Success Exact

theorem Dataset.getElem?_column {α : Type} (data : Dataset α) (name : String) (i : Fin data.size) :
    (data.column name)[(i : ℕ)]? = some ((data.record i).get? name) := by
  have hi : (i : ℕ) < data.records.length := i.isLt
  simp [column, record, hi]

section

variable [Wording]

/-! ## The deviations as a column -/

namespace Deviation

theorem relative_real {r : ℝ} (hr : r ≠ 0) (xs : List ℝ) :
    relative (xs.map real) (real r) = (xs.map fun x => 100 / r * x + -100).map real := by
  have hhundred : (100.0 : Exact) = real 100 := by
    rw [ofScientific_eq]
    norm_num
  rw [relative, List.map_map, List.map_map]
  apply List.map_congr_left
  intro x _
  rw [Function.comp_apply, Function.comp_apply, hhundred, real_sub, real_div _ hr, real_mul]
  congr 1
  field_simp
  ring

end Deviation

/-- Data correspond to those with one more column, or another one, of values on another scale. -/
theorem Corresponds.of_withNumericField {data data' : Dataset Exact} {target field : String}
    {factors : List String} {scale shift : ℝ} (hscale : scale ≠ 0) (hreals : data.HasReals target)
    (hdata' : data.withNumericField field
      (((List.ofFn (data.reals target)).map fun y => scale * y + shift).map real) = .ok data')
    (hfield : field ∉ factors) (hsize : data.size = data'.size) :
    Corresponds data data' target field factors (finCongr hsize) scale shift := by
  have hlevel : ∀ name ∈ factors, ∀ i,
      data'.level? (finCongr hsize i) name = data.level? i name := by
    intro name hname i
    have hne : name ≠ field := fun heq => hfield (heq ▸ hname)
    have hcolumn := Dataset.column_withField_of_ne hdata' hne
    have hvalue := data'.getElem?_column name (finCongr hsize i)
    rw [hcolumn, finCongr_apply, Fin.val_cast, data.getElem?_column name i] at hvalue
    rw [Dataset.level?, Dataset.level?, Option.some_injective _ hvalue]
    rfl
  have hnumber : ∀ i, (data'.record (finCongr hsize i)).get? field =
      some (.number (real (scale * data.reals target i + shift))) := by
    intro i
    have hvalue := data'.getElem?_column field (finCongr hsize i)
    rw [Dataset.column_withField_self hdata'] at hvalue
    apply Option.some_injective
    rw [← hvalue]
    simp
  refine ⟨hscale, ?_, ?_, ?_, ?_⟩
  · intro name hname i
    rw [hlevel name hname]
  · intro name hname i j
    rw [hlevel name hname, hlevel name hname]
  · refine iff_of_true ?_ hreals
    intro i
    rw [← (finCongr hsize).apply_symm_apply i]
    exact ⟨_, hnumber _⟩
  · intro i
    rw [Dataset.reals, hnumber]
    rfl

/-! ## Decompositions of the deviations -/

namespace Variance

variable {d : Distribution Exact} {data data' : Dataset Exact} {target target' : String}
  {factors : List String} {e : Fin data.size ≃ Fin data'.size} {scale shift : ℝ}

theorem KeepsIndependent.congr (hkeep : KeepsIndependent data factors)
    (h : testableFactors data' factors = testableFactors data factors) :
    KeepsIndependent data' factors := by
  intro groupings terms whole hgroupings
  rw [h] at hgroupings
  exact hkeep groupings terms whole hgroupings

/-- The decomposition of corresponding data over the same factors. -/
theorem multiWay_rescale (h : Corresponds data data' target target' factors e scale shift)
    (hkeep : KeepsIndependent data factors) (hkeep' : KeepsIndependent data' factors)
    {table : VarianceTable Exact} (htable : multiWay d data target factors = .ok table) :
    multiWay d data' target' factors = .ok
      ⟨.multiWay, target', Term.formula target' (Term.all factors),
        table.effects.map (Effect.rescale (scale ^ 2)), table.residual.rescale (scale ^ 2),
        table.observations⟩ := by
  have hterms : (Term.all factors).map id = Term.all factors := List.map_id _
  obtain ⟨hrows, hwhole⟩ := h.multiWay_of_restated hkeep hkeep' (List.Perm.refl factors)
    (List.Perm.of_eq hterms) (fun _ _ => rfl) htable
  rw [hterms] at hrows
  exact hwhole _ hrows

end Variance

/-! ## Comparisons of the deviations -/

variable (scale shift : ℝ)

noncomputable def Outcome.rescale : Outcome Exact → Outcome Exact
  | .completed test => .completed (test.rescale scale shift)
  | .skipped reason => .skipped reason

noncomputable def FactorOutcome.rescale (entry : FactorOutcome Exact) : FactorOutcome Exact :=
  { entry with outcome := entry.outcome.rescale scale shift }

namespace PostHoc

variable {scale} {d : Distribution Exact} {data data' : Dataset Exact} {target field : String}
  {ys : List ℝ}

theorem entry_rescale (hscale : scale ≠ 0) (hvalues : data.numericColumn target = .ok (ys.map real))
    (hvalues' : data'.numericColumn field =
      .ok ((ys.map fun y => scale * y + shift).map real)) {factor : String}
    (hfactor : Factor.ofDataset data' factor = Factor.ofDataset data factor) :
    entry d data' field factor = (entry d data target factor).rescale scale shift := by
  have hcompare : compareLevels d data' field factor =
      (compareLevels d data target factor).map (TukeyTest.rescale scale shift) := by
    rw [compareLevels, compareLevels, hvalues, hvalues', ok_bind, ok_bind, hfactor]
    apply bind_eq_map_bind
    intro grouping _
    exact TukeyTest.run_rescale shift ys hscale
  rw [entry, entry, hcompare, FactorOutcome.rescale]
  cases compareLevels d data target factor with
  | error e => rfl
  | ok test => rfl

/-- The same factors are compared, for a row has the same p-value. -/
theorem run_rescale (hscale : scale ≠ 0) (hvalues : data.numericColumn target = .ok (ys.map real))
    (hvalues' : data'.numericColumn field =
      .ok ((ys.map fun y => scale * y + shift).map real)) {factors : List String}
    (hfactors : ∀ name ∈ factors, Factor.ofDataset data' name = Factor.ofDataset data name)
    {table table' : VarianceTable Exact} {c : ℝ}
    (heffects : table'.effects = table.effects.map (Effect.rescale c)) :
    (run d data' field table' factors).entries =
      (run d data target table factors).entries.map (FactorOutcome.rescale scale shift) := by
  rw [run, run, heffects, List.filter_map, List.map_map, List.map_map]
  apply List.map_congr_left
  intro effect heffect
  have hasks := (List.mem_filter.mp heffect).2
  simp only [Function.comp_apply, asks, Bool.and_eq_true, List.contains_iff_mem] at hasks
  exact entry_rescale shift hscale hvalues hvalues' (hfactors _ hasks.1.2)

end PostHoc

/-! ## Analyses -/

namespace Analysis

variable {d : Distribution Exact} {data : Dataset Exact} {target : String} {factors : List String}

/-- The deviations of a column of numbers are one as well. -/
theorem exists_deviations {given : Option Exact} {sense : Sense} {r : ℝ}
    (hfield : Deviation.fieldName target ∉ factors)
    (hreference : ∀ values, data.numericColumn target = .ok values →
      Deviation.reference target values given sense = .ok (real r))
    (hreals : data.HasReals target) :
    ∃ prepared e,
      prepare data target ⟨true, given, sense⟩ =
        .ok (prepared, Deviation.fieldName target, some (real r)) ∧
      prepared.numericColumn (Deviation.fieldName target) =
        .ok (((List.ofFn (data.reals target)).map fun y => 100 / r * y + -100).map real) ∧
      (∀ name ∈ factors, prepared.column name = data.column name) ∧
      Corresponds data prepared target (Deviation.fieldName target) factors e (100 / r) (-100) := by
  have hvalues : data.numericColumn target = .ok ((List.ofFn (data.reals target)).map real) :=
    Dataset.numericColumn_eq_ok.mpr ⟨hreals, (ofVector_eq_map _).symm⟩
  have hr := hreference _ hvalues
  have hne : r ≠ 0 := by
    rintro rfl
    have hzero := (Deviation.checkReference_eq_ok.mp (Deviation.reference_of_eq_ok hr)).1
    simp [Scalar.isZero] at hzero
  have hlength : (Deviation.relative ((List.ofFn (data.reals target)).map real) (real r)).length =
      data.size := by
    simp [Deviation.relative]
  obtain ⟨prepared, hprepared⟩ := Dataset.exists_withNumericField hlength (Deviation.fieldName target)
  have hscaled := hprepared
  rw [Deviation.relative_real hne] at hscaled
  have hcolumn := Dataset.column_withField_self hscaled
  rw [List.map_map] at hcolumn
  have hothers : ∀ name ∈ factors, prepared.column name = data.column name := fun name hname =>
    Dataset.column_withField_of_ne hscaled fun heq => hfield (heq ▸ hname)
  have hscale : 100 / r ≠ 0 := div_ne_zero (by norm_num) hne
  refine ⟨prepared, _, prepare_eq_ok.mpr ⟨_, _, hvalues, hr, hprepared, rfl, rfl⟩, ?_, hothers,
    Corresponds.of_withNumericField hscale hreals hscaled hfield
      (Dataset.size_withField hscaled)⟩
  rw [Dataset.numericColumn_of_numbers hcolumn]
  refine ⟨?_, rfl⟩
  rw [List.forall_mem_map]
  exact fun _ _ => rfl

section

variable {given : Option Exact} {sense : Sense} {r : ℝ}
  (hkeep : Variance.KeepsIndependent data factors) (hfield : Deviation.fieldName target ∉ factors)
  (hreference : ∀ values, data.numericColumn target = .ok values →
    Deviation.reference target values given sense = .ok (real r))

include hkeep hfield hreference

theorem exists_normalized {given' : Option Exact} {sense' : Sense} {raw : Analysis Exact}
    (hraw : run d data target factors ⟨false, given', sense'⟩ = .ok raw) :
    ∃ normalized, run d data target factors ⟨true, given, sense⟩ = .ok normalized ∧
      normalized.table.effects = raw.table.effects.map (Effect.rescale ((100 / r) ^ 2)) ∧
      normalized.table.residual = raw.table.residual.rescale ((100 / r) ^ 2) ∧
      normalized.table.observations = raw.table.observations ∧
      normalized.postHoc.entries =
        raw.postHoc.entries.map (FactorOutcome.rescale (100 / r) (-100)) := by
  obtain ⟨_, _, _, table, hprepare, htable, rfl⟩ := run_eq_ok.mp hraw
  obtain ⟨rfl, rfl, rfl⟩ := prepare_eq_ok_of_raw.mp hprepare
  obtain ⟨whole, hwhole, rfl⟩ := (Variance.analyze_eq_ok hkeep).mp htable
  have hreals := (Variance.multiWay_eq_ok.mp hwhole).1
  obtain ⟨prepared, e, hprepared, hvalues, hothers, h⟩ :=
    exists_deviations hfield hreference hreals
  have hkeep' := hkeep.congr (Variance.testableFactors_congr hothers)
  have hwhole' := Variance.multiWay_rescale h hkeep hkeep' hwhole
  have htable' := (Variance.analyze_eq_ok hkeep').mpr ⟨_, hwhole', rfl⟩
  refine ⟨_, run_eq_ok.mpr ⟨_, _, _, _, hprepared, htable', rfl⟩, rfl, rfl, rfl, ?_⟩
  exact PostHoc.run_rescale (-100) h.scale_ne
    (Dataset.numericColumn_eq_ok.mpr ⟨hreals, (ofVector_eq_map _).symm⟩) hvalues
    (fun name hname => Dataset.ofDataset_congr (hothers name hname)) rfl

theorem exists_raw (given' : Option Exact) (sense' : Sense) {normalized : Analysis Exact}
    (hnormalized : run d data target factors ⟨true, given, sense⟩ = .ok normalized) :
    ∃ raw, run d data target factors ⟨false, given', sense'⟩ = .ok raw := by
  obtain ⟨_, _, _, table, hprepare, htable, rfl⟩ := run_eq_ok.mp hnormalized
  obtain ⟨values, _, hvalues, -⟩ := prepare_eq_ok.mp hprepare
  have hreals := (Dataset.numericColumn_eq_ok.mp hvalues).1
  obtain ⟨prepared, e, hprepared, -, hothers, h⟩ := exists_deviations hfield hreference hreals
  rw [hprepared] at hprepare
  cases hprepare
  have hkeep' := hkeep.congr (Variance.testableFactors_congr hothers)
  obtain ⟨whole, hwhole, rfl⟩ := (Variance.analyze_eq_ok hkeep').mp htable
  -- The values are the deviations on the inverse scale.
  have hwhole' := Variance.multiWay_rescale h.symm hkeep' hkeep hwhole
  have htable' := (Variance.analyze_eq_ok hkeep).mpr ⟨_, hwhole', rfl⟩
  exact ⟨_, run_eq_ok.mpr
    ⟨_, _, _, _, prepare_eq_ok_of_raw.mpr ⟨rfl, rfl, rfl⟩, htable', rfl⟩⟩

/-- An analysis of relative deviations ends where that of the values does, in the same verdicts:
every sum of squares is multiplied by the square of the scale, every difference of means by the
scale, and nothing else changes. -/
theorem run_normalized (given' : Option Exact) (sense' : Sense) :
    ((∃ normalized, run d data target factors ⟨true, given, sense⟩ = .ok normalized) ↔
      ∃ raw, run d data target factors ⟨false, given', sense'⟩ = .ok raw) ∧
    ∀ normalized raw, run d data target factors ⟨true, given, sense⟩ = .ok normalized →
      run d data target factors ⟨false, given', sense'⟩ = .ok raw →
      normalized.table.effects = raw.table.effects.map (Effect.rescale ((100 / r) ^ 2)) ∧
      normalized.table.residual = raw.table.residual.rescale ((100 / r) ^ 2) ∧
      normalized.table.observations = raw.table.observations ∧
      normalized.postHoc.entries =
        raw.postHoc.entries.map (FactorOutcome.rescale (100 / r) (-100)) := by
  refine ⟨⟨?_, ?_⟩, ?_⟩
  · rintro ⟨normalized, hnormalized⟩
    exact exists_raw hkeep hfield hreference given' sense' hnormalized
  · rintro ⟨raw, hraw⟩
    obtain ⟨normalized, hnormalized, -⟩ := exists_normalized hkeep hfield hreference hraw
    exact ⟨normalized, hnormalized⟩
  · intro normalized raw hnormalized hraw
    obtain ⟨other, hother, hsame⟩ := exists_normalized hkeep hfield hreference hraw
    rw [hnormalized] at hother
    cases hother
    exact hsame

end

end Analysis

end

/-! ## The sample against a negative reference -/

namespace Analysis

open Sample

theorem exists_raw_sample : ∃ raw, run Distribution.exactFisher Sample.data "y" ["a", "b"]
    ⟨false, none, .higherIsBetter⟩ = .ok raw := by
  obtain ⟨whole, hwhole⟩ := exists_table
  have htable := (Variance.analyze_eq_ok keeps).mpr ⟨whole, hwhole, rfl⟩
  exact ⟨_, run_eq_ok.mpr
    ⟨_, _, _, _, prepare_eq_ok_of_raw.mpr ⟨rfl, rfl, rfl⟩, htable, rfl⟩⟩

theorem run_normalized_sample :
    Variance.KeepsIndependent Sample.data ["a", "b"] ∧
    Deviation.fieldName "y" ∉ ["a", "b"] ∧
    (∀ values, Deviation.reference "y" values (some (real (-2))) .lowerIsBetter =
      .ok (real (-2))) ∧
    ∃ normalized raw,
      run Distribution.exactFisher Sample.data "y" ["a", "b"]
        ⟨true, some (real (-2)), .lowerIsBetter⟩ = .ok normalized ∧
      run Distribution.exactFisher Sample.data "y" ["a", "b"]
        ⟨false, none, .higherIsBetter⟩ = .ok raw ∧
      normalized.table.effects = raw.table.effects.map (Effect.rescale ((100 / -2) ^ 2)) ∧
      normalized.table.residual = raw.table.residual.rescale ((100 / -2) ^ 2) ∧
      normalized.table.observations = raw.table.observations ∧
      normalized.postHoc.entries =
        raw.postHoc.entries.map (FactorOutcome.rescale (100 / -2) (-100)) := by
  have hfield : Deviation.fieldName "y" ∉ ["a", "b"] := by decide
  have hreference : ∀ values, Deviation.reference "y" values (some (real (-2))) .lowerIsBetter =
      .ok (real (-2)) := by
    intro values
    refine Deviation.checkReference_eq_ok.mpr ⟨?_, rfl, rfl⟩
    simp [Scalar.isZero]
  obtain ⟨hiff, hsame⟩ := run_normalized (d := Distribution.exactFisher) keeps hfield
    (fun values _ => hreference values) none .higherIsBetter
  obtain ⟨raw, hraw⟩ := exists_raw_sample
  obtain ⟨normalized, hnormalized⟩ := hiff.mpr ⟨raw, hraw⟩
  exact ⟨keeps, hfield, hreference, normalized, raw, hnormalized, hraw,
    hsame normalized raw hnormalized hraw⟩

end Analysis

end Significance
