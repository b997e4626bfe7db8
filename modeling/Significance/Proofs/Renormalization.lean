import Significance.Proofs.Normalization
import Significance.Proofs.OtherFields
import Significance.Proofs.Records

/-! # Deviations of deviations' data

Relative deviations add one field and are found from another one. So their data give the same
deviations again, whatever the reference, and an analysis or a comparison of deviations is one of
that field in these data. Against the best value none is better. -/

namespace Significance

open Success

section

variable {α : Type}

namespace Dataset

variable {data data' : Dataset α} {name : String} {names : List String}

/-- A field that was added or replaced is replaced as if it had not been there. -/
theorem withField_withField {values : List (Value α)} (h : data.withField name values = .ok data')
    (last : List (Value α)) : data'.withField name last = data.withField name last := by
  obtain ⟨hlength, rfl⟩ := withField_eq_ok.mp h
  have hsize := (size_withField h).symm
  unfold withField
  rw [hsize]
  by_cases hlast : last.length = data.size
  · rw [if_pos hlast, if_pos hlast]
    congr 2
    apply List.ext_getElem
    · simp [hlength, size]
    · intro i hi hi'
      simp
  · rw [if_neg hlast, if_neg hlast]

/-- Each record, in its place, has its field added or replaced. -/
theorem forall₂_withField {values : List (Value α)} (h : data.withField name values = .ok data') :
    List.Forall₂ (fun record record' => ∃ value ∈ values, record' = record.insert name value)
      data.records data'.records := by
  obtain ⟨hlength, rfl⟩ := withField_eq_ok.mp h
  have hpairs : List.Forall₂
      (fun record record' => ∃ value ∈ values, record' = record.insert name value)
      ((data.records.zip values).map Prod.fst)
      ((data.records.zip values).map fun pair => pair.1.insert name pair.2) := by
    rw [List.forall₂_map_left_iff, List.forall₂_map_right_iff, List.forall₂_same]
    intro pair hpair
    exact ⟨pair.2, (List.of_mem_zip hpair).2, rfl⟩
  rwa [List.map_fst_zip (Nat.le_of_eq hlength.symm)] at hpairs

/-- Required fields are read off the columns. -/
theorem requireFields_eq_ok_iff_column :
    data.requireFields names = .ok () ↔
      ∀ name ∈ names, ∀ value ∈ data.column name, value.isSome := by
  have hcolumn : ∀ name, (∀ value ∈ data.column name, value.isSome) ↔
      ∀ i, (data.record i).contains name := by
    intro name
    rw [column, List.forall_mem_map, ← ofFn_record, List.forall_mem_ofFn_iff]
    rfl
  simp only [requireFields_eq_ok, hcolumn]
  exact ⟨fun h name hname i => h i name hname, fun h i name hname => h name hname i⟩

end Dataset

namespace Deviation

variable [Scalar α] {data data' : Dataset α} {target field : String} {given : Option α}
  {sense : Sense}

theorem ne_fieldName (target : String) : target ≠ fieldName target := by
  intro h
  have hlength := congrArg String.length h
  simp [fieldName] at hlength

section

variable (h : normalize data target given sense = .ok (data', field))

include h

theorem column_of_normalize {name : String} (hname : name ≠ fieldName target) :
    data'.column name = data.column name := by
  obtain ⟨_, _, -, -, hdata', -⟩ := normalize_eq_ok.mp h
  exact Dataset.column_withField_of_ne hdata' hname

/-- The fields that are in the records stay there, beside the deviations. -/
theorem requireFields_of_normalize {names names' : List String}
    (hnames : data.requireFields names = .ok ())
    (hother : ∀ name ∈ names', name ≠ field → name ∈ names) :
    data'.requireFields names' = .ok () := by
  obtain ⟨_, _, -, -, hdata', rfl⟩ := normalize_eq_ok.mp h
  rw [Dataset.requireFields_eq_ok_iff_column] at hnames ⊢
  intro name hname value hvalue
  by_cases hown : name = fieldName target
  · rw [hown, Dataset.column_withField_self hdata'] at hvalue
    obtain ⟨x, -, rfl⟩ := List.mem_map.mp hvalue
    rfl
  · rw [column_of_normalize h hown] at hvalue
    exact hnames name (hother name hname hown) value hvalue

/-- Only the field of the deviations is added to a record or replaced in it. -/
theorem forall₂_of_normalize :
    List.Forall₂ (fun record record' => ∃ x, record' = record.insert field (.number x))
      data.records data'.records := by
  obtain ⟨values, r, -, -, hdata', rfl⟩ := normalize_eq_ok.mp h
  refine (Dataset.forall₂_withField hdata').imp ?_
  rintro record _ ⟨value, hvalue, rfl⟩
  obtain ⟨x, -, rfl⟩ := List.mem_map.mp hvalue
  exact ⟨x, rfl⟩

/-- The deviations are found from another field, so those that are there do not matter. -/
theorem normalize_of_normalize (given' : Option α) (sense' : Sense) :
    normalize data' target given' sense' = normalize data target given' sense' := by
  have hcolumn := column_of_normalize h (ne_fieldName target)
  obtain ⟨values, r, hvalues, -, hdata', -⟩ := normalize_eq_ok.mp h
  have hvalues' : data'.numericColumn target = .ok values := by
    rw [Dataset.numericColumn_eq, hcolumn, ← Dataset.numericColumn_eq, hvalues]
  have hagain : ∀ xs, data'.withNumericField (fieldName target) xs =
      data.withNumericField (fieldName target) xs :=
    fun xs => Dataset.withField_withField hdata' _
  rw [normalize, normalize, hvalues, hvalues', ok_bind, ok_bind]
  simp only [hagain]

end

end Deviation

/-! ## Analyses and comparisons of the field -/

variable [Scalar α] {data data' : Dataset α} {target field : String} {given : Option α}
  {sense : Sense}

/-- An analysis normalizes as it is told to, although it finds the reference beforehand. -/
theorem Analysis.prepare_eq_normalize (data : Dataset α) (target : String) (given : Option α)
    (sense : Sense) :
    ((prepare data target ⟨true, given, sense⟩).map fun (prepared, field, _) => (prepared, field)) =
      Deviation.normalize data target given sense := by
  rw [prepare, if_pos rfl]
  cases hvalues : data.numericColumn target with
  | error e =>
      rw [Deviation.normalize, hvalues]
      rfl
  | ok values =>
      cases hr : Deviation.reference target values given sense with
      | error e =>
          rw [Deviation.normalize, hvalues, ok_bind, ok_bind, hr]
          rfl
      | ok r =>
          -- The reference is given to the deviations, which check it once more.
          have hgiven : Deviation.reference target values (some r) sense = .ok r :=
            Deviation.reference_of_eq_ok hr
          simp only [Deviation.normalize, hvalues, hr, hgiven, ok_bind]
          cases data.withNumericField (Deviation.fieldName target) (Deviation.relative values r) with
          | error e => rfl
          | ok deviations => rfl

section

variable (h : Deviation.normalize data target given sense = .ok (data', field))

include h

theorem Analysis.exists_prepare_of_normalize :
    ∃ r, prepare data target ⟨true, given, sense⟩ = .ok (data', field, some r) := by
  obtain ⟨values, r, hvalues, hr, hdata', rfl⟩ := Deviation.normalize_eq_ok.mp h
  exact ⟨r, prepare_eq_ok.mpr ⟨values, r, hvalues, hr, hdata', rfl, rfl⟩⟩

/-- An analysis of deviations is one of their field, in the data with that field. -/
theorem Analysis.run_of_normalize :
    ∃ r, ∀ d factors, run d data target factors ⟨true, given, sense⟩ =
      (run d data' field factors ⟨false, given, sense⟩).map fun analysis =>
        { analysis with target, normalized := true, reference := some r } := by
  obtain ⟨r, hprepare⟩ := exists_prepare_of_normalize h
  refine ⟨r, ?_⟩
  intro d factors
  have hraw : prepare data' field ⟨false, given, sense⟩ = .ok (data', field, none) := rfl
  rw [run, run, hprepare, hraw, ok_bind, ok_bind]
  apply bind_eq_map_bind
  intro table _
  rfl

/-- A comparison of deviations is one of their field, in the data with that field, once the fields
are known to be in the records. -/
theorem Comparison.run_of_normalize (d : Distribution α) (x : String) (hue : Option String)
    (clean : Bool) :
    run d data x target hue ⟨true, given, sense, clean⟩ = (do
      data.requireFields ([x, target] ++ hue.toList)
      (run d data' x field hue ⟨false, given, sense, clean⟩).map fun comparison =>
        { comparison with normalized := true }) := by
  rw [run, if_pos rfl, h, ok_bind]
  cases hfields : data.requireFields ([x, target] ++ hue.toList) with
  | error e => rfl
  | ok _ =>
      -- The records have the other fields still, so the comparison of the field finds them.
      have hfields' : data'.requireFields ([x, field] ++ hue.toList) = .ok () := by
        apply Deviation.requireFields_of_normalize h hfields
        intro name hname hne
        rcases List.mem_cons.mp hname with rfl | hname
        · exact List.mem_cons_self
        · have hhue := List.mem_of_ne_of_mem hne hname
          exact List.mem_cons_of_mem x (List.mem_cons_of_mem target hhue)
      rw [ok_bind, ok_bind, run, hfields', ok_bind, if_neg Bool.false_ne_true]
      apply bind_eq_map_bind
      intro values _
      apply bind_eq_map_bind
      intro xs _
      apply bind_eq_map_bind
      intro hues _
      rfl

end

/-! ## Deviations from the best value -/

/-- One value is at least as good as another. -/
def Sense.NoWorse : Sense → ℝ → ℝ → Prop
  | .lowerIsBetter, x, y => x ≤ y
  | .higherIsBetter, x, y => y ≤ x

theorem Sense.NoWorse.antisymm {x y : ℝ} (hxy : sense.NoWorse x y) (hyx : sense.NoWorse y x) :
    x = y := by
  cases sense with
  | lowerIsBetter => exact le_antisymm hxy hyx
  | higherIsBetter => exact le_antisymm hyx hxy

/-- The distance from a value, on any scale, is no better than zero if what lies there is not. -/
theorem Sense.NoWorse.zero_mul_sub {c x y : ℝ} (h : sense.NoWorse x y) (hc : 0 < c) :
    sense.NoWorse 0 (c * (y - x)) := by
  cases sense with
  | lowerIsBetter => exact mul_nonneg hc.le (sub_nonneg.mpr h)
  | higherIsBetter => exact mul_nonpos_of_nonneg_of_nonpos hc.le (sub_nonpos.mpr h)

namespace Deviation

open Exact

variable [Wording]

theorem exists_best_real (sense : Sense) {ys : List ℝ} (h : ys ≠ []) :
    ∃ r ∈ ys, best sense (ys.map real) = real r ∧ ∀ y ∈ ys, sense.NoWorse r y := by
  cases sense with
  | lowerIsBetter => exact exists_least_real h
  | higherIsBetter => exact exists_greatest_real h

/-- The reference of a field of numbers, unless it is given, is the best of them. -/
theorem noWorse_of_reference {ys : List ℝ} {r : ℝ}
    (h : reference target (ys.map real) none sense = .ok (real r)) :
    r ∈ ys ∧ ∀ y ∈ ys, sense.NoWorse r y := by
  have hne : ys ≠ [] := by
    rintro rfl
    cases h
  obtain ⟨x, hmem, hbest, hall⟩ := exists_best_real sense hne
  rw [reference, if_neg (by simpa using hne), hbest, checkReference_eq_ok, real_inj] at h
  obtain ⟨-, -, rfl⟩ := h
  exact ⟨hmem, hall⟩

/-- Against a positive best value no deviation is better than zero, and only the best ones are
zero. -/
theorem exists_deviations_of_best {data : Dataset Exact} {values : List Exact} {r : ℝ}
    (hvalues : data.numericColumn target = .ok values)
    (hr : reference target values none sense = .ok (real r)) (hpos : 0 < r) :
    ∃ data' w, normalize data target none sense = .ok (data', fieldName target) ∧
      data'.numericColumn (fieldName target) = .ok (ofVector w) ∧
      ∀ i : Fin data.size, sense.NoWorse 0 (w i) ∧
        (w i = 0 ↔ ∀ j, sense.NoWorse (data.reals target i) (data.reals target j)) := by
  obtain ⟨hreals, rfl⟩ := Dataset.numericColumn_eq_ok.mp hvalues
  let w (i : Fin data.size) : ℝ := 100 / r * data.reals target i + -100
  have hrelative : relative (ofVector (data.reals target)) (real r) = ofVector w := by
    rw [ofVector_eq_map, relative_real hpos.ne', List.map_ofFn, ofVector_eq_map]
    rfl
  have hlength : (ofVector w).length = data.size := length_ofVector w
  obtain ⟨data', hdata'⟩ := Dataset.exists_withNumericField hlength (fieldName target)
  refine ⟨data', w, normalize_eq_ok.mpr ⟨_, _, hvalues, hr, hrelative ▸ hdata', rfl⟩, ?_, ?_⟩
  · have hcolumn := Dataset.column_withField_self hdata'
    rw [List.map_map] at hcolumn
    rw [Dataset.numericColumn_of_numbers hcolumn, ofVector_eq_map, List.forall_mem_map]
    exact ⟨fun _ _ => rfl, rfl⟩
  · intro i
    rw [ofVector_eq_map] at hr
    obtain ⟨hmem, hbest⟩ := noWorse_of_reference hr
    obtain ⟨k, rfl⟩ := List.mem_ofFn.mp hmem
    rw [List.forall_mem_ofFn_iff] at hbest
    have hscale : 0 < 100 / data.reals target k := div_pos (by norm_num) hpos
    have hw : w i = 100 / data.reals target k * (data.reals target i - data.reals target k) := by
      have hne := hpos.ne'
      simp only [w]
      field_simp
      ring
    have hzero : w i = 0 ↔ data.reals target i = data.reals target k := by
      rw [hw, mul_eq_zero_iff_left hscale.ne', sub_eq_zero]
    refine ⟨hw ▸ (hbest i).zero_mul_sub hscale, ?_⟩
    rw [hzero]
    constructor
    · intro heq
      rwa [heq]
    · intro hi
      exact (hi k).antisymm (hbest i)

end Deviation

end

/-! ## Normalization absorbs normalization -/

/-- Relative deviations add their own field to the records, in their order, and change no other. In
the data with it any deviations of the same field are what they were before, so the same ones change
nothing, and this is what an analysis and a comparison of the deviations work on. Against a positive
best value no deviation is better than zero, and those of the best values alone are zero. -/
theorem Deviation.normalize_absorbs :
    (∀ {α : Type} [Scalar α] (data : Dataset α) (target : String) (given : Option α)
      (sense : Sense),
      ((Analysis.prepare data target ⟨true, given, sense⟩).map
          fun (prepared, field, _) => (prepared, field)) = normalize data target given sense ∧
      ∀ data' field, normalize data target given sense = .ok (data', field) →
        field = target ++ "Rpd" ∧
        List.Forall₂ (fun record record' =>
            (∃ x, record'.get? field = some (.number x)) ∧
              ∀ name, name ≠ field → record'.get? name = record.get? name)
          data.records data'.records ∧
        (∀ given' sense',
          normalize data' target given' sense' = normalize data target given' sense') ∧
        normalize data' target given sense = .ok (data', field) ∧
        (∀ d factors analysis,
          Analysis.run d data target factors ⟨true, given, sense⟩ = .ok analysis →
            analysis.data = data' ∧ analysis.field = field) ∧
        (∃ r, ∀ d factors, Analysis.run d data target factors ⟨true, given, sense⟩ =
          (Analysis.run d data' field factors ⟨false, given, sense⟩).map fun analysis =>
            { analysis with target, normalized := true, reference := some r }) ∧
        ∀ d x hue clean, Comparison.run d data x target hue ⟨true, given, sense, clean⟩ = (do
          data.requireFields ([x, target] ++ hue.toList)
          (Comparison.run d data' x field hue ⟨false, given, sense, clean⟩).map fun comparison =>
            { comparison with normalized := true })) ∧
    ∀ [Exact.Wording] (data : Dataset Exact) (target : String) (sense : Sense)
      (values : List Exact) (r : ℝ), data.numericColumn target = .ok values →
      reference target values none sense = .ok (Exact.real r) → 0 < r →
      ∃ data' w, normalize data target none sense = .ok (data', fieldName target) ∧
        data'.numericColumn (fieldName target) = .ok (Exact.ofVector w) ∧
        ∀ i : Fin data.size, sense.NoWorse 0 (w i) ∧
          (w i = 0 ↔ ∀ j, sense.NoWorse (data.reals target i) (data.reals target j)) := by
  constructor
  · intro α _ data target given sense
    refine ⟨Analysis.prepare_eq_normalize data target given sense, ?_⟩
    intro data' field h
    have hfield : field = target ++ "Rpd" := by
      obtain ⟨_, _, -, -, -, hfield⟩ := normalize_eq_ok.mp h
      exact hfield
    refine ⟨hfield, ?_, normalize_of_normalize h, ?_, ?_, Analysis.run_of_normalize h,
      Comparison.run_of_normalize h⟩
    · refine (forall₂_of_normalize h).imp ?_
      rintro record _ ⟨x, rfl⟩
      refine ⟨⟨x, Record.get?_insert_self record field (.number x)⟩, ?_⟩
      intro name hname
      exact Record.get?_insert_of_ne record (.number x) hname
    · rw [normalize_of_normalize h, h]
    · intro d factors analysis hrun
      obtain ⟨r, hprepare⟩ := Analysis.exists_prepare_of_normalize h
      obtain ⟨_, _, _, _, hprepared, -, rfl⟩ := Analysis.run_eq_ok.mp hrun
      rw [hprepare] at hprepared
      cases hprepared
      exact ⟨rfl, rfl⟩
  · intro _ data target sense values r
    exact exists_deviations_of_best

open Sample in
theorem Deviation.normalize_absorbs_samples :
    (∃ data', normalize prices "cost" none .lowerIsBetter = .ok (data', "costRpd") ∧
      normalize data' "cost" none .lowerIsBetter = .ok (data', "costRpd") ∧
      normalize data' "cost" (some 0.0) .higherIsBetter =
        normalize prices "cost" (some 0.0) .higherIsBetter) ∧
    Sample.data.numericColumn "y" = .ok (Exact.ofVector (Sample.data.reals "y")) ∧
    ∃ r, reference "y" (Exact.ofVector (Sample.data.reals "y")) none .lowerIsBetter =
        .ok (Exact.real r) ∧ 0 < r ∧
      ∃ data' w, normalize Sample.data "y" none .lowerIsBetter = .ok (data', "yRpd") ∧
        data'.numericColumn "yRpd" = .ok (Exact.ofVector w) ∧
        ∀ i : Fin Sample.data.size, 0 ≤ w i ∧
          (w i = 0 ↔ ∀ j, Sample.data.reals "y" i ≤ Sample.data.reals "y" j) := by
  obtain ⟨hgeneral, hexact⟩ := normalize_absorbs
  constructor
  · have hnormalize : ((normalize prices "cost" none .lowerIsBetter).toOption).isSome := by
      decide +kernel
    obtain ⟨⟨data', field⟩, hdata'⟩ := Option.isSome_iff_exists.mp hnormalize
    rw [toOption_eq_some] at hdata'
    obtain ⟨rfl, -, hany, hsame, -⟩ :=
      (hgeneral prices "cost" none .lowerIsBetter).2 data' field hdata'
    exact ⟨data', hdata', hsame, hany (some 0.0) .higherIsBetter⟩
  · have hvalues : Sample.data.numericColumn "y" = .ok (Exact.ofVector (Sample.data.reals "y")) :=
      Dataset.numericColumn_eq_ok.mpr ⟨hasReals "y" (by simp), rfl⟩
    have hne : List.ofFn (Sample.data.reals "y") ≠ [] := List.cons_ne_nil _ _
    obtain ⟨r, hmem, hbest, -⟩ := exists_best_real .lowerIsBetter hne
    have hpos : 0 < r := by
      obtain ⟨i, rfl⟩ := List.mem_ofFn.mp hmem
      change Fin 8 at i
      fin_cases i <;> exact Int.cast_pos.mpr (by decide)
    have hr : reference "y" (Exact.ofVector (Sample.data.reals "y")) none .lowerIsBetter =
        .ok (Exact.real r) := by
      rw [Exact.ofVector_eq_map, reference, if_neg (by simpa using hne), hbest,
        checkReference_eq_ok]
      refine ⟨?_, rfl, rfl⟩
      simp [Scalar.isZero, hpos]
    exact ⟨hvalues, r, hr, hpos, hexact Sample.data "y" .lowerIsBetter _ r hvalues hr hpos⟩

end Significance
