import Significance.Analysis
import Significance.Proofs.Success

/-! # The field of the deviations

What is read off one field of the records depends on that field alone. So relative deviations, which
add one field or replace it, leave every other field and the groupings by it as they are. -/

namespace Significance

open Success

section

variable {α : Type}

namespace Dataset

/-- What the records hold in a field. -/
def column (data : Dataset α) (name : String) : List (Option (Value α)) :=
  data.records.map fun record => record.get? name

variable {data data' : Dataset α} {name : String}

theorem length_column (data : Dataset α) (name : String) :
    (data.column name).length = data.size :=
  List.length_map _

/-- The value of a record, if it has one. -/
def found (name : String) (i : ℕ) : Option (Value α) → Except (Error α) (Value α)
  | some value => .ok value
  | none => .error (.missingField name i)

theorem field_eq_found (record : Record (Value α)) (i : ℕ) (name : String) :
    field record i name = found name i (record.get? name) := by
  unfold field
  cases record.get? name with
  | none => rfl
  | some value => rfl

/-- Reading a field is reading what its column holds. -/
theorem mapM_field {β : Type} (data : Dataset α) (name : String)
    (read : ℕ → Value α → Except (Error α) β) :
    (data.records.zipIdx.mapM fun (record, i) => do read i (← field record i name)) =
      (data.column name).zipIdx.mapM fun (value, i) => found name i value >>= read i := by
  rw [column, List.zipIdx_map, List.mapM_map]
  simp only [field_eq_found]
  rfl

/-! ## One field replaced -/

theorem withField_eq_ok {values : List (Value α)} :
    data.withField name values = .ok data' ↔ values.length = data.size ∧
      data' = ⟨(data.records.zip values).map fun (record, value) => record.insert name value⟩ := by
  unfold withField
  by_cases h : values.length = data.size
  · simp [h, eq_comm]
  · simp [h]

theorem column_withField_self {values : List (Value α)}
    (h : data.withField name values = .ok data') : data'.column name = values.map some := by
  obtain ⟨hlength, rfl⟩ := withField_eq_ok.mp h
  calc
    _ = ((data.records.zip values).map Prod.snd).map some := by
      rw [column, List.map_map, List.map_map]
      exact List.map_congr_left fun pair _ => Record.get?_insert_self pair.1 name pair.2
    _ = values.map some := by rw [List.map_snd_zip (Nat.le_of_eq hlength)]

theorem column_withField_of_ne {other : String} {values : List (Value α)}
    (h : data.withField name values = .ok data') (hne : other ≠ name) :
    data'.column other = data.column other := by
  obtain ⟨hlength, rfl⟩ := withField_eq_ok.mp h
  calc
    _ = ((data.records.zip values).map Prod.fst).map fun record => record.get? other := by
      rw [column, List.map_map, List.map_map]
      exact List.map_congr_left fun pair _ => Record.get?_insert_of_ne pair.1 pair.2 hne
    _ = data.column other := by
      rw [List.map_fst_zip (Nat.le_of_eq hlength.symm)]
      rfl

theorem size_withField {values : List (Value α)}
    (h : data.withField name values = .ok data') : data.size = data'.size := by
  rw [← length_column data' name, column_withField_self h, List.length_map]
  exact (withField_eq_ok.mp h).1.symm

theorem exists_withNumericField {values : List α} (h : values.length = data.size) (name : String) :
    ∃ data', data.withNumericField name values = .ok data' :=
  ⟨_, withField_eq_ok.mpr ⟨(List.length_map _).trans h, rfl⟩⟩

/-! ## Equal fields -/

variable [Scalar α]

theorem numericColumn_eq (data : Dataset α) (name : String) :
    data.numericColumn name =
      (data.column name).zipIdx.mapM fun (value, i) => found name i value >>= finiteNumber name i :=
  data.mapM_field name fun i => finiteNumber name i

theorem categoricalColumn_congr (h : data'.column name = data.column name) :
    data'.categoricalColumn name = data.categoricalColumn name := by
  have hread : ∀ data : Dataset α, data.categoricalColumn name =
      (data.column name).zipIdx.mapM fun (value, i) => found name i value >>= category name i :=
    fun data => data.mapM_field name fun i => category name i
  rw [hread, hread, h]

theorem ofDataset_congr (h : data'.column name = data.column name) :
    Factor.ofDataset data' name = Factor.ofDataset data name := by
  rw [Factor.ofDataset, categoricalColumn_congr h]
  rfl

/-- A column of numbers can be read where all are finite. -/
theorem numericColumn_of_numbers {xs ys : List α}
    (h : data.column name = xs.map fun x => some (.number x)) :
    data.numericColumn name = .ok ys ↔ (∀ x ∈ xs, Scalar.isFinite x) ∧ ys = xs := by
  have hread : ∀ pair ∈ xs.zipIdx, ∀ y,
      finiteNumber name pair.2 (.number pair.1) = .ok y ↔ Scalar.isFinite pair.1 ∧ y = pair.1 := by
    intro pair _ y
    by_cases hfinite : Scalar.isFinite pair.1
    · simp [finiteNumber, hfinite, eq_comm]
    · simp [finiteNumber, hfinite]
  have hfinite : (∀ pair ∈ xs.zipIdx, Scalar.isFinite pair.1) ↔ ∀ x ∈ xs, Scalar.isFinite x := by
    conv_rhs => rw [← List.zipIdx_map_fst 0 xs]
    rw [List.forall_mem_map]
  rw [numericColumn_eq, h, List.zipIdx_map, List.mapM_map]
  refine (mapM_eq_ok_map hread).trans ?_
  rw [hfinite, List.zipIdx_map_fst]

end Dataset

theorem Variance.testableFactors_congr [Scalar α] {data data' : Dataset α} {names : List String}
    (h : ∀ name ∈ names, data'.column name = data.column name) :
    testableFactors data' names = testableFactors data names := by
  apply mapM_congr
  intro name hname
  rw [Dataset.ofDataset_congr (h name hname)]

/-! ## Deviations -/

namespace Deviation

variable [Scalar α] {data prepared : Dataset α} {target field : String} {given : Option α}
  {sense : Sense}

theorem checkReference_eq_ok {x y : α} :
    checkReference target x = .ok y ↔
      Scalar.isZero x = false ∧ Scalar.isFinite x = true ∧ y = x := by
  unfold checkReference
  cases hzero : Scalar.isZero x with
  | true => simp
  | false =>
      cases hfinite : Scalar.isFinite x with
      | true => simp [eq_comm]
      | false => simp

/-- A reference that was found can be given. -/
theorem reference_of_eq_ok {values : List α} {r : α}
    (h : reference target values given sense = .ok r) : checkReference target r = .ok r := by
  have hchecked : ∃ x, checkReference target x = .ok r := by
    cases given with
    | some x => exact ⟨x, h⟩
    | none =>
        rw [reference] at h
        split at h
        · cases h
        · exact ⟨_, h⟩
  obtain ⟨x, hx⟩ := hchecked
  obtain ⟨hzero, hfinite, rfl⟩ := checkReference_eq_ok.mp hx
  exact hx

theorem normalize_eq_ok :
    normalize data target given sense = .ok (prepared, field) ↔
      ∃ values r, data.numericColumn target = .ok values ∧
        reference target values given sense = .ok r ∧
        data.withNumericField (fieldName target) (relative values r) = .ok prepared ∧
        field = fieldName target := by
  simp only [normalize, bind_eq_ok, pure_eq_ok, Prod.mk.injEq]
  constructor
  · rintro ⟨values, hvalues, r, hr, _, hprepared, rfl, rfl⟩
    exact ⟨values, r, hvalues, hr, hprepared, rfl⟩
  · rintro ⟨values, r, hvalues, hr, hprepared, rfl⟩
    exact ⟨values, hvalues, r, hr, _, hprepared, rfl, rfl⟩

end Deviation

namespace Analysis

variable [Scalar α] {d : Distribution α} {data prepared : Dataset α} {target field : String}
  {reference : Option α}

/-- The data for an analysis of deviations. -/
theorem prepare_eq_ok {given : Option α} {sense : Sense} :
    prepare data target ⟨true, given, sense⟩ = .ok (prepared, field, reference) ↔
      ∃ values r, data.numericColumn target = .ok values ∧
        Deviation.reference target values given sense = .ok r ∧
        data.withNumericField (Deviation.fieldName target) (Deviation.relative values r) =
          .ok prepared ∧
        field = Deviation.fieldName target ∧ reference = some r := by
  simp only [prepare, ↓reduceIte, bind_eq_ok, pure_eq_ok, Prod.mk.injEq, Prod.exists,
    Deviation.normalize_eq_ok]
  constructor
  · -- The reference is resolved twice: the deviations are given the one found before.
    rintro ⟨values, hvalues, r, hr, _, _, ⟨_, _, hvalues', hr', hprepared, rfl⟩, rfl, rfl, rfl⟩
    rw [hvalues] at hvalues'
    cases hvalues'
    have hgiven : Deviation.reference target values (some r) sense = .ok r :=
      Deviation.reference_of_eq_ok hr
    rw [hgiven] at hr'
    cases hr'
    exact ⟨values, r, hvalues, hr, hprepared, rfl, rfl⟩
  · rintro ⟨values, r, hvalues, hr, hprepared, rfl, rfl⟩
    have hgiven : Deviation.reference target values (some r) sense = .ok r :=
      Deviation.reference_of_eq_ok hr
    exact ⟨values, hvalues, r, hr, _, _, ⟨values, r, hvalues, hgiven, hprepared, rfl⟩, rfl, rfl, rfl⟩

theorem prepare_eq_ok_of_raw {given : Option α} {sense : Sense} :
    prepare data target ⟨false, given, sense⟩ = .ok (prepared, field, reference) ↔
      prepared = data ∧ field = target ∧ reference = none := by
  simp only [prepare, Bool.false_eq_true, ↓reduceIte, pure_eq_ok, Prod.mk.injEq]
  constructor
  · rintro ⟨rfl, rfl, rfl⟩
    exact ⟨rfl, rfl, rfl⟩
  · rintro ⟨rfl, rfl, rfl⟩
    exact ⟨rfl, rfl, rfl⟩

theorem run_eq_ok {factors : List String} {options : Options α} {analysis : Analysis α} :
    run d data target factors options = .ok analysis ↔
      ∃ prepared field reference table,
        prepare data target options = .ok (prepared, field, reference) ∧
        Variance.analyze d prepared field factors = .ok table ∧
        analysis = ⟨target, field, options.normalize, reference, factors, table,
          PostHoc.run d prepared field table factors, prepared⟩ := by
  simp only [run, bind_eq_ok, pure_eq_ok, Prod.exists]
  constructor
  · rintro ⟨prepared, field, reference, hprepared, table, htable, rfl⟩
    exact ⟨prepared, field, reference, table, hprepared, htable, rfl⟩
  · rintro ⟨prepared, field, reference, table, hprepared, htable, rfl⟩
    exact ⟨prepared, field, reference, hprepared, table, htable, rfl⟩

end Analysis

end

end Significance
