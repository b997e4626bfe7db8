import Mathlib.Data.Finset.Card
import Mathlib.Data.Fintype.Basic
import Mathlib.Data.List.OfFn
import Mathlib.Order.Basic
import Significance.Factor
import Significance.Proofs.Exact
import Significance.Proofs.Success

/-! # Columns and groupings of a dataset

A column can be read exactly when every record has a fit value in it. The codes of a factor tell
records apart exactly when their labels do. -/

namespace Significance

open Success

/-! ## Codes of factors -/

namespace Factor

def code (factor : Factor) {n : ℕ} (i : Fin n) : ℕ :=
  factor.codes.getD i 0

/-- A factor of `n` records, each with the position of a level as its code, and no level without
records. -/
structure Coded (n : ℕ) (factor : Factor) : Prop where
  size_eq : factor.codes.length = n
  code_lt : ∀ i : Fin n, factor.code i < factor.levels.length
  exists_code : ∀ c < factor.levels.length, ∃ i : Fin n, factor.code i = c

theorem codes_eq_ofFn {n : ℕ} {factor : Factor} (h : factor.codes.length = n) :
    factor.codes = List.ofFn fun i : Fin n => factor.code i := by
  apply List.ext_getElem
  · simp [h]
  · intro i hi hi'
    simp [code, hi]

theorem Coded.codes_eq {n : ℕ} {factor : Factor} (h : Coded n factor) :
    factor.codes = List.ofFn fun i : Fin n => factor.code i :=
  codes_eq_ofFn h.size_eq

variable {n : ℕ} (name : String) (label : Fin n → String)

/-- Every label is found among the levels, so its code is the place of its level. -/
theorem codes_ofLabels (labels : List String) :
    (ofLabels name labels).codes = labels.map (ofLabels name labels).levels.idxOf := by
  apply List.map_congr_left
  intro label hlabel
  have hmem : label ∈ Text.sortedDistinct labels := Text.mem_sortedDistinct.mpr hlabel
  have hget : (Text.sortedDistinct labels)[(Text.sortedDistinct labels).idxOf label]? =
      some label := List.getElem?_idxOf hmem
  rw [(Text.position?_eq_some_iff (Text.pairwise_sortedDistinct labels)).mpr hget]
  rfl

theorem code_ofLabels (i : Fin n) :
    (ofLabels name (List.ofFn label)).code i =
      (ofLabels name (List.ofFn label)).levels.idxOf (label i) := by
  simp [code, codes_ofLabels]

theorem mem_levels {text : String} :
    text ∈ (ofLabels name (List.ofFn label)).levels ↔ ∃ i, label i = text := by
  rw [ofLabels, Text.mem_sortedDistinct, List.mem_ofFn]

theorem nodup_levels (labels : List String) : (ofLabels name labels).levels.Nodup :=
  (Text.pairwise_sortedDistinct labels).imp fun {s t} (h : s < t) (heq : s = t) =>
    String.lt_irrefl t (heq ▸ h)

theorem coded_ofLabels : Coded n (ofLabels name (List.ofFn label)) := by
  constructor
  · simp [ofLabels]
  · intro i
    rw [code_ofLabels]
    exact List.idxOf_lt_length_of_mem ((mem_levels name label).mpr ⟨i, rfl⟩)
  · intro c hc
    obtain ⟨i, hi⟩ := (mem_levels name label).mp (List.getElem_mem hc)
    refine ⟨i, ?_⟩
    rw [code_ofLabels, hi]
    exact (nodup_levels name _).idxOf_getElem c hc

/-- Records have one code exactly if they have one label. -/
theorem code_ofLabels_eq_iff {i j : Fin n} :
    (ofLabels name (List.ofFn label)).code i = (ofLabels name (List.ofFn label)).code j ↔
      label i = label j := by
  rw [code_ofLabels, code_ofLabels]
  exact List.idxOf_inj ((mem_levels name label).mpr ⟨i, rfl⟩)

theorem length_levels :
    (ofLabels name (List.ofFn label)).levels.length = (Finset.univ.image label).card := by
  rw [← List.toFinset_card_of_nodup (nodup_levels name _)]
  congr 1
  ext text
  rw [List.mem_toFinset, mem_levels]
  simp

theorem ensureTestable_eq_ok {α : Type} {factor : Factor} :
    ensureTestable (α := α) factor = .ok () ↔ 2 ≤ factor.levels.length := by
  unfold ensureTestable
  split
  · next h => simp [h]
  · next h => simp [h]
  · next hnil hone =>
    constructor
    · intro _
      rcases hlevels : factor.levels with _ | ⟨first, _ | ⟨second, rest⟩⟩
      · exact absurd hlevels hnil
      · exact absurd hlevels (hone first)
      · simp
    · intro _
      rfl

end Factor

/-! ## Columns of datasets -/

namespace Dataset

variable {α : Type}

def record (data : Dataset α) (i : Fin data.size) : Record (Value α) :=
  data.records.get ⟨i, i.isLt⟩

theorem ofFn_record (data : Dataset α) : List.ofFn data.record = data.records :=
  List.ofFn_get data.records

/-- A column can be read if every record has a fit value. -/
theorem mapM_zipIdx_eq_ok {ε γ : Type} {data : Dataset α}
    {read : Record (Value α) → ℕ → Except ε γ} {fit : Record (Value α) → Prop}
    {value : Record (Value α) → γ} (h : ∀ record i y, read record i = .ok y ↔
      fit record ∧ y = value record) {values : List γ} :
    (data.records.zipIdx.mapM fun (record, i) => read record i) = .ok values ↔
      (∀ i, fit (data.record i)) ∧ values = List.ofFn fun i => value (data.record i) := by
  have hvalues : data.records.zipIdx.map (fun x => value x.1) =
      List.ofFn fun i => value (data.record i) := by
    calc
      data.records.zipIdx.map (fun x => value x.1)
          = (data.records.zipIdx.map Prod.fst).map value := by
        rw [List.map_map]
        rfl
      _ = (List.ofFn data.record).map value := by rw [List.zipIdx_map_fst, ofFn_record]
      _ = List.ofFn fun i => value (data.record i) := by
        rw [List.map_ofFn]
        rfl
  have hfit : (∀ x ∈ data.records.zipIdx, fit x.1) ↔ ∀ i, fit (data.record i) := by
    have hmem : (∀ record ∈ data.records.zipIdx.map Prod.fst, fit record) ↔
        ∀ i, fit (data.record i) := by
      rw [List.zipIdx_map_fst, ← ofFn_record, List.forall_mem_ofFn_iff]
    rw [← hmem, List.forall_mem_map]
  rw [mapM_eq_ok_map (p := fun x => fit x.1) (g := fun x => value x.1) fun x _ y => h x.1 x.2 y,
    hvalues, hfit]

/-! ## Levels -/

section Level

variable [Scalar α] {data : Dataset α}

/-- The label of a record in a field. -/
def level? (data : Dataset α) (i : Fin data.size) (name : String) : Option String :=
  ((data.record i).get? name).bind Value.label?

/-- Every record has a label in the field. -/
def HasLevels (data : Dataset α) (name : String) : Prop :=
  ∀ i, (data.level? i name).isSome

/-- The factor of a field with labels. -/
def grouping (data : Dataset α) (name : String) : Factor :=
  Factor.ofLabels name (List.ofFn fun i => (data.level? i name).getD "")

theorem categoricalColumn_eq_ok {name : String} {labels : List String} :
    data.categoricalColumn name = .ok labels ↔
      data.HasLevels name ∧ labels = List.ofFn fun i => (data.level? i name).getD "" := by
  have hread : ∀ (record : Record (Value α)) (i : ℕ) (label : String),
      (field record i name >>= category name i) = .ok label ↔
        ((record.get? name).bind Value.label?).isSome ∧
          label = ((record.get? name).bind Value.label?).getD "" := by
    intro record i label
    rw [field]
    cases record.get? name with
    | none => simp [bind, Except.bind]
    | some value =>
        cases hlabel : value.label? with
        | none => simp [bind, Except.bind, category, hlabel]
        | some text => simp [bind, Except.bind, category, hlabel, eq_comm]
  exact mapM_zipIdx_eq_ok hread

theorem ofDataset_eq_ok {name : String} {factor : Factor} :
    Factor.ofDataset data name = .ok factor ↔
      data.HasLevels name ∧ factor = data.grouping name := by
  simp only [Factor.ofDataset, bind_eq_ok, pure_eq_ok, categoricalColumn_eq_ok]
  constructor
  · rintro ⟨labels, ⟨hlevels, rfl⟩, rfl⟩
    exact ⟨hlevels, rfl⟩
  · rintro ⟨hlevels, rfl⟩
    exact ⟨_, ⟨hlevels, rfl⟩, rfl⟩

theorem coded_grouping (data : Dataset α) (name : String) :
    (data.grouping name).Coded data.size :=
  Factor.coded_ofLabels name _

/-- Where every record has a label, the codes tell the records apart as the labels do. -/
theorem HasLevels.code_eq_iff {name : String} (h : data.HasLevels name) {i j : Fin data.size} :
    (data.grouping name).code i = (data.grouping name).code j ↔
      data.level? i name = data.level? j name := by
  obtain ⟨s, hs⟩ := Option.isSome_iff_exists.mp (h i)
  obtain ⟨t, ht⟩ := Option.isSome_iff_exists.mp (h j)
  rw [grouping, Factor.code_ofLabels_eq_iff, hs, ht]
  simp

/-- The number of different labels in a field. -/
def levelCount (data : Dataset α) (name : String) : ℕ :=
  (Finset.univ.image fun i => data.level? i name).card

theorem size_pos_of_levelCount {name : String} (h : 0 < data.levelCount name) : 0 < data.size := by
  obtain ⟨_, hmem⟩ := Finset.card_pos.mp h
  obtain ⟨i, -, -⟩ := Finset.mem_image.mp hmem
  exact i.pos

theorem HasLevels.length_levels {name : String} (h : data.HasLevels name) :
    (data.grouping name).levels.length = data.levelCount name := by
  rw [grouping, Factor.length_levels, levelCount]
  have himage : (Finset.univ.image fun i => data.level? i name) =
      (Finset.univ.image fun i => (data.level? i name).getD "").image some := by
    rw [Finset.image_image]
    apply Finset.image_congr
    intro i _
    obtain ⟨s, hs⟩ := Option.isSome_iff_exists.mp (h i)
    simp [hs]
  rw [himage, Finset.card_image_of_injective _ (Option.some_injective String)]

end Level

/-! ## Numbers -/

section Number

variable [Exact.Wording] {data : Dataset Exact}

/-- Every record has a real number in the field. -/
def HasReals (data : Dataset Exact) (name : String) : Prop :=
  ∀ i, ∃ x : ℝ, (data.record i).get? name = some (.number x)

/-- The real number in a field, zero where there is none. -/
def realOf : Option (Value Exact) → ℝ
  | some (.number (.real x)) => x
  | _ => 0

def reals (data : Dataset Exact) (name : String) (i : Fin data.size) : ℝ :=
  realOf ((data.record i).get? name)

theorem finiteNumber_eq_ok {name : String} {i : ℕ} {value : Value Exact} {x : Exact} :
    finiteNumber name i value = .ok x ↔ ∃ r : ℝ, value = .number r ∧ x = r := by
  cases value with
  | number y =>
      by_cases hfinite : Scalar.isFinite y
      · obtain ⟨r, rfl⟩ := Exact.isFinite_iff.mp hfinite
        simp [finiteNumber, eq_comm]
      · have hreal : ¬∃ r : ℝ, y = r := fun h => hfinite (Exact.isFinite_iff.mpr h)
        simp only [finiteNumber, if_neg hfinite, reduceCtorEq, Value.number.injEq, false_iff]
        rintro ⟨r, hr, -⟩
        exact hreal ⟨r, hr⟩
  | null | bool | text | list => simp [finiteNumber]

theorem numericColumn_eq_ok {name : String} {values : List Exact} :
    data.numericColumn name = .ok values ↔
      data.HasReals name ∧ values = Exact.ofVector (data.reals name) := by
  have hread : ∀ (record : Record (Value Exact)) (i : ℕ) (x : Exact),
      (field record i name >>= finiteNumber name i) = .ok x ↔
        (∃ r : ℝ, record.get? name = some (.number r)) ∧
          x = Exact.real (realOf (record.get? name)) := by
    intro record i x
    rw [field]
    cases record.get? name with
    | none => simp [bind, Except.bind]
    | some value =>
        change finiteNumber name i value = .ok x ↔ _
        rw [finiteNumber_eq_ok]
        constructor
        · rintro ⟨r, rfl, rfl⟩
          exact ⟨⟨r, rfl⟩, rfl⟩
        · rintro ⟨⟨r, hr⟩, rfl⟩
          injection hr with hr
          exact ⟨r, hr, by rw [hr]; rfl⟩
  exact mapM_zipIdx_eq_ok hread

end Number

end Dataset

end Significance
