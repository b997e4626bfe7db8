import Mathlib.Algebra.BigOperators.Ring.List
import Mathlib.Tactic.FieldSimp
import Mathlib.Tactic.LinearCombination
import Significance.Proofs.Classification
import Significance.Proofs.Grouping
import Significance.Variance

/-! # Groups of real values

The means and deviations of groups of real numbers, and the groups of a factor as sums over the
records of a level. -/

namespace Significance

open Exact

/-! ## Samples -/

namespace Descriptive

noncomputable def average (xs : List ℝ) : ℝ :=
  xs.sum / xs.length

/-- The sum of the squared deviations from the average, zero for no values. -/
noncomputable def spread (xs : List ℝ) : ℝ :=
  (xs.map fun x => (x - average xs) ^ 2).sum

variable (scale shift : ℝ) {xs : List ℝ}

theorem average_map (h : xs ≠ []) :
    average (xs.map fun x => scale * x + shift) = scale * average xs + shift := by
  have hlength : (xs.length : ℝ) ≠ 0 := by
    rw [Nat.cast_ne_zero]
    exact (List.length_pos_of_ne_nil h).ne'
  have hsum : (xs.map fun x => scale * x + shift).sum = scale * xs.sum + xs.length * shift := by
    rw [List.sum_map_add, List.sum_map_mul_left, List.map_id', List.map_const', List.sum_replicate,
      nsmul_eq_mul]
  rw [average, average, hsum, List.length_map]
  field_simp

theorem spread_map (xs : List ℝ) :
    spread (xs.map fun x => scale * x + shift) = scale ^ 2 * spread xs := by
  by_cases h : xs = []
  · simp [h, spread]
  · rw [spread, average_map scale shift h, spread, List.map_map, ← List.sum_map_mul_left]
    congr 1
    apply List.map_congr_left
    intro x _
    simp only [Function.comp_apply]
    ring

theorem spread_nonneg (xs : List ℝ) : 0 ≤ spread xs := by
  apply List.sum_nonneg
  intro square hsquare
  obtain ⟨x, -, rfl⟩ := List.mem_map.mp hsquare
  exact sq_nonneg _

theorem average_replicate {n : ℕ} (hn : n ≠ 0) (x : ℝ) : average (List.replicate n x) = x := by
  have hn' : (n : ℝ) ≠ 0 := Nat.cast_ne_zero.mpr hn
  rw [average, List.sum_replicate, List.length_replicate, nsmul_eq_mul, mul_div_cancel_left₀ _ hn']

/-- Values deviate from their average exactly if they are not all equal. -/
theorem spread_pos_iff : 0 < spread xs ↔ ∃ x ∈ xs, ∃ y ∈ xs, x ≠ y := by
  constructor
  · intro hpos
    by_contra hnone
    push Not at hnone
    cases xs with
    | nil => simp [spread] at hpos
    | cons x xs =>
        have hsame : x :: xs = List.replicate (xs.length + 1) x :=
          List.eq_replicate_of_mem fun y hy => hnone y hy x List.mem_cons_self
        rw [spread, hsame, average_replicate (Nat.succ_ne_zero _)] at hpos
        simp at hpos
  · rintro ⟨x, hx, y, hy, hne⟩
    refine (spread_nonneg xs).lt_of_ne ?_
    intro hzero
    have hterm : ∀ z ∈ xs, (z - average xs) ^ 2 = 0 := by
      intro z hz
      have hle : (z - average xs) ^ 2 ≤ spread xs :=
        List.single_le_sum (by simp [sq_nonneg]) _ (List.mem_map_of_mem hz)
      exact le_antisymm (hle.trans_eq hzero.symm) (sq_nonneg _)
    have hmean : ∀ z ∈ xs, z = average xs := fun z hz =>
      sub_eq_zero.mp (sq_eq_zero_iff.mp (hterm z hz))
    exact hne ((hmean x hx).trans (hmean y hy).symm)

variable [Wording]

theorem mean_real (h : xs ≠ []) : mean (xs.map real) = real (average xs) := by
  have hlength : (xs.length : ℝ) ≠ 0 := by
    rw [Nat.cast_ne_zero]
    exact (List.length_pos_of_ne_nil h).ne'
  rw [mean, if_neg (by simpa using h), total_real, List.length_map, ofNat_eq, real_div _ hlength]
  rfl

theorem variation_real (xs : List ℝ) : variation (xs.map real) = real (spread xs) := by
  by_cases h : xs = []
  · subst h
    exact total_real []
  · have hmap : (xs.map real).map (fun v => Scalar.square (v - real (average xs))) =
        (xs.map fun x => (x - average xs) ^ 2).map real := by
      simp
    rw [variation, mean_real h, squaredDeviations, hmap, total_real]
    rfl

theorem pooledVariance_real (groups : List (List ℝ)) :
    pooledVariance (groups.map (List.map real)) =
      if groups.flatten.length ≤ groups.length then (Scalar.undefined, 0)
      else
        (real ((groups.map spread).sum / (groups.flatten.length - groups.length : ℕ)),
          groups.flatten.length - groups.length) := by
  have hsize : (groups.map (List.map real)).flatten.length = groups.flatten.length := by
    rw [← List.map_flatten, List.length_map]
  have hvariation : (groups.map (List.map real)).map variation =
      (groups.map spread).map real := by
    simp only [List.map_map]
    exact List.map_congr_left fun xs _ => variation_real xs
  rw [pooledVariance, hsize, List.length_map, hvariation, total_real]
  by_cases h : groups.flatten.length ≤ groups.length
  · rw [if_pos h, if_pos h]
  · have hdf : ((groups.flatten.length - groups.length : ℕ) : ℝ) ≠ 0 := by
      rw [Nat.cast_ne_zero]
      omega
    rw [if_neg h, if_neg h]
    dsimp only
    rw [ofNat_eq, real_div _ hdf]

end Descriptive

/-! ## The groups of a factor -/

namespace Factor

open Significance.Descriptive

variable {α β : Type} {factor : Factor}

theorem filterMap_ite_some (p : α → Prop) [DecidablePred p] (f : α → β) (xs : List α) :
    (xs.filterMap fun x => if p x then some (f x) else none) = (xs.filter fun x => p x).map f := by
  induction xs with
  | nil => rfl
  | cons x xs ih =>
      by_cases h : p x
      · simp [h, ih]
      · simp [h, ih]

theorem group_map (f : α → β) (values : List α) (code : ℕ) :
    factor.group (values.map f) code = (factor.group values code).map f := by
  rw [group, group, List.zip_map_right, List.filterMap_map, List.map_filterMap]
  congr 1
  funext ⟨c, v⟩
  by_cases h : c = code
  · simp [h]
  · simp [h]

theorem groups_map (f : α → β) (values : List α) :
    factor.groups (values.map f) = (factor.groups values).map (List.map f) := by
  rw [groups, groups, List.map_map]
  apply List.map_congr_left
  intro pair _
  exact group_map f values pair.2

theorem groups_eq_map_range (values : List α) :
    factor.groups values = (List.range factor.levels.length).map (factor.group values) := by
  rw [List.range_eq_range', ← List.zipIdx_map_snd 0 factor.levels, List.map_map]
  rfl

theorem length_groups (values : List α) :
    (factor.groups values).length = factor.levels.length := by
  rw [groups, List.length_map, List.length_zipIdx]

theorem length_group_eq_count {values : List α} (h : values.length = factor.size)
    (code : ℕ) : (factor.group values code).length = factor.codes.count code := by
  have hcode : ∀ pair : ℕ × α,
      (if pair.1 = code then some pair.2 else none).isSome = (pair.1 == code) := by
    intro pair
    by_cases hpair : pair.1 = code
    · simp [hpair]
    · simp [hpair]
  calc
    (factor.group values code).length
        = (factor.codes.zip values).countP fun pair => pair.1 == code := by
      rw [group, List.length_filterMap_eq_countP]
      exact congrArg (List.countP · _) (funext hcode)
    _ = ((factor.codes.zip values).map Prod.fst).countP (· == code) := by
      rw [List.countP_map]
      rfl
    _ = factor.codes.count code := by
      rw [List.map_fst_zip (Nat.le_of_eq h.symm)]
      rfl

theorem map_length_groups {values : List α} (h : values.length = factor.size) :
    (factor.groups values).map List.length = factor.levelCounts := by
  rw [groups, levelCounts, List.map_map]
  exact List.map_congr_left fun pair _ => length_group_eq_count h pair.2

/-! ## The groups of labels -/

/-- The values of the records with a label, in record order. -/
def valuesOf (labels : List String) (values : List α) (label : String) : List α :=
  ((labels.zip values).filter fun pair => pair.1 = label).map Prod.snd

section

variable {labels : List String} {values : List α}

theorem mem_valuesOf {label : String} {v : α} :
    v ∈ valuesOf labels values label ↔ (label, v) ∈ labels.zip values := by
  simp [valuesOf]

theorem length_valuesOf (h : values.length = labels.length) (label : String) :
    (valuesOf labels values label).length = labels.count label := by
  calc
    (valuesOf labels values label).length
        = (labels.zip values).countP fun pair => pair.1 = label := by
      rw [valuesOf, List.length_map, List.countP_eq_length_filter]
    _ = ((labels.zip values).map Prod.fst).countP fun own => own = label := by
      rw [List.countP_map]
      rfl
    _ = labels.count label := by
      rw [List.map_fst_zip (Nat.le_of_eq h.symm)]
      rfl

/-- Labels that stay apart have the same values under other names. -/
theorem valuesOf_rename {f : String → String}
    (hf : ∀ a ∈ labels, ∀ b ∈ labels, f a = f b → a = b) {label : String} (hlabel : label ∈ labels) :
    valuesOf (labels.map f) values (f label) = valuesOf labels values label := by
  rw [valuesOf, List.zip_map_left, List.filter_map, List.map_map, valuesOf]
  have hsame : ∀ pair ∈ labels.zip values, decide (f pair.1 = f label) = decide (pair.1 = label) := by
    intro pair hpair
    have hmem : pair.1 ∈ labels := (List.of_mem_zip hpair).1
    exact decide_eq_decide.mpr ⟨hf _ hmem _ hlabel, congrArg f⟩
  exact congrArg (List.map Prod.snd) (List.filter_congr hsame)

/-- Each group has the values of one label. -/
theorem groups_ofLabels (name : String) (labels : List String) (values : List α) :
    (ofLabels name labels).groups values =
      (ofLabels name labels).levels.map (valuesOf labels values) := by
  have hpick : ∀ (level : String) (code : ℕ), (ofLabels name labels).levels[code]? = some level →
      (ofLabels name labels).group values code = valuesOf labels values level := by
    intro level code hlevel
    obtain ⟨hlt, rfl⟩ := List.getElem?_eq_some_iff.mp hlevel
    have hcode : ∀ pair ∈ labels.zip values,
        decide ((ofLabels name labels).levels.idxOf pair.1 = code) =
          decide (pair.1 = (ofLabels name labels).levels[code]) := by
      intro pair hpair
      have hmem : pair.1 ∈ (ofLabels name labels).levels :=
        Text.mem_sortedDistinct.mpr (List.of_mem_zip hpair).1
      rw [decide_eq_decide]
      constructor
      · rintro rfl
        exact (List.getElem_idxOf hlt).symm
      · intro hlabel
        rw [hlabel, (nodup_levels name labels).idxOf_getElem code hlt]
    rw [group, codes_ofLabels, filterMap_ite_some, List.zip_map_left, List.filter_map, List.map_map, valuesOf]
    exact congrArg (List.map Prod.snd) (List.filter_congr hcode)
  apply List.ext_getElem
  · rw [length_groups, List.length_map]
  · intro code hcode _
    rw [length_groups] at hcode
    simp only [groups_eq_map_range, List.getElem_map, List.getElem_range]
    exact hpick _ code (List.getElem?_eq_getElem hcode)

end

variable {n : ℕ}

/-- A sum over the values of a level is a sum over its records. -/
theorem Coded.sum_group (h : factor.Coded n) (y : Fin n → ℝ) (f : ℝ → ℝ) (c : ℕ) :
    ((factor.group (List.ofFn y) c).map f).sum = ∑ i : Fin n with factor.code i = c, f (y i) := by
  have hzip : factor.codes.zip (List.ofFn y) = List.ofFn fun i : Fin n => (factor.code i, y i) := by
    rw [h.codes_eq]
    apply List.ext_getElem
    · simp
    · simp [code]
  have hsum : ∀ pairs : List (ℕ × ℝ),
      ((pairs.filterMap fun pair => if pair.1 = c then some pair.2 else none).map f).sum =
        (pairs.map fun pair => if pair.1 = c then f pair.2 else 0).sum := by
    intro pairs
    induction pairs with
    | nil => rfl
    | cons pair pairs ih =>
        by_cases hc : pair.1 = c
        · simp [hc, ih]
        · simp [hc, ih]
  rw [group, hzip]
  refine (hsum _).trans ?_
  rw [List.map_ofFn, List.sum_ofFn, Finset.sum_filter]
  rfl

theorem Coded.length_group (h : factor.Coded n) (y : Fin n → ℝ) (c : ℕ) :
    ((factor.group (List.ofFn y) c).length : ℝ) = ∑ i : Fin n with factor.code i = c, 1 := by
  rw [← h.sum_group y (fun _ => 1) c, List.map_const', List.sum_replicate, nsmul_eq_mul, mul_one]

theorem Coded.group_ne_nil (h : factor.Coded n) (y : Fin n → ℝ) {c : ℕ}
    (hc : c < factor.levels.length) : factor.group (List.ofFn y) c ≠ [] := by
  obtain ⟨i, hi⟩ := h.exists_code c hc
  have hpos : (0 : ℝ) < ∑ i : Fin n with factor.code i = c, 1 :=
    Finset.sum_pos (fun _ _ => one_pos) ⟨i, Finset.mem_filter.mpr ⟨Finset.mem_univ i, hi⟩⟩
  rw [← h.length_group y c, Nat.cast_pos] at hpos
  exact List.ne_nil_of_length_pos hpos

/-- What is summed over the levels and in each over its records is summed over all records. -/
theorem Coded.sum_levels (h : factor.Coded n) (f : Fin n → ℝ) :
    ((List.range factor.levels.length).map fun c =>
      ∑ i : Fin n with factor.code i = c, f i).sum = ∑ i, f i := by
  rw [← List.sum_toFinset _ List.nodup_range, List.toFinset_range]
  exact Finset.sum_fiberwise_of_maps_to
    (fun i _ => Finset.mem_range.mpr (h.code_lt i)) f

end Factor

end Significance
