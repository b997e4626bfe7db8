import Significance.Proofs.Groups
import Significance.TukeyTest

/-! # Comparisons of level means

The levels are compared where no check finds a fault. Values on another scale and with another zero
have the same faults, and else the same probabilities and the same decisions. -/

namespace Significance.TukeyTest

open Success

/-! ## Faults -/

section

variable {α : Type} [Scalar α]

/-- What the checks find against a comparison, in their order. -/
def fault? (factor : Factor) (values : List α) (alpha : α) : Option (PairFault α) :=
  let groups := factor.groups values
  let pooled := Descriptive.pooledVariance groups
  if values.length ≠ factor.size then some (.valueCount values.length factor.size)
  else if ¬(0.0 < alpha ∧ alpha < 1.0) then some (.significance alpha)
  else if factor.levels.length < 2 then some (.levelCount factor.levels.length)
  else match (factor.levels.zip groups).find? fun pair => pair.2.length < 2 with
    | some pair => some (.levelSize pair.1 pair.2.length)
    | none =>
      if pooled.2 < 2 then some (.residualDf pooled.2)
      else if ¬(0.0 < pooled.1) ∨ !Scalar.isFinite pooled.1 then some .noVariance
      else none

def summaries (factor : Factor) (values : List α) : List (LevelSummary α) :=
  (factor.levels.zip (factor.groups values)).map fun (level, group) =>
    { level, size := group.length, mean := Descriptive.mean group }

theorem map_size_summaries (factor : Factor) (values : List α) :
    (summaries factor values).map LevelSummary.size = (factor.groups values).map List.length := by
  have hlength := factor.length_groups values
  conv_rhs => rw [← List.map_snd_zip hlength.le]
  rw [summaries, List.map_map, List.map_map]
  rfl

theorem map_level_summaries (factor : Factor) (values : List α) :
    (summaries factor values).map LevelSummary.level = factor.levels := by
  have hlength := factor.length_groups values
  conv_rhs => rw [← List.map_fst_zip hlength.ge]
  rw [summaries, List.map_map]
  rfl

/-- The test of levels without fault, which only lacks a critical value. -/
def complete (d : Distribution α) (factor : Factor) (values : List α) (alpha : α) :
    Except (Error α) (TukeyTest α) :=
  let k := factor.levels.length
  let pooled := Descriptive.pooledVariance (factor.groups values)
  let critical := d.rangeQuantile (1.0 - alpha) (Scalar.ofNat k) (Scalar.ofNat pooled.2)
  if !Scalar.isFinite critical then .error (.unstable (.criticalValue k pooled.2))
  else
    .ok { factor := factor.name, alpha, levels := factor.levels
          sizes := (summaries factor values).map LevelSummary.size
          means := (summaries factor values).map LevelSummary.mean
          variance := pooled.1, df := pooled.2, critical
          comparisons := (pairs (summaries factor values)).map fun (a, b) =>
            compare d alpha k pooled.1 pooled.2 critical a b }

variable {d : Distribution α} {factor : Factor} {values : List α} {alpha : α}

theorem run_eq :
    run d factor values alpha =
      match fault? factor values alpha with
      | some fault => .error (.pairs factor.name fault)
      | none => complete d factor values alpha := by
  simp only [run, ↓error_bind]
  unfold fault? complete
  by_cases hcount : values.length ≠ factor.size
  · rw [if_pos hcount, if_pos hcount]
  by_cases halpha : ¬(0.0 < alpha ∧ alpha < 1.0)
  · rw [if_neg hcount, if_pos halpha, if_neg hcount, if_pos halpha]
  by_cases hlevels : factor.levels.length < 2
  · rw [if_neg hcount, if_neg halpha, if_pos hlevels, if_neg hcount, if_neg halpha, if_pos hlevels]
  rw [if_neg hcount, if_neg halpha, if_neg hlevels, if_neg hcount, if_neg halpha, if_neg hlevels]
  dsimp only
  cases (factor.levels.zip (factor.groups values)).find? fun pair => pair.2.length < 2 with
  | some pair => rfl
  | none =>
      dsimp only
      split
      · rfl
      · split
        · rfl
        · split
          · rfl
          · rfl

/-- A test that is completed has no fault and is that of its levels. -/
theorem eq_of_run_eq_ok {test : TukeyTest α} (h : run d factor values alpha = .ok test) :
    fault? factor values alpha = none ∧
      ∃ critical, test =
        { factor := factor.name, alpha, levels := factor.levels
          sizes := (summaries factor values).map LevelSummary.size
          means := (summaries factor values).map LevelSummary.mean
          variance := (Descriptive.pooledVariance (factor.groups values)).1
          df := (Descriptive.pooledVariance (factor.groups values)).2, critical
          comparisons := (pairs (summaries factor values)).map fun (a, b) =>
            compare d alpha factor.levels.length
              (Descriptive.pooledVariance (factor.groups values)).1
              (Descriptive.pooledVariance (factor.groups values)).2 critical a b } := by
  rw [run_eq] at h
  cases hfault : fault? factor values alpha with
  | some fault =>
      rw [hfault] at h
      cases h
  | none =>
      rw [hfault] at h
      simp only [complete] at h
      split at h
      · cases h
      · exact ⟨rfl, _, (Except.ok.inj h).symm⟩

/-- A test that is refused has the fault that it is refused for. -/
theorem fault?_eq_of_run {name : String} {fault : PairFault α}
    (h : run d factor values alpha = .error (.pairs name fault)) :
    fault? factor values alpha = some fault := by
  rw [run_eq] at h
  cases hfault : fault? factor values alpha with
  | some own =>
      rw [hfault] at h
      injection h with h
      injection h with _ h
      rw [h]
  | none =>
      rw [hfault] at h
      simp only [complete] at h
      split at h
      · injection h with h
        cases h
      · cases h

omit [Scalar α] in
theorem forall_zip_groups :
    (∀ pair ∈ factor.levels.zip (factor.groups values), 2 ≤ pair.2.length) ↔
      ∀ group ∈ factor.groups values, 2 ≤ group.length := by
  have hlength := factor.length_groups values
  conv_rhs => rw [← List.map_snd_zip hlength.le]
  rw [List.forall_mem_map]

theorem fault?_eq_none :
    fault? factor values alpha = none ↔
      values.length = factor.size ∧ (0.0 < alpha ∧ alpha < 1.0) ∧ 2 ≤ factor.levels.length ∧
      (∀ group ∈ factor.groups values, 2 ≤ group.length) ∧
      2 ≤ (Descriptive.pooledVariance (factor.groups values)).2 ∧
      0.0 < (Descriptive.pooledVariance (factor.groups values)).1 ∧
      Scalar.isFinite (Descriptive.pooledVariance (factor.groups values)).1 := by
  have hcheck : ∀ {p : Prop} [Decidable p] {fault : PairFault α} {rest : Option (PairFault α)},
      (if p then some fault else rest) = none ↔ ¬p ∧ rest = none := by
    intro p _ fault rest
    by_cases h : p
    · simp [h]
    · simp [h]
  simp only [fault?, hcheck, not_not, not_lt]
  rw [← forall_zip_groups]
  cases hfind : (factor.levels.zip (factor.groups values)).find? fun pair => pair.2.length < 2 with
  | some pair =>
      have hsmall := List.find?_some hfind
      have hmem := List.mem_of_find?_eq_some hfind
      simp only [decide_eq_true_eq] at hsmall
      simp only [reduceCtorEq, and_false, false_iff]
      rintro ⟨-, -, -, hall, -⟩
      exact absurd (hall pair hmem) (by omega)
  | none =>
      have hall := List.find?_eq_none.mp hfind
      simp only [decide_eq_true_eq, not_lt] at hall
      simp only [hcheck, not_lt, not_or, not_not, Bool.not_eq_true', Bool.not_eq_false, and_true,
        iff_true_intro hall, true_and]

theorem fault?_eq_none_of_level (h : fault? factor values alpha = none) {alpha' : α}
    (hpos : 0.0 < alpha') (hlt : alpha' < 1.0) : fault? factor values alpha' = none := by
  obtain ⟨hlength, -, hrest⟩ := fault?_eq_none.mp h
  exact fault?_eq_none.mpr ⟨hlength, ⟨hpos, hlt⟩, hrest⟩

/-- The check of the degrees of freedom comes after those of the levels. -/
theorem of_fault?_eq_residualDf {df : ℕ} (h : fault? factor values alpha = some (.residualDf df)) :
    values.length = factor.size ∧ 2 ≤ factor.levels.length ∧
      (∀ group ∈ factor.groups values, 2 ≤ group.length) ∧
      (Descriptive.pooledVariance (factor.groups values)).2 < 2 := by
  simp only [fault?] at h
  split at h
  · cases h
  · next hlength =>
    split at h
    · cases h
    · split at h
      · cases h
      · next hlevels =>
        split at h
        · cases h
        · next hfind =>
          split at h
          · next hdf =>
            have hall := List.find?_eq_none.mp hfind
            simp only [decide_eq_true_eq, not_lt] at hall
            exact ⟨not_not.mp hlength, not_lt.mp hlevels, forall_zip_groups.mp hall, hdf⟩
          · split at h
            · cases h
            · cases h

theorem find?_groups_map {β γ : Type} (f : β → γ) (values : List β) :
    ((factor.levels.zip (factor.groups (values.map f))).find? fun pair => pair.2.length < 2) =
      ((factor.levels.zip (factor.groups values)).find? fun pair => pair.2.length < 2).map
        (Prod.map id (List.map f)) := by
  rw [Factor.groups_map, List.zip_map_right, List.find?_map]
  congr 2
  funext pair
  simp

end

/-! ## Pairs -/

theorem pairs_map {β γ : Type} (f : β → γ) (xs : List β) :
    pairs (xs.map f) = (pairs xs).map (Prod.map f f) := by
  induction xs with
  | nil => rfl
  | cons x xs ih =>
      rw [List.map_cons, pairs, pairs, ih, List.map_append, List.map_map, List.map_map]
      rfl

theorem mem_of_mem_pairs {β : Type} {pair : β × β} {xs : List β} (h : pair ∈ pairs xs) :
    pair.1 ∈ xs ∧ pair.2 ∈ xs := by
  induction xs with
  | nil => simp [pairs] at h
  | cons x xs ih =>
      rcases List.mem_append.mp h with hmem | hmem
      · obtain ⟨y, hy, rfl⟩ := List.mem_map.mp hmem
        exact ⟨List.mem_cons_self, List.mem_cons_of_mem x hy⟩
      · exact ⟨List.mem_cons_of_mem x (ih hmem).1, List.mem_cons_of_mem x (ih hmem).2⟩

end Significance.TukeyTest

namespace Significance

open Exact

variable [Wording]

/-! ## Another scale -/

variable (scale shift : ℝ)

noncomputable def LevelSummary.rescale (summary : LevelSummary Exact) : LevelSummary Exact :=
  { summary with mean := real scale * summary.mean + real shift }

/-- A negative scale exchanges the ends of the interval. -/
noncomputable def PairComparison.rescale (pair : PairComparison Exact) : PairComparison Exact :=
  { pair with
    difference := real scale * pair.difference
    lower := real scale * if 0 < scale then pair.lower else pair.upper
    upper := real scale * if 0 < scale then pair.upper else pair.lower }

noncomputable def TukeyTest.rescale (test : TukeyTest Exact) : TukeyTest Exact :=
  { test with
    means := test.means.map fun mean => real scale * mean + real shift
    variance := real (scale ^ 2) * test.variance
    comparisons := test.comparisons.map (PairComparison.rescale scale) }

namespace TukeyTest

variable {scale} {d : Distribution Exact} {factor : Factor} {alpha : Exact}

/-- The standard error of a difference, from the variance and the two sizes. -/
noncomputable def deviation (v : ℝ) (s t : ℕ) : ℝ :=
  √(v / (2 : ℕ) * (1 / s + 1 / t))

theorem standardError_real {v : ℝ} (hv : 0 ≤ v) {a b : LevelSummary Exact} (ha : a.size ≠ 0)
    (hb : b.size ≠ 0) :
    standardError (real v) a b = real (√(v / 2 * (1 / a.size + 1 / b.size))) := by
  have ha' : (a.size : ℝ) ≠ 0 := Nat.cast_ne_zero.mpr ha
  have hb' : (b.size : ℝ) ≠ 0 := Nat.cast_ne_zero.mpr hb
  rw [standardError, two_eq, one_eq, ofNat_eq, ofNat_eq, real_div _ two_ne_zero, real_div _ ha',
    real_div _ hb', real_add, real_mul, sqrt_real (by positivity)]

omit [Wording] in
theorem deviation_pos {v : ℝ} (hv : 0 < v) {s t : ℕ} (hs : s ≠ 0) : 0 < deviation v s t := by
  have hs' : (0 : ℝ) < s := Nat.cast_pos.mpr (Nat.pos_of_ne_zero hs)
  apply Real.sqrt_pos.mpr
  positivity

omit [Wording] in
theorem deviation_rescale (v : ℝ) (s t : ℕ) :
    deviation (scale ^ 2 * v) s t = |scale| * deviation v s t := by
  rw [deviation, deviation, mul_div_assoc, mul_assoc, Real.sqrt_mul (sq_nonneg scale),
    Real.sqrt_sq_eq_abs]

/-- The comparison of two real means. -/
theorem compare_real {v : ℝ} (hv : 0 < v) {a b : LevelSummary Exact} (ha : a.size ≠ 0)
    (hb : b.size ≠ 0) {m n : ℝ} (hm : a.mean = real m) (hn : b.mean = real n) {k df : ℕ} {q : ℝ} :
    compare d alpha k (real v) df (real q) a b =
      let error := deviation v a.size b.size
      let below := d.rangeBelow (real (|n - m| / error)) (Scalar.ofNat k) (Scalar.ofNat df)
      let p := Scalar.clamp 0.0 1.0 (1.0 - below)
      { first := a.level, second := b.level, difference := real (n - m), p
        lower := real (n - m - q * error), upper := real (n - m + q * error)
        reject := p < alpha } := by
  have herror : standardError (real v) a b = real (deviation v a.size b.size) :=
    standardError_real hv.le ha hb
  have habs : (Scalar.abs (real (n - m)) : Exact) = real |n - m| := rfl
  simp only [compare, hm, hn, herror, habs, real_sub, real_mul, real_add,
    real_div _ (deviation_pos hv ha).ne']

/-- The comparison of two levels on another scale. -/
theorem compare_rescale (hscale : scale ≠ 0) {v : ℝ} (hv : 0 < v) {a b : LevelSummary Exact}
    (ha : a.size ≠ 0) (hb : b.size ≠ 0) {m n : ℝ} (hm : a.mean = real m) (hn : b.mean = real n)
    (k df : ℕ) (q : ℝ) :
    compare d alpha k (real (scale ^ 2 * v)) df (real q) (a.rescale scale shift)
        (b.rescale scale shift) =
      (compare d alpha k (real v) df (real q) a b).rescale scale := by
  have hmean : (a.rescale scale shift).mean = real (scale * m + shift) := by
    rw [LevelSummary.rescale, hm, real_mul, real_add]
  have hmean' : (b.rescale scale shift).mean = real (scale * n + shift) := by
    rw [LevelSummary.rescale, hn, real_mul, real_add]
  have ha' : (a.rescale scale shift).size ≠ 0 := ha
  have hb' : (b.rescale scale shift).size ≠ 0 := hb
  have hdifference : scale * n + shift - (scale * m + shift) = scale * (n - m) := by ring
  have hratio : ∀ e, |scale * (n - m)| / (|scale| * e) = |n - m| / e := by
    intro e
    rw [abs_mul, mul_div_mul_left _ _ (abs_ne_zero.mpr hscale)]
  rw [compare_real (mul_pos (even_two.pow_pos hscale) hv) ha' hb' hmean hmean',
    compare_real hv ha hb hm hn]
  simp only [PairComparison.rescale, LevelSummary.rescale, deviation_rescale, hdifference, hratio,
    real_mul]
  generalize deviation v a.size b.size = e
  -- Half the width is multiplied by the absolute scale, so its sign decides which end is which.
  rcases lt_or_gt_of_ne hscale with hneg | hpos
  · have hlower : scale * (n - m) - q * (|scale| * e) = scale * (n - m + q * e) := by
      rw [abs_of_neg hneg]
      ring
    have hupper : scale * (n - m) + q * (|scale| * e) = scale * (n - m - q * e) := by
      rw [abs_of_neg hneg]
      ring
    rw [if_neg hneg.not_gt, if_neg hneg.not_gt, hlower, hupper]
    rfl
  · have hlower : scale * (n - m) - q * (|scale| * e) = scale * (n - m - q * e) := by
      rw [abs_of_pos hpos]
      ring
    have hupper : scale * (n - m) + q * (|scale| * e) = scale * (n - m + q * e) := by
      rw [abs_of_pos hpos]
      ring
    rw [if_pos hpos, if_pos hpos, hlower, hupper]
    rfl

/-! ## Tests on another scale -/

variable (ys : List ℝ)

theorem summaries_real :
    summaries factor (ys.map real) = (factor.levels.zip (factor.groups ys)).map fun pair =>
      { level := pair.1, size := pair.2.length, mean := Descriptive.mean (pair.2.map real) } := by
  rw [summaries, Factor.groups_map, List.zip_map_right, List.map_map]
  apply List.map_congr_left
  intro pair _
  simp

variable {ys}

theorem exists_mean (hgroups : ∀ group ∈ factor.groups ys, 2 ≤ group.length)
    {summary : LevelSummary Exact} (h : summary ∈ summaries factor (ys.map real)) :
    summary.size ≠ 0 ∧ ∃ m, summary.mean = real m := by
  rw [summaries_real] at h
  obtain ⟨pair, hpair, rfl⟩ := List.mem_map.mp h
  have hsize := hgroups pair.2 (List.of_mem_zip hpair).2
  have hne : pair.2 ≠ [] := List.ne_nil_of_length_pos (by omega)
  exact ⟨by dsimp only; omega, _, Descriptive.mean_real hne⟩

theorem summaries_rescale (hgroups : ∀ group ∈ factor.groups ys, 2 ≤ group.length) :
    summaries factor ((ys.map fun y => scale * y + shift).map real) =
      (summaries factor (ys.map real)).map (LevelSummary.rescale scale shift) := by
  rw [summaries_real, summaries_real, Factor.groups_map, List.zip_map_right, List.map_map,
    List.map_map]
  apply List.map_congr_left
  intro pair hpair
  have hsize := hgroups pair.2 (List.of_mem_zip hpair).2
  have hne : pair.2 ≠ [] := List.ne_nil_of_length_pos (by omega)
  simp only [Function.comp_apply, Prod.map_fst, Prod.map_snd, LevelSummary.rescale, List.length_map]
  rw [Descriptive.mean_real hne, Descriptive.mean_real (by simpa using hne),
    Descriptive.average_map scale shift hne]
  rfl

variable (ys)

theorem pooledVariance_rescale :
    Descriptive.pooledVariance (factor.groups ((ys.map fun y => scale * y + shift).map real)) =
      (real (scale ^ 2) * (Descriptive.pooledVariance (factor.groups (ys.map real))).1,
        (Descriptive.pooledVariance (factor.groups (ys.map real))).2) := by
  have hlength : ((factor.groups ys).map (List.map fun y => scale * y + shift)).flatten.length =
      (factor.groups ys).flatten.length := by
    rw [← List.map_flatten, List.length_map]
  have hspread : (((factor.groups ys).map (List.map fun y => scale * y + shift)).map
      Descriptive.spread).sum = scale ^ 2 * ((factor.groups ys).map Descriptive.spread).sum := by
    rw [List.map_map, ← List.sum_map_mul_left]
    congr 1
    exact List.map_congr_left fun xs _ => Descriptive.spread_map scale shift xs
  rw [Factor.groups_map, Factor.groups_map, Factor.groups_map, Descriptive.pooledVariance_real,
    Descriptive.pooledVariance_real, hlength, hspread, List.length_map]
  by_cases h : (factor.groups ys).flatten.length ≤ (factor.groups ys).length
  · rw [if_pos h, if_pos h]
    rfl
  · rw [if_neg h, if_neg h, real_mul, mul_div_assoc]

theorem fault?_rescale (hscale : scale ≠ 0) :
    fault? factor ((ys.map fun y => scale * y + shift).map real) alpha =
      fault? factor (ys.map real) alpha := by
  have hpos : 0 < scale ^ 2 := even_two.pow_pos hscale
  simp only [fault?, pooledVariance_rescale, zero_eq, real_mul_pos hpos, isFinite_real_mul hpos,
    find?_groups_map, List.length_map]
  cases (factor.levels.zip (factor.groups ys)).find? fun pair => pair.2.length < 2 with
  | none => rfl
  | some pair => simp

/-- All comparisons of levels with two values at least. -/
theorem map_compare_rescale (hscale : scale ≠ 0) {v : ℝ} (hv : 0 < v)
    (hgroups : ∀ group ∈ factor.groups ys, 2 ≤ group.length) (k df : ℕ) (q : ℝ) :
    ((pairs ((summaries factor (ys.map real)).map (LevelSummary.rescale scale shift))).map
        fun (a, b) => compare d alpha k (real (scale ^ 2 * v)) df (real q) a b) =
      ((pairs (summaries factor (ys.map real))).map
        fun (a, b) => compare d alpha k (real v) df (real q) a b).map
          (PairComparison.rescale scale) := by
  rw [pairs_map, List.map_map, List.map_map]
  apply List.map_congr_left
  rintro ⟨a, b⟩ hpair
  obtain ⟨ha, hb⟩ := mem_of_mem_pairs hpair
  obtain ⟨hasize, m, hm⟩ := exists_mean hgroups ha
  obtain ⟨hbsize, n, hn⟩ := exists_mean hgroups hb
  exact compare_rescale shift hscale hv hasize hbsize hm hn k df q

theorem complete_rescale (hscale : scale ≠ 0) (hfault : fault? factor (ys.map real) alpha = none) :
    complete d factor ((ys.map fun y => scale * y + shift).map real) alpha =
      (complete d factor (ys.map real) alpha).map (rescale scale shift) := by
  obtain ⟨-, -, -, hgroups, -, hpos, hfinite⟩ := fault?_eq_none.mp hfault
  obtain ⟨v, hv⟩ := isFinite_iff.mp hfinite
  rw [hv, zero_eq, real_lt] at hpos
  rw [Factor.groups_map, List.forall_mem_map] at hgroups
  simp only [List.length_map] at hgroups
  simp only [complete, pooledVariance_rescale, summaries_rescale shift hgroups, hv, real_mul]
  cases d.rangeQuantile (1.0 - alpha) (Scalar.ofNat factor.levels.length)
      (Scalar.ofNat (Descriptive.pooledVariance (factor.groups (ys.map real))).2) with
  | real q =>
      rw [map_compare_rescale shift ys hscale hpos hgroups, List.map_map, List.map_map]
      simp only [isFinite_real, Bool.not_true, Bool.false_eq_true, ↓reduceIte, Except.map, rescale,
        real_mul, List.map_map]
      rfl
  | infinity => rfl
  | negInfinity => rfl
  | undefined => rfl

/-- Values on another scale, counted from another zero, are compared alike. -/
theorem run_rescale (hscale : scale ≠ 0) :
    run d factor ((ys.map fun y => scale * y + shift).map real) alpha =
      (run d factor (ys.map real) alpha).map (rescale scale shift) := by
  rw [run_eq, run_eq, fault?_rescale shift ys hscale]
  cases hfault : fault? factor (ys.map real) alpha with
  | some fault => rfl
  | none => exact complete_rescale shift ys hscale hfault

end TukeyTest

end Significance
