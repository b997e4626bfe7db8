import Mathlib.Algebra.Order.BigOperators.Ring.Finset
import Significance.Proofs.ColumnSpace

/-! # Contrasts

In a complete classification each column has a contrast: the alternating sum over the records that
have some of its levels and the first level in every other factor. It is one for the column itself
and zero for every other, so no column is near the span of the others. -/

namespace Significance

open LeastSquares

variable {n : ℕ} {g : String → Factor} {all names : Finset String} {a : String → ℕ}
  {corner : Finset String → Fin n}

/-- For each part of the factors of a column, a record that has the levels of the column in that
part and the first level in all other factors. -/
def Corners (g : String → Factor) (all names : Finset String) (a : String → ℕ)
    (corner : Finset String → Fin n) : Prop :=
  ∀ part ⊆ names, ∀ name ∈ all, (g name).code (corner part) = if name ∈ part then a name else 0

theorem exists_corners (hn : 0 < n) (h : ∀ name ∈ all, (g name).Coded n)
    (hcomplete : Complete n g all) (ha : ∀ name ∈ names, a name < (g name).levels.length) :
    ∃ corner : Finset String → Fin n, Corners g all names a corner := by
  have hexists : ∀ part : Finset String, ∃ i : Fin n, part ⊆ names → ∀ name ∈ all,
      (g name).code i = if name ∈ part then a name else 0 := by
    intro part
    by_cases hpart : part ⊆ names
    · have hbound : ∀ name ∈ all, (if name ∈ part then a name else 0) < (g name).levels.length := by
        intro name hname
        by_cases hmem : name ∈ part
        · rw [if_pos hmem]
          exact ha name (hpart hmem)
        · rw [if_neg hmem]
          exact ((h name hname).code_lt ⟨0, hn⟩).pos
      obtain ⟨i, hi⟩ := hcomplete _ hbound
      exact ⟨i, fun _ => hi⟩
    · exact ⟨⟨0, hn⟩, fun hsub => absurd hsub hpart⟩
  choose corner hcorner using hexists
  exact ⟨corner, hcorner⟩

/-- The alternating sum over the corners. -/
def contrast (names : Finset String) (corner : Finset String → Fin n) : (Fin n → ℝ) →ₗ[ℝ] ℝ :=
  ∑ part ∈ names.powerset, (-1 : ℝ) ^ (names \ part).card • LinearMap.proj (corner part)

theorem contrast_apply (h : Fin n → ℝ) :
    contrast names corner h =
      ∑ part ∈ names.powerset, (-1) ^ (names \ part).card * h (corner part) := by
  simp [contrast, LinearMap.sum_apply]

/-- The alternating number of the parts that include some factors. -/
theorem sum_alternating (names own : Finset String) (hown : own ⊆ names) :
    (∑ part ∈ names.powerset, (-1 : ℝ) ^ (names \ part).card * if own ⊆ part then 1 else 0) =
      if names ⊆ own then 1 else 0 := by
  have hsign : ∀ part ∈ names.powerset,
      (-1 : ℝ) ^ (names \ part).card * (if own ⊆ part then 1 else 0) =
        (∏ _name ∈ part, (1 : ℝ)) * ∏ name ∈ names \ part, if name ∈ own then 0 else -1 := by
    intro part _
    rw [Finset.prod_const_one, one_mul]
    by_cases hsub : own ⊆ part
    · rw [if_pos hsub, mul_one, ← Finset.prod_const]
      apply Finset.prod_congr rfl
      intro name hname
      rw [if_neg fun hmem => (Finset.mem_sdiff.mp hname).2 (hsub hmem)]
    · obtain ⟨name, hmem, hnot⟩ := Finset.not_subset.mp hsub
      rw [if_neg hsub, mul_zero]
      symm
      exact Finset.prod_eq_zero (Finset.mem_sdiff.mpr ⟨hown hmem, hnot⟩) (if_pos hmem)
  rw [Finset.sum_congr rfl hsign, ← Finset.prod_add]
  by_cases hsub : names ⊆ own
  · rw [if_pos hsub]
    apply Finset.prod_eq_one
    intro name hname
    rw [if_pos (hsub hname), add_zero]
  · obtain ⟨name, hmem, hnot⟩ := Finset.not_subset.mp hsub
    rw [if_neg hsub]
    apply Finset.prod_eq_zero hmem
    rw [if_neg hnot, add_neg_cancel]

namespace Corners

/-- At a corner a column is one exactly if the part has its levels. -/
theorem vector_eq (hcorner : Corners g all names a corner) {own : List String} {b : String → ℕ}
    (hown : ∀ name ∈ own, name ∈ all) (hb : ∀ name ∈ own, 0 < b name) {part : Finset String}
    (hpart : part ⊆ names) :
    Column.vector n (Column.ofLevels g own b) (corner part) =
      if own.toFinset ⊆ part ∧ ∀ name ∈ own, a name = b name then 1 else 0 := by
  have hiff : (Column.ofLevels g own b).Holds (corner part) ↔
      own.toFinset ⊆ part ∧ ∀ name ∈ own, a name = b name := by
    rw [Column.holds_ofLevels]
    constructor
    · intro h
      have hboth : ∀ name ∈ own, name ∈ part ∧ a name = b name := by
        intro name hname
        have hcode := h name hname
        rw [hcorner part hpart name (hown name hname)] at hcode
        by_cases hmem : name ∈ part
        · rw [if_pos hmem] at hcode
          exact ⟨hmem, hcode⟩
        · rw [if_neg hmem] at hcode
          exact absurd hcode (hb name hname).ne
      exact ⟨fun name hname => (hboth name (List.mem_toFinset.mp hname)).1,
        fun name hname => (hboth name hname).2⟩
    · rintro ⟨hsub, heq⟩ name hname
      rw [hcorner part hpart name (hown name hname), if_pos (hsub (List.mem_toFinset.mpr hname)),
        heq name hname]
  simp only [Column.vector, hiff]

/-- The contrast of a column is one for it and zero for other columns. -/
theorem contrast_vector (hcorner : Corners g all names a corner) {own : List String}
    {b : String → ℕ} (hown : ∀ name ∈ own, name ∈ all) (hb : ∀ name ∈ own, 0 < b name) :
    contrast names corner (Column.vector n (Column.ofLevels g own b)) =
      if own.toFinset = names ∧ ∀ name ∈ own, a name = b name then 1 else 0 := by
  have hterm : ∀ part ∈ names.powerset, (-1 : ℝ) ^ (names \ part).card *
      Column.vector n (Column.ofLevels g own b) (corner part) = (-1) ^ (names \ part).card *
        if own.toFinset ⊆ part ∧ ∀ name ∈ own, a name = b name then 1 else 0 := by
    intro part hpart
    rw [hcorner.vector_eq hown hb (Finset.mem_powerset.mp hpart)]
  rw [contrast_apply, Finset.sum_congr rfl hterm]
  by_cases hall : own.toFinset ⊆ names ∧ ∀ name ∈ own, a name = b name
  · obtain ⟨hsub, heq⟩ := hall
    have hlevels : ∀ p : Prop, (p ∧ ∀ name ∈ own, a name = b name) ↔ p := fun p => and_iff_left heq
    simp only [hlevels]
    rw [sum_alternating names own.toFinset hsub]
    have hiff : names ⊆ own.toFinset ↔ own.toFinset = names :=
      ⟨fun h => hsub.antisymm h, fun h => h.ge⟩
    simp only [hiff]
  · have hne : ¬(own.toFinset = names ∧ ∀ name ∈ own, a name = b name) :=
      fun h => hall ⟨h.1.le, h.2⟩
    rw [if_neg hne]
    apply Finset.sum_eq_zero
    intro part hpart
    rw [if_neg fun h => hall ⟨h.1.trans (Finset.mem_powerset.mp hpart), h.2⟩, mul_zero]

theorem contrast_self {own : List String} (hcorner : Corners g all own.toFinset a corner)
    (hown : ∀ name ∈ own, name ∈ all) (ha : ∀ name ∈ own, 0 < a name) :
    contrast own.toFinset corner (Column.vector n (Column.ofLevels g own a)) = 1 := by
  rw [hcorner.contrast_vector hown ha]
  exact if_pos ⟨rfl, fun _ _ => rfl⟩

theorem contrast_of_ne {factors own other : List String} {b : String → ℕ}
    (hcorner : Corners g factors.toFinset own.toFinset a corner) (hnodup : factors.Nodup)
    (hown : own.Sublist factors) (hother : other.Sublist factors) (hb : ∀ name ∈ other, 0 < b name)
    (hne : Column.ofLevels g other b ≠ Column.ofLevels g own a) :
    contrast own.toFinset corner (Column.vector n (Column.ofLevels g other b)) = 0 := by
  rw [hcorner.contrast_vector (fun name hname => List.mem_toFinset.mpr (hother.subset hname)) hb]
  apply if_neg
  rintro ⟨hsupport, hlevels⟩
  have hsame := Term.eq_of_toFinset_eq hnodup hother hown hsupport
  subst hsame
  apply hne
  apply List.map_congr_left
  intro name hname
  rw [hlevels name hname]

theorem injOn (hcorner : Corners g all names a corner) (hnames : names ⊆ all)
    (ha : ∀ name ∈ names, 0 < a name) : Set.InjOn corner names.powerset := by
  intro part hpart other hother heq
  rw [Finset.mem_coe, Finset.mem_powerset] at hpart hother
  have hiff : ∀ name ∈ names, name ∈ part ↔ name ∈ other := by
    intro name hname
    have hcode := hcorner part hpart name (hnames hname)
    rw [heq, hcorner other hother name (hnames hname)] at hcode
    have hpos := ha name hname
    by_cases hmem : name ∈ part
    · by_cases hmem' : name ∈ other
      · exact iff_of_true hmem hmem'
      · rw [if_pos hmem, if_neg hmem'] at hcode
        omega
    · by_cases hmem' : name ∈ other
      · rw [if_neg hmem, if_pos hmem'] at hcode
        omega
      · exact iff_of_false hmem hmem'
  ext name
  exact ⟨fun h => (hiff name (hpart h)).mp h, fun h => (hiff name (hother h)).mpr h⟩

/-- A contrast of few factors is not much longer than its argument. -/
theorem contrast_sq_le (hcorner : Corners g all names a corner) (hnames : names ⊆ all)
    (ha : ∀ name ∈ names, 0 < a name) (h : Fin n → ℝ) :
    contrast names corner h ^ 2 ≤ 2 ^ names.card * squares h := by
  have hsigns : ∑ part ∈ names.powerset, ((-1 : ℝ) ^ (names \ part).card) ^ 2 = 2 ^ names.card := by
    have hone : ∀ part ∈ names.powerset, ((-1 : ℝ) ^ (names \ part).card) ^ 2 = 1 := by
      intro part _
      rw [← pow_mul, mul_comm, pow_mul, neg_one_sq, one_pow]
    rw [Finset.sum_congr rfl hone, Finset.sum_const, Finset.card_powerset, nsmul_eq_mul, mul_one]
    norm_cast
  have hvalues : ∑ part ∈ names.powerset, h (corner part) ^ 2 ≤ squares h := by
    rw [← Finset.sum_image (f := fun i => h i ^ 2) (hcorner.injOn hnames ha)]
    exact Finset.sum_le_sum_of_subset_of_nonneg (Finset.subset_univ _) fun i _ _ => sq_nonneg (h i)
  calc
    contrast names corner h ^ 2
        ≤ (∑ part ∈ names.powerset, ((-1 : ℝ) ^ (names \ part).card) ^ 2) *
            ∑ part ∈ names.powerset, h (corner part) ^ 2 := by
      rw [contrast_apply]
      exact Finset.sum_mul_sq_le_sq_mul_sq _ _ _
    _ ≤ 2 ^ names.card * squares h := by
      rw [hsigns]
      exact mul_le_mul_of_nonneg_left hvalues (by positivity)

end Corners

end Significance
