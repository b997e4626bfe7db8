import Mathlib.LinearAlgebra.Matrix.Rank
import Significance.Proofs.Elimination

/-! # Fits by the columns of a matrix

A fit solves least squares for a set of independent columns that comes near to every column. It
solves least squares for the whole matrix unless the elimination stopped with something left. -/

namespace Significance.LeastSquares

open Exact Matrix

variable {n p : ℕ}

/-- A real matrix as a model matrix. -/
def ofMatrix (X : Matrix (Fin n) (Fin p) ℝ) : ModelMatrix Exact :=
  ⟨n, List.ofFn fun j => ofVector (X.col j)⟩

/-! ## Spans of columns -/

theorem columnSpan_map_col (X : Matrix (Fin n) (Fin p) ℝ) (indices : List (Fin p)) :
    columnSpan (indices.map X.col) =
      Submodule.span ℝ (Set.range (X.submatrix id ((↑) : indices.toFinset → Fin p)).col) := by
  rw [columnSpan]
  congr 1
  ext v
  simp only [Set.mem_ofPred_eq, List.mem_map, Set.mem_range]
  constructor
  · rintro ⟨j, hj, rfl⟩
    exact ⟨⟨j, List.mem_toFinset.mpr hj⟩, rfl⟩
  · rintro ⟨⟨j, hj⟩, rfl⟩
    exact ⟨j, List.mem_toFinset.mp hj, rfl⟩

theorem columnSpan_ofFn (X : Matrix (Fin n) (Fin p) ℝ) :
    columnSpan (List.ofFn X.col) = Submodule.span ℝ (Set.range X.col) := by
  rw [columnSpan]
  congr 1
  ext v
  simp [List.mem_ofFn]

/-- The columns of a selection are those of distinct indices. -/
theorem Selection.exists_indices {X : Matrix (Fin n) (Fin p) ℝ} {tolerance : ℝ}
    {chosen : List (Fin n → ℝ)} (h : Selection tolerance (List.ofFn X.col) chosen) :
    ∃ kept : List (Fin p), kept.Nodup ∧ chosen = kept.map X.col := by
  obtain ⟨dropped, hperm⟩ := h.perm
  rw [List.ofFn_eq_map] at hperm
  obtain ⟨all, hall, hmap⟩ := exists_perm_of_map_perm hperm
  obtain ⟨kept, unused, rfl, rfl, -⟩ := List.map_eq_append_iff.mp hmap
  exact ⟨kept, (hall.nodup_iff.mpr (List.nodup_finRange p)).of_append_left, rfl⟩

variable {ι : Type*} [Fintype ι] {A : Matrix (Fin n) ι ℝ}

theorem mem_span_col {v : Fin n → ℝ} :
    v ∈ Submodule.span ℝ (Set.range A.col) ↔ ∃ b, A *ᵥ b = v := by
  rw [← range_mulVecLin, LinearMap.mem_range]
  rfl

theorem isLeast_of_isLeastDistance {y : Fin n → ℝ} {r : ℝ}
    (h : IsLeastDistance (Submodule.span ℝ (Set.range A.col)) y r) :
    IsLeast (Set.range fun b => squares (y - A *ᵥ b)) r := by
  have hset : {s | ∃ v ∈ Submodule.span ℝ (Set.range A.col), s = ∑ i, (y i - v i) ^ 2} =
      Set.range fun b => squares (y - A *ᵥ b) := by
    ext s
    constructor
    · rintro ⟨v, hv, rfl⟩
      obtain ⟨b, rfl⟩ := mem_span_col.mp hv
      exact ⟨b, rfl⟩
    · rintro ⟨b, rfl⟩
      exact ⟨A *ᵥ b, mem_span_col.mpr ⟨b, rfl⟩, rfl⟩
  rwa [IsLeastDistance, hset] at h

theorem foldl_max_ofFn {f : Fin p → ℝ} (hf : ∀ j, 0 ≤ f j) :
    (List.ofFn f).foldl max 0 = ⨆ j, f j := by
  obtain ⟨hzero, hle⟩ := le_foldl_max (List.ofFn f) 0
  apply le_antisymm
  · apply foldl_max_le (Real.iSup_nonneg hf)
    rw [List.forall_mem_ofFn_iff]
    exact le_ciSup (Set.finite_range f).bddAbove
  · exact Real.iSup_le (fun j => hle _ (List.mem_ofFn.mpr ⟨j, rfl⟩)) hzero

theorem cutoff_ofFn (X : Matrix (Fin n) (Fin p) ℝ) :
    cutoff (List.ofFn X.col) = 1e-9 * max 1 (⨆ j, √(squares (X.col j))) := by
  have hnorms : (List.ofFn X.col).map (fun c => √(squares c)) =
      List.ofFn fun j => √(squares (X.col j)) := List.map_ofFn
  rw [cutoff, hnorms, foldl_max_ofFn fun j => Real.sqrt_nonneg _, max_comm]

/-! ## The fit -/

section

variable [Wording]

/-- What a fit of a response by a matrix reports, and how it comes about: it takes the columns of
`S`, with the least squared distance `residual` from their combinations. -/
structure FitSpec (X : Matrix (Fin n) (Fin p) ℝ) (y : Fin n → ℝ) (S : Finset (Fin p))
    (residual : ℝ) : Prop where
  fit_eq : fit (ofMatrix X) (ofVector y) = .ok ⟨real residual, S.card, n⟩
  card_le : S.card ≤ min n p
  independent : LinearIndependent ℝ fun j : S => X.col j
  least : IsLeast (Set.range fun b => squares (y - X.submatrix id ((↑) : S → Fin p) *ᵥ b)) residual
  near : ∀ j, ∃ b, √(squares (X.col j - X.submatrix id ((↑) : S → Fin p) *ᵥ b)) ≤
    1e-9 * max 1 (⨆ k, √(squares (X.col k)))
  /-- Unless the elimination stopped for a length other than zero, the fit is by all columns. -/
  whole : (∀ left, (fitRun (ofMatrix X) (ofVector y)).stop = some left → left = real 0) →
    S.card = X.rank ∧ IsLeast (Set.range fun b => squares (y - X *ᵥ b)) residual
  mirrors : (fitRun (ofMatrix X) (ofVector y)).mirrors.length = S.card
  /-- No mirror is left out for too short a normal vector. -/
  reflects : ∀ mirror ∈ (fitRun (ofMatrix X) (ofVector y)).mirrors, mirror.Reflects

/-- Every fit succeeds and solves least squares for the columns that it takes. -/
theorem exists_fitSpec (hn : 0 < n) (X : Matrix (Fin n) (Fin p) ℝ) (y : Fin n → ℝ) :
    ∃ S residual, FitSpec X y S residual := by
  have hmatrix : ofMatrix X = ⟨n, (List.ofFn X.col).map ofVector⟩ := by
    rw [ofMatrix, List.map_ofFn]
    rfl
  obtain ⟨chosen, left, rest, hnonneg, hle, hfit, h⟩ := fit_run_spec hn (List.ofFn X.col) y
  rw [← hmatrix] at hfit h
  obtain ⟨kept, hnodup, rfl⟩ := h.selection.exists_indices
  have hlength : (kept.map X.col).length = kept.toFinset.card := by
    rw [List.length_map, List.toFinset_card_of_nodup hnodup]
  have hspan := columnSpan_map_col X kept
  have hrank := h.selection.finrank_eq
  have hmirrors := h.mirrors
  rw [hlength] at hfit hrank hmirrors
  refine ⟨kept.toFinset, _, hfit, ?_, ?_, ?_, ?_, ?_, hmirrors, h.reflects⟩
  · have hrows := Submodule.finrank_le (columnSpan (kept.map X.col))
    rw [hrank, Module.finrank_fin_fun] at hrows
    exact le_min hrows (card_finset_fin_le _)
  · rw [linearIndependent_iff_card_eq_finrank_span, Fintype.card_coe]
    rw [hspan] at hrank
    exact hrank.symm
  · apply isLeast_of_isLeastDistance
    rw [← hspan]
    exact h.least
  · intro j
    obtain ⟨v, hv, hnear⟩ := h.selection.near (X.col j) (List.mem_ofFn.mpr ⟨j, rfl⟩)
    rw [hspan] at hv
    obtain ⟨b, rfl⟩ := mem_span_col.mp hv
    refine ⟨b, ?_⟩
    rw [← cutoff_ofFn]
    exact (Real.sqrt_le_left (hnonneg.trans hle)).mpr (hnear.trans (pow_le_pow_left₀ hnonneg hle 2))
  · intro hwhole
    have hzero : left = 0 := by
      rcases h.stop with hstop | ⟨-, hzero⟩
      · exact real_injective (hwhole _ hstop)
      · exact hzero
    subst hzero
    have hall := h.selection.columnSpan_eq
    rw [columnSpan_ofFn] at hall
    constructor
    · rw [← hrank, hall, Matrix.rank_eq_finrank_span_cols]
    · apply isLeast_of_isLeastDistance
      rw [← hall]
      exact h.least

end

/-! ## A column of ones and one of zeros -/

section

open Sample

def onesAndZeros : Matrix (Fin 3) (Fin 2) ℝ :=
  fun _ j => if j = 0 then 1 else 0

theorem squares_ones : squares (onesAndZeros.col 0) = 3 := by
  simp [squares, onesAndZeros]

theorem col_zeros : onesAndZeros.col 1 = 0 := by
  funext i
  simp [onesAndZeros]

theorem longest_onesAndZeros : ⨆ k, √(squares (onesAndZeros.col k)) ≤ √3 := by
  apply Real.iSup_le _ (Real.sqrt_nonneg 3)
  intro k
  fin_cases k
  · exact (congrArg Real.sqrt squares_ones).le
  · have hzero : squares (onesAndZeros.col 1) = 0 := squares_eq_zero.mpr col_zeros
    exact Real.sqrt_le_sqrt (hzero.trans_le (by norm_num))

theorem squares_sub_ones (b : ({0} : Finset (Fin 2)) → ℝ) :
    squares (![1, 2, 3] - onesAndZeros.submatrix id ((↑) : ({0} : Finset (Fin 2)) → Fin 2) *ᵥ b) =
      3 * (b default - 2) ^ 2 + 2 := by
  have hones : onesAndZeros.submatrix id ((↑) : ({0} : Finset (Fin 2)) → Fin 2) *ᵥ b =
      fun _ => b default := by
    funext i
    simp [mulVec, dotProduct, onesAndZeros]
  rw [hones, squares, Fin.sum_univ_three]
  simp
  ring

/-- A fit takes the column of ones, so what it leaves are the deviations from the mean. -/
theorem exists_fitSpec_zeros : 0 < 3 ∧ FitSpec onesAndZeros ![1, 2, 3] {0} 2 := by
  obtain ⟨S, residual, h⟩ := exists_fitSpec (by decide) onesAndZeros ![1, 2, 3]
  have hone : (1 : Fin 2) ∉ S := fun hmem => h.independent.ne_zero ⟨1, hmem⟩ col_zeros
  have hzero : (0 : Fin 2) ∈ S := by
    by_contra hnot
    have hempty : S = ∅ := by
      ext j
      fin_cases j <;> simp [hone, hnot]
    subst hempty
    -- The column of ones is not near zero.
    obtain ⟨b, hb⟩ := h.near 0
    have hnone : onesAndZeros.submatrix id ((↑) : (∅ : Finset (Fin 2)) → Fin 2) *ᵥ b = 0 := by
      funext i
      simp [mulVec, dotProduct]
    rw [hnone, sub_zero, squares_ones] at hb
    have hlong : (1 : ℝ) ≤ √3 := Real.one_le_sqrt.mpr (by norm_num)
    linarith [max_le hlong longest_onesAndZeros]
  have hS : S = {0} := by
    ext j
    fin_cases j <;> simp [hone, hzero]
  subst hS
  have hleast : IsLeast (Set.range fun b => squares (![1, 2, 3] -
      onesAndZeros.submatrix id ((↑) : ({0} : Finset (Fin 2)) → Fin 2) *ᵥ b)) 2 := by
    simp only [squares_sub_ones]
    refine ⟨⟨fun _ => 2, by norm_num⟩, ?_⟩
    rintro _ ⟨b, rfl⟩
    linarith [sq_nonneg (b default - 2)]
  rw [h.least.unique hleast] at h
  exact ⟨by decide, h⟩

end

end Significance.LeastSquares
