import Significance.Proofs.Independence

/-! # The rank of a fit

Where the tolerance drops no independent column, a fit reports the dimension of the span of its
columns and the least squared distance from it. Models of complete classifications of at most
`10 ^ 12` records are such. -/

namespace Significance

open LeastSquares Exact

variable {n : ℕ}

theorem LeastSquares.span_ofVector (columns : List (Fin n → ℝ)) :
    Submodule.span ℝ {v : Fin n → ℝ | ofVector v ∈ columns.map ofVector} = columnSpan columns := by
  simp only [List.mem_map_of_injective ofVector_injective]
  rfl

/-- An indicator is no longer than the number of records allows. -/
theorem Column.squares_vector_le (column : Column) : squares (vector n column) ≤ n := by
  have hentry : ∀ i, vector n column i ^ 2 ≤ 1 := by
    intro i
    by_cases hi : column.Holds i
    · simp [vector, hi]
    · simp [vector, hi]
  calc
    squares (vector n column) ≤ ∑ _i : Fin n, (1 : ℝ) := Finset.sum_le_sum fun i _ => hentry i
    _ = n := by simp

variable [Exact.Wording]

namespace LeastSquares

/-- The tolerance drops no column that is independent of the others: every fit by the matrix reports
the rank of the matrix. -/
def KeepsIndependent (matrix : ModelMatrix Exact) : Prop :=
  ∀ (y : Fin matrix.rows → ℝ) (fitted : Fit Exact), fit matrix (ofVector y) = .ok fitted →
    fitted.rank = Module.finrank ℝ
      (Submodule.span ℝ {v : Fin matrix.rows → ℝ | ofVector v ∈ matrix.columns})

variable {columns : List (Fin n → ℝ)}

/-- A fit is determined by the span of the columns. -/
theorem fit_eq (hn : 0 < n) {y : Fin n → ℝ} {r : ℝ}
    (hkeep : KeepsIndependent ⟨n, columns.map ofVector⟩)
    (hr : IsLeastDistance (columnSpan columns) y r) :
    fit ⟨n, columns.map ofVector⟩ (ofVector y) =
      .ok ⟨real r, Module.finrank ℝ (columnSpan columns), n⟩ := by
  obtain ⟨chosen, residual, hfit, hselection, hleast⟩ := fit_spec hn columns y
  have hrank : chosen.length = Module.finrank ℝ (columnSpan columns) := by
    rw [← span_ofVector]
    exact hkeep y _ hfit
  have hspan : columnSpan chosen = columnSpan columns :=
    Submodule.eq_of_le_of_finrank_eq hselection.columnSpan_le (hselection.finrank_eq.trans hrank)
  rw [hspan] at hleast
  rw [hfit, hleast.unique hr, hrank]

/-- Columns that are farther apart than the tolerance are kept. -/
theorem keepsIndependent_of_separated (hn : 0 < n) {margin : ℝ} (h : Separated margin columns)
    (hcutoff : cutoff columns ^ 2 < margin) : KeepsIndependent ⟨n, columns.map ofVector⟩ := by
  intro y fitted hfit
  obtain ⟨chosen, residual, hchosen, hselection, -⟩ := fit_spec hn columns y
  have hpos : 0 < margin := (sq_nonneg (cutoff columns)).trans_lt hcutoff
  have hperm := h.perm_of_selection hcutoff hselection
  rw [hchosen] at hfit
  injection hfit with hfit
  rw [span_ofVector, h.finrank_eq hpos, ← hfit, hperm.length_eq]

end LeastSquares

/-! ## Models of complete classifications -/

namespace CompleteClassification

open Design

variable {g : String → Factor} {factors : List String} {terms : List Term}

/-- No model of a complete classification of at most `10 ^ 12` records loses a column: each is `2⁻⁸`
from the span of the others at least, and the tolerance is `10⁻³` at most. -/
theorem keepsIndependent (h : CompleteClassification n g factors)
    (hlength : factors.length ≤ Term.maxFactors) (hn : n ≤ 10 ^ 12) (hnodup : terms.Nodup)
    (hterms : ∀ term ∈ terms, term ∈ Term.all factors) :
    KeepsIndependent (Variance.modelMatrix (ofBlocks n g terms)) := by
  rw [modelMatrix_eq h.nodup hterms h.coded]
  apply keepsIndependent_of_separated h.pos (h.separated hnodup hterms)
  have hshort : ∀ c ∈ vectors n g terms, squares c ≤ (10 ^ 6 : ℝ) ^ 2 := by
    intro c hc
    obtain ⟨column, -, rfl⟩ := List.mem_map.mp hc
    have hrecords : (n : ℝ) ≤ 10 ^ 12 := by exact_mod_cast hn
    calc
      squares (Column.vector n column) ≤ n := column.squares_vector_le
      _ ≤ (10 ^ 6 : ℝ) ^ 2 := by linarith
  have hcutoff : cutoff (vectors n g terms) ≤ 1e-9 * 10 ^ 6 := cutoff_le (by norm_num) hshort
  have hpos : 0 < cutoff (vectors n g terms) :=
    lt_of_lt_of_le (by norm_num) (le_cutoff (vectors n g terms))
  have hpower : (2 : ℝ) ^ factors.length ≤ 2 ^ 16 := pow_le_pow_right₀ (by norm_num) hlength
  calc
    cutoff (vectors n g terms) ^ 2 ≤ (1e-9 * 10 ^ 6) ^ 2 := pow_le_pow_left₀ hpos.le hcutoff 2
    _ < 1 / 2 ^ 16 := by norm_num
    _ ≤ 1 / 2 ^ factors.length := one_div_le_one_div_of_le (by positivity) hpower

/-- The fit of a model: its rank is its number of columns. -/
theorem fit_eq (h : CompleteClassification n g factors) (hnodup : terms.Nodup)
    (hterms : ∀ term ∈ terms, term ∈ Term.all factors)
    (hkeep : KeepsIndependent (Variance.modelMatrix (ofBlocks n g terms))) {y : Fin n → ℝ} {r : ℝ}
    (hr : IsLeastDistance (columnSpan (vectors n g terms)) y r) :
    fit (Variance.modelMatrix (ofBlocks n g terms)) (ofVector y) =
      .ok ⟨real r, (vectors n g terms).length, n⟩ := by
  rw [modelMatrix_eq h.nodup hterms h.coded] at hkeep ⊢
  rw [LeastSquares.fit_eq h.pos hkeep hr, h.finrank_columnSpan hnodup hterms]

end CompleteClassification

end Significance
