import Significance.Proofs.Rows

/-! # Degrees of freedom

A term has one degree of freedom for each combination of levels but the first of its factors, the
residual has those of the records beyond the cells. What the residual sums up are the deviations
from the means of the cells. -/

namespace Significance

open Success Exact

namespace Dataset

variable {α : Type} [Scalar α]

/-- The cells of the full cross-classification: a label of each factor. -/
def cells (data : Dataset α) (factors : List String) :
    Finset (factors.toFinset → Option String) :=
  Fintype.piFinset fun name => Finset.univ.image fun i => data.level? i name

def cellOf (data : Dataset α) (factors : List String) (i : Fin data.size)
    (name : factors.toFinset) : Option String :=
  data.level? i name

def recordsIn (data : Dataset α) {factors : List String}
    (cell : factors.toFinset → Option String) : Finset (Fin data.size) :=
  {i | ∀ name : factors.toFinset, data.level? i name = cell name}

end Dataset

section Cells

variable [Wording] (data : Dataset Exact)

/-- The sum over the cells of the squared deviations from the mean of the cell. -/
noncomputable def Dataset.withinCells (target : String) (factors : List String) : ℝ :=
  ∑ cell ∈ data.cells factors, ∑ i ∈ data.recordsIn cell,
    (data.reals target i -
      (∑ j ∈ data.recordsIn cell, data.reals target j) / (data.recordsIn cell).card) ^ 2

variable (factors : List String) (y : Fin data.size → ℝ)

theorem mem_recordsIn {cell : factors.toFinset → Option String} {i : Fin data.size} :
    i ∈ data.recordsIn cell ↔ data.cellOf factors i = cell := by
  rw [Dataset.recordsIn, Finset.mem_filter_univ]
  exact funext_iff.symm

theorem cellOf_mem_cells (i : Fin data.size) : data.cellOf factors i ∈ data.cells factors :=
  Fintype.mem_piFinset.mpr fun _ => Finset.mem_image_of_mem _ (Finset.mem_univ i)

theorem agree_iff_mem_recordsIn {i j : Fin data.size} :
    Agree data.level? factors.toFinset i j ↔ j ∈ data.recordsIn (data.cellOf factors i) := by
  rw [mem_recordsIn, funext_iff]
  constructor
  · exact fun h name => (h name name.2).symm
  · exact fun h name hname => (h ⟨name, hname⟩).symm

theorem cellMean_eq (i : Fin data.size) :
    cellMean data.level? factors.toFinset y i =
      (∑ j ∈ data.recordsIn (data.cellOf factors i), y j) /
        (data.recordsIn (data.cellOf factors i)).card := by
  simp [cellMean, cellSum, agree_iff_mem_recordsIn]

/-- The means of the cells are the nearest function of all levels. -/
theorem isLeastDistance_withinCells (target : String) :
    IsLeastDistance (dependingOn data.level? factors.toFinset) (data.reals target)
      (data.withinCells target factors) := by
  have hsum : data.withinCells target factors =
      squares (data.reals target - cellMean data.level? factors.toFinset (data.reals target)) := by
    calc
      data.withinCells target factors
          = ∑ cell ∈ data.cells factors, ∑ i with data.cellOf factors i = cell,
              (data.reals target i -
                cellMean data.level? factors.toFinset (data.reals target) i) ^ 2 := by
        apply Finset.sum_congr rfl
        intro cell _
        apply Finset.sum_congr
        · ext i
          rw [mem_recordsIn, Finset.mem_filter_univ]
        · intro i hi
          rw [cellMean_eq, (Finset.mem_filter.mp hi).2]
      _ = squares (data.reals target -
            cellMean data.level? factors.toFinset (data.reals target)) :=
        Finset.sum_fiberwise_of_maps_to (fun i _ => cellOf_mem_cells data factors i) _
  rw [hsum]
  exact isLeastDistance_cellMean factors.toFinset (data.reals target)

end Cells

namespace Variance

section

variable [Wording] {d : Distribution Exact} {data : Dataset Exact} {target : String}
  {factors : List String}

theorem IsRow.df_ne_zero (hcrossed : Crossed data factors) {row : Effect Exact} {r₀ r₁ : ℝ}
    (h : IsRow data target factors row r₀ r₁) : row.df ≠ 0 := by
  rw [h.df_eq]
  apply Finset.prod_ne_zero_iff.mpr
  intro name hname
  have htwo := hcrossed.two_le name
    (List.mem_toFinset.mp (Term.support_subset h.term_mem hname))
  omega

/-- A row has the product of the numbers of levels less one, the residual what the records exceed
the cells by; with one for the mean they add up to the number of records. The residual sum of
squares is that within the cells. -/
theorem freedom_eq (hkeep : KeepsIndependent data factors) {table : VarianceTable Exact}
    (htable : multiWay d data target factors = .ok table) :
    (∀ row ∈ table.effects,
      row.df = ∏ name ∈ row.term.support, (data.levelCount name - 1) ∧ row.df ≠ 0) ∧
    table.residual.df + ∏ name ∈ factors.toFinset, data.levelCount name = data.size ∧
    (table.effects.map Effect.df).sum + table.residual.df + 1 = data.size ∧
    table.residual.sumSquares = real (data.withinCells target factors) := by
  have hleft := isLeastDistance_withinCells data factors target
  obtain ⟨-, hcrossed, hdf, effects, heffects, rfl⟩ :=
    (multiWay_eq_ok_of_keeps hkeep hleft).mp htable
  have hsum := Term.sum_all_prod hcrossed.nodup hcrossed.levelCount_pos
  have hrows : effects.map Effect.df =
      (Term.all factors).map fun term => ∏ name ∈ term.support, (data.levelCount name - 1) := by
    apply map_of_mapM_eq_ok heffects
    intro term hterm row hrow
    obtain ⟨rfl, r₀, r₁, h⟩ := exists_isRow_of_effect hcrossed hkeep hterm hrow
    exact h.df_eq
  refine ⟨?_, ?_, ?_, rfl⟩
  · intro row hrow
    obtain ⟨r₀, r₁, h⟩ := exists_isRow hkeep htable hrow
    exact ⟨h.df_eq, h.df_ne_zero hcrossed⟩
  · dsimp only
    omega
  · dsimp only
    rw [hrows]
    omega

end

section

open Sample

theorem freedom_eq_sample :
    KeepsIndependent Sample.data ["a", "b"] ∧ ∃ table,
      multiWay Distribution.exactFisher Sample.data "y" ["a", "b"] = .ok table ∧
      (∀ row ∈ table.effects,
        row.df = ∏ name ∈ row.term.support, (Sample.data.levelCount name - 1) ∧ row.df ≠ 0) ∧
      table.residual.df + ∏ name ∈ ["a", "b"].toFinset, Sample.data.levelCount name =
        Sample.data.size ∧
      (table.effects.map Effect.df).sum + table.residual.df + 1 = Sample.data.size ∧
      table.residual.sumSquares = real (Sample.data.withinCells "y" ["a", "b"]) := by
  obtain ⟨table, htable⟩ := exists_table
  exact ⟨keeps, table, htable, freedom_eq keeps htable⟩

end

end Variance

end Significance
