import Significance.Proofs.Rows

/-! # Type II sums of squares

The sum of squares of a term is what it takes off the least distance of the target from the
functions that avoid the term. So it does not matter for the row what else of that kind is in the
target. -/

namespace Significance.Variance

open Success Exact

section

variable [Wording] {d : Distribution Exact} {data : Dataset Exact} {target : String}
  {factors : List String}

/-- Each sum of squares is the difference of two least distances: from the sums of functions of the
levels of sets of factors that do not include all factors of the term, and from those plus any
function of the levels of the term. It is no more than the model explains. -/
theorem sumSquares_eq_sub (hkeep : KeepsIndependent data factors) {table : VarianceTable Exact}
    (htable : multiWay d data target factors = .ok table) {row : Effect Exact}
    (hrow : row ∈ table.effects) :
    ∃ r₀ r₁ left : ℝ,
      row.sumSquares = real (r₀ - r₁) ∧
      IsLeastDistance (avoiding data.level? factors.toFinset row.term.support)
        (data.reals target) r₀ ∧
      IsLeastDistance (avoiding data.level? factors.toFinset row.term.support ⊔
        dependingOn data.level? row.term.support) (data.reals target) r₁ ∧
      r₁ ≤ r₀ ∧
      table.residual.sumSquares = real left ∧
      r₀ - r₁ ≤ totalSquares (data.reals target) - left := by
  obtain ⟨left, hleft⟩ :=
    exists_isLeastDistance (dependingOn data.level? factors.toFinset) (data.reals target)
  obtain ⟨r₀, r₁, h⟩ := exists_isRow hkeep htable hrow
  obtain ⟨-, -, -, effects, -, rfl⟩ := (multiWay_eq_ok_of_keeps hkeep hleft).mp htable
  have hconst : dependingOn data.level? ∅ ≤
      avoiding data.level? factors.toFinset row.term.support :=
    dependingOn_le_avoiding (Finset.empty_subset _) (Term.not_support_subset_empty h.term_mem)
  have hwhole : avoiding data.level? factors.toFinset row.term.support ⊔
      dependingOn data.level? row.term.support ≤ dependingOn data.level? factors.toFinset :=
    sup_le (avoiding_le_dependingOn _ _) (dependingOn_mono (Term.support_subset h.term_mem))
  have htotal : r₀ ≤ totalSquares (data.reals target) :=
    (isLeastDistance_totalSquares data.level? (data.reals target)).anti h.reduced hconst
  have hresidual : left ≤ r₁ := h.augmented.anti hleft hwhole
  have hle : r₁ ≤ r₀ := h.reduced.anti h.augmented le_sup_left
  exact ⟨r₀, r₁, left, h.sumSquares_eq, h.reduced, h.augmented, hle, rfl, by linarith⟩

end

section

open Sample

theorem sumSquares_eq_sub_sample :
    KeepsIndependent Sample.data ["a", "b"] ∧ ∃ table row,
      multiWay Distribution.exactFisher Sample.data "y" ["a", "b"] = .ok table ∧
      row ∈ table.effects ∧ ∃ r₀ r₁ left : ℝ,
        row.sumSquares = real (r₀ - r₁) ∧
        IsLeastDistance (avoiding Sample.data.level? ["a", "b"].toFinset row.term.support)
          (Sample.data.reals "y") r₀ ∧
        IsLeastDistance (avoiding Sample.data.level? ["a", "b"].toFinset row.term.support ⊔
          dependingOn Sample.data.level? row.term.support) (Sample.data.reals "y") r₁ ∧
        r₁ ≤ r₀ ∧
        table.residual.sumSquares = real left ∧
        r₀ - r₁ ≤ totalSquares (Sample.data.reals "y") - left := by
  obtain ⟨table, htable⟩ := exists_table
  have hterm : Term.mk ["a"] ∈ Term.all ["a", "b"] := by decide
  obtain ⟨row, hrow, -⟩ := exists_row_of_term htable hterm
  exact ⟨keeps, table, row, htable, hrow, sumSquares_eq_sub keeps htable hrow⟩

end

section

variable [Wording] {d : Distribution Exact} {data : Dataset Exact} {target : String}
  {factors : List String}

/-- Whatever functions that avoid a term are added to the target, the row of the term and the
residual stay as they are. -/
theorem row_eq_of_sub_mem_avoiding (htails : d.HasTails) (hkeep : KeepsIndependent data factors)
    {terms : List Term} (hlattice : Term.lattice (α := Exact) factors = .ok terms) {term : Term}
    (hterm : term ∈ terms) {target' : String} (hreals : data.HasReals target')
    (hsub : data.reals target' - data.reals target ∈
      avoiding data.level? factors.toFinset term.support)
    {table : VarianceTable Exact} (htable : multiWay d data target factors = .ok table) :
    ∃ table', multiWay d data target' factors = .ok table' ∧ table'.residual = table.residual ∧
      ∃ row, (table.effects.find? fun effect => effect.term = term) = some row ∧
        (table'.effects.find? fun effect => effect.term = term) = some row := by
  obtain ⟨-, -, -, rfl⟩ := Term.lattice_eq_ok.mp hlattice
  obtain ⟨left, hleft⟩ :=
    exists_isLeastDistance (dependingOn data.level? factors.toFinset) (data.reals target)
  obtain ⟨r₀, hr₀⟩ := exists_isLeastDistance
    (avoiding data.level? factors.toFinset term.support) (data.reals target)
  obtain ⟨r₁, hr₁⟩ := exists_isLeastDistance
    (avoiding data.level? factors.toFinset term.support ⊔ dependingOn data.level? term.support)
    (data.reals target)
  have hsum : data.reals target + (data.reals target' - data.reals target) = data.reals target' :=
    add_sub_cancel _ _
  have hleft' := hleft.add (avoiding_le_dependingOn _ _ hsub)
  have hr₀' := hr₀.add hsub
  have hr₁' := hr₁.add (Submodule.mem_sup_left hsub)
  rw [hsum] at hleft' hr₀' hr₁'
  obtain ⟨-, hcrossed, hdf, effects, heffects, rfl⟩ :=
    (multiWay_eq_ok_of_keeps hkeep hleft).mp htable
  obtain ⟨table', htable'⟩ := exists_multiWay htails hreals hcrossed hkeep hdf
  obtain ⟨-, -, -, effects', heffects', rfl⟩ := (multiWay_eq_ok_of_keeps hkeep hleft').mp htable'
  obtain ⟨row, hrow, hfind⟩ := find?_of_mapM heffects (fun _ _ => effect_term) hterm
  obtain ⟨row', hrow', hfind'⟩ := find?_of_mapM heffects' (fun _ _ => effect_term) hterm
  have hsame : row' = row := by
    rw [effect_eq hcrossed hkeep hterm hr₀ hr₁] at hrow
    rw [effect_eq hcrossed hkeep hterm hr₀' hr₁', hrow] at hrow'
    injection hrow' with hrow'
    exact hrow'.symm
  subst hsame
  exact ⟨_, htable', rfl, row', hfind, hfind'⟩

end

section

open Sample

/-- The columns `y` and `z` of the sample have the same row for the factor `a`. -/
theorem row_eq_of_sub_mem_avoiding_sample :
    Sample.data.HasReals "z" ∧ ∃ table table' row,
      multiWay Distribution.exactFisher Sample.data "y" ["a", "b"] = .ok table ∧
      multiWay Distribution.exactFisher Sample.data "z" ["a", "b"] = .ok table' ∧
      table'.residual = table.residual ∧
      (table.effects.find? fun effect => effect.term = ⟨["a"]⟩) = some row ∧
      (table'.effects.find? fun effect => effect.term = ⟨["a"]⟩) = some row := by
  have hreals := hasReals "z" (by simp)
  have hsub : Sample.data.reals "z" - Sample.data.reals "y" ∈
      avoiding Sample.data.level? ["a", "b"].toFinset (Term.mk ["a"]).support :=
    dependingOn_le_avoiding (by decide) (by decide) reals_sub_mem
  obtain ⟨table, htable⟩ := exists_table
  have hlattice : Term.lattice (α := Exact) ["a", "b"] = .ok (Term.all ["a", "b"]) := rfl
  obtain ⟨table', htable', hresidual, row, hfind, hfind'⟩ :=
    row_eq_of_sub_mem_avoiding hasTails keeps hlattice (by decide) hreals hsub htable
  exact ⟨hreals, table, table', row, htable, htable', hresidual, hfind, hfind'⟩

end

end Significance.Variance
