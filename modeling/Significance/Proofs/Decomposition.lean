import Significance.Proofs.Rank

/-! # The decomposition over several factors

When a decomposition succeeds, and what its fits are: the spaces of the models, their dimensions and
the distances of the target from them. -/

namespace Significance

open Success LeastSquares Exact

variable [Exact.Wording]

namespace Variance

theorem testableFactors_eq_ok {data : Dataset Exact} {names : List String}
    {groupings : List Factor} :
    testableFactors data names = .ok groupings ↔
      (∀ name ∈ names, data.HasLevels name ∧ 2 ≤ data.levelCount name) ∧
        groupings = names.map data.grouping := by
  apply mapM_eq_ok_map
  intro name _ factor
  simp only [bind_eq_ok, pure_eq_ok, Dataset.ofDataset_eq_ok]
  constructor
  · rintro ⟨_, ⟨hlevels, rfl⟩, _, htestable, rfl⟩
    have hcount := Factor.ensureTestable_eq_ok.mp htestable
    rw [hlevels.length_levels] at hcount
    exact ⟨⟨hlevels, hcount⟩, rfl⟩
  · rintro ⟨⟨hlevels, hcount⟩, rfl⟩
    rw [← hlevels.length_levels] at hcount
    exact ⟨_, ⟨hlevels, rfl⟩, (), Factor.ensureTestable_eq_ok.mpr hcount, rfl⟩

/-- What the factors must be like: some, distinct, not too many, each with two levels at least, and
with a record for every combination of levels. -/
structure Crossed (data : Dataset Exact) (factors : List String) : Prop where
  ne_nil : factors ≠ []
  nodup : factors.Nodup
  length_le : factors.length ≤ Term.maxFactors
  hasLevels : ∀ name ∈ factors, data.HasLevels name
  two_le : ∀ name ∈ factors, 2 ≤ data.levelCount name
  complete : Complete data.size data.grouping factors.toFinset

/-- The design over all interactions of some fields. -/
def design {α : Type} [Scalar α] (data : Dataset α) (factors : List String) : Design :=
  Design.ofBlocks data.size data.grouping (Term.all factors)

/-- No fit of a decomposition loses an independent column to the tolerance. -/
def KeepsIndependent (data : Dataset Exact) (factors : List String) : Prop :=
  ∀ (groupings : List Factor) (terms : List Term) (whole : Design),
    testableFactors data factors = .ok groupings →
    Term.lattice (α := Exact) factors = .ok terms →
    Cell.check (α := Exact) groupings terms = .ok () →
    Design.ofTerms (α := Exact) groupings terms = .ok whole →
    LeastSquares.KeepsIndependent (modelMatrix whole) ∧
      ∀ term ∈ terms,
        let base := terms.filter fun other => !other.includes term
        LeastSquares.KeepsIndependent (modelMatrix (whole.select base)) ∧
        LeastSquares.KeepsIndependent (modelMatrix (whole.select (base ++ [term])))

namespace Crossed

variable {data : Dataset Exact} {factors : List String}

theorem levelCount_pos (h : Crossed data factors) :
    ∀ name ∈ factors, 0 < data.levelCount name :=
  fun name hname => Nat.zero_lt_of_lt (h.two_le name hname)

theorem pos (h : Crossed data factors) : 0 < data.size := by
  obtain ⟨name, hname⟩ := List.exists_mem_of_ne_nil factors h.ne_nil
  exact Dataset.size_pos_of_levelCount (h.levelCount_pos name hname)

theorem length_levels (h : Crossed data factors) :
    ∀ name ∈ factors.toFinset, (data.grouping name).levels.length = data.levelCount name :=
  fun name hname => (h.hasLevels name (List.mem_toFinset.mp hname)).length_levels

theorem classification (h : Crossed data factors) :
    CompleteClassification data.size data.grouping factors :=
  ⟨h.nodup, h.pos, fun _ => rfl, fun name _ => data.coded_grouping name, h.complete⟩

/-- Crossed factors pass all checks. -/
theorem checks (h : Crossed data factors) :
    testableFactors data factors = .ok (factors.map data.grouping) ∧
      Term.lattice (α := Exact) factors = .ok (Term.all factors) ∧
      Cell.check (α := Exact) (factors.map data.grouping) (Term.all factors) = .ok () ∧
      Design.ofTerms (α := Exact) (factors.map data.grouping) (Term.all factors) =
        .ok (design data factors) := by
  refine ⟨?_, ?_, ?_, ?_⟩
  · refine testableFactors_eq_ok.mpr ⟨?_, rfl⟩
    exact fun name hname => ⟨h.hasLevels name hname, h.two_le name hname⟩
  · exact Term.lattice_eq_ok.mpr ⟨h.ne_nil, h.nodup, h.length_le, rfl⟩
  · exact (Cell.check_eq_ok data.grouping (fun _ => rfl) h.ne_nil h.nodup
      h.classification.coded).mpr h.complete
  · exact Design.ofTerms_eq (fun _ => rfl) h.ne_nil h.pos h.classification.coded

/-- Only crossed factors pass all checks. -/
theorem of_checks {groupings : List Factor} {terms : List Term} {whole : Design}
    (hgroupings : testableFactors data factors = .ok groupings)
    (hlattice : Term.lattice (α := Exact) factors = .ok terms)
    (hcheck : Cell.check (α := Exact) groupings terms = .ok ())
    (hwhole : Design.ofTerms (α := Exact) groupings terms = .ok whole) :
    Crossed data factors ∧ terms = Term.all factors ∧ whole = design data factors := by
  obtain ⟨htestable, rfl⟩ := testableFactors_eq_ok.mp hgroupings
  obtain ⟨hne, hnodup, hlength, rfl⟩ := Term.lattice_eq_ok.mp hlattice
  have hcoded : ∀ name ∈ factors, (data.grouping name).Coded data.size :=
    fun name _ => data.coded_grouping name
  obtain ⟨name, hname⟩ := List.exists_mem_of_ne_nil factors hne
  have hpos : 0 < data.size :=
    Dataset.size_pos_of_levelCount (Nat.zero_lt_of_lt (htestable name hname).2)
  have hcomplete := (Cell.check_eq_ok data.grouping (fun _ => rfl) hne hnodup hcoded).mp hcheck
  rw [Design.ofTerms_eq (fun _ => rfl) hne hpos hcoded] at hwhole
  injection hwhole with hwhole
  exact ⟨⟨hne, hnodup, hlength, fun x hx => (htestable x hx).1, fun x hx => (htestable x hx).2,
    hcomplete⟩, rfl, hwhole.symm⟩

end Crossed

/-! ## When it succeeds -/

/-- A decomposition succeeds if its target is a column of numbers, its factors are crossed, the full
model leaves some degrees of freedom, and every row can be tested. -/
theorem multiWay_eq_ok {d : Distribution Exact} {data : Dataset Exact} {target : String}
    {factors : List String} {table : VarianceTable Exact} :
    multiWay d data target factors = .ok table ↔
      data.HasReals target ∧ Crossed data factors ∧
      ∃ full : Fit Exact,
        LeastSquares.fit (modelMatrix (design data factors)) (ofVector (data.reals target)) =
          .ok full ∧
        full.residualDf ≠ 0 ∧
        ∃ effects : List (Effect Exact),
          (Term.all factors).mapM (effect d (design data factors) (Term.all factors)
              (ofVector (data.reals target)) ⟨full.residual, full.residualDf⟩) = .ok effects ∧
          table = ⟨.multiWay, target, Term.formula target (Term.all factors), effects,
            ⟨full.residual, full.residualDf⟩, data.size⟩ := by
  simp only [multiWay, bind_eq_ok, check_eq_ok, pure_eq_ok, Dataset.numericColumn_eq_ok]
  constructor
  · rintro ⟨_, ⟨hreals, rfl⟩, groupings, hgroupings, terms, hlattice, ⟨⟩, hcheck, whole, hwhole,
      full, hfull, hdf, effects, heffects, rfl⟩
    obtain ⟨hcrossed, rfl, rfl⟩ := Crossed.of_checks hgroupings hlattice hcheck hwhole
    refine ⟨hreals, hcrossed, full, hfull, hdf, effects, heffects, ?_⟩
    rw [length_ofVector]
  · rintro ⟨hreals, hcrossed, full, hfull, hdf, effects, heffects, rfl⟩
    obtain ⟨hgroupings, hlattice, hcheck, hwhole⟩ := hcrossed.checks
    refine ⟨_, ⟨hreals, rfl⟩, _, hgroupings, _, hlattice, (), hcheck, _, hwhole, full, hfull, hdf,
      effects, heffects, ?_⟩
    rw [length_ofVector]

/-! ## The fits -/

namespace Crossed

variable {data : Dataset Exact} {factors : List String}

theorem code_eq_iff (h : Crossed data factors) :
    ∀ name ∈ factors.toFinset, ∀ i j, codes data.grouping i name = codes data.grouping j name ↔
      data.level? i name = data.level? j name :=
  fun name hname _ _ => (h.hasLevels name (List.mem_toFinset.mp hname)).code_eq_iff

theorem columnSpan_all (h : Crossed data factors) :
    columnSpan (Design.vectors data.size data.grouping (Term.all factors)) =
      dependingOn data.level? factors.toFinset := by
  rw [Design.columnSpan_all h.nodup h.classification.coded]
  exact dependingOn_congr h.code_eq_iff

variable {term : Term}

theorem columnSpan_without (h : Crossed data factors) (hterm : term ∈ Term.all factors) :
    columnSpan (Design.vectors data.size data.grouping (Term.without factors term)) =
      avoiding data.level? factors.toFinset term.support := by
  rw [Design.columnSpan_without h.nodup h.classification.coded hterm]
  exact avoiding_congr h.code_eq_iff _

theorem columnSpan_upTo (h : Crossed data factors) (hterm : term ∈ Term.all factors) :
    columnSpan (Design.vectors data.size data.grouping (Term.upTo factors term)) =
      avoiding data.level? factors.toFinset term.support ⊔
        dependingOn data.level? term.support := by
  rw [Design.columnSpan_upTo h.nodup h.classification.coded hterm, avoiding_congr h.code_eq_iff,
    dependingOn_congr fun name hname => h.code_eq_iff name (Term.support_subset hterm hname)]

theorem finrank_dependingOn (h : Crossed data factors) :
    Module.finrank ℝ (dependingOn data.level? factors.toFinset) =
      ∏ name ∈ factors.toFinset, data.levelCount name := by
  have hlevels : ∀ name ∈ factors, 0 < (data.grouping name).levels.length := by
    intro name hname
    rw [h.length_levels name (List.mem_toFinset.mpr hname)]
    exact h.levelCount_pos name hname
  rw [← h.columnSpan_all, h.classification.finrank_columnSpan (Term.nodup_all h.nodup)
    fun _ hx => hx, Design.length_vectors_all h.nodup hlevels]
  exact Finset.prod_congr rfl h.length_levels

/-- The matrices of a decomposition, none of which loses an independent column. -/
theorem keeps (h : Crossed data factors) (hkeep : KeepsIndependent data factors) :
    LeastSquares.KeepsIndependent (modelMatrix (design data factors)) ∧
      ∀ term ∈ Term.all factors,
        LeastSquares.KeepsIndependent
          (modelMatrix ((design data factors).select (Term.without factors term))) ∧
        LeastSquares.KeepsIndependent
          (modelMatrix ((design data factors).select (Term.without factors term ++ [term]))) := by
  obtain ⟨hgroupings, hlattice, hcheck, hwhole⟩ := h.checks
  exact hkeep _ _ _ hgroupings hlattice hcheck hwhole

end Crossed

/-- No decomposition of at most `10 ^ 12` records loses an independent column. -/
theorem keepsIndependent {data : Dataset Exact} (hsize : data.size ≤ 10 ^ 12)
    (factors : List String) : KeepsIndependent data factors := by
  intro groupings terms whole hgroupings hlattice hcheck hwhole
  obtain ⟨h, rfl, rfl⟩ := Crossed.of_checks hgroupings hlattice hcheck hwhole
  have hkeep : ∀ terms : List Term, terms.Sublist (Term.all factors) →
      LeastSquares.KeepsIndependent
        (modelMatrix (Design.ofBlocks data.size data.grouping terms)) := by
    intro terms hsub
    exact h.classification.keepsIndependent h.length_le hsize (hsub.nodup (Term.nodup_all h.nodup))
      fun _ hx => hsub.subset hx
  refine ⟨hkeep _ (List.Sublist.refl _), ?_⟩
  intro term _ base
  rw [design, Design.select_ofBlocks, Design.select_ofBlocks]
  exact ⟨hkeep _ List.filter_sublist, hkeep _ List.filter_sublist⟩

namespace Crossed

variable {data : Dataset Exact} {factors : List String}

/-- The fit of a model: its rank is its number of columns. -/
theorem fitTerms_eq (h : Crossed data factors) {chosen terms : List Term}
    (hterms : (Term.all factors).filter (chosen.contains ·) = terms)
    (hkeep : LeastSquares.KeepsIndependent (modelMatrix ((design data factors).select chosen)))
    {space : Submodule ℝ (Fin data.size → ℝ)} {y : Fin data.size → ℝ} {r : ℝ}
    (hspace : columnSpan (Design.vectors data.size data.grouping terms) = space)
    (hr : IsLeastDistance space y r) :
    fitTerms (design data factors) (ofVector y) chosen =
      .ok ⟨real r, (Design.vectors data.size data.grouping terms).length, data.size⟩ := by
  rw [fitTerms]
  rw [design, Design.select_ofBlocks, hterms] at hkeep ⊢
  subst hterms
  rw [← hspace] at hr
  exact h.classification.fit_eq ((Term.nodup_all h.nodup).filter _)
    (fun _ hx => List.mem_of_mem_filter hx) hkeep hr

end Crossed

/-! ## The rows -/

section Rows

variable {d : Distribution Exact} {data : Dataset Exact} {target : String} {factors : List String}
  {y : Fin data.size → ℝ}

/-- The row of a term is tested with what the term takes off the distance from the functions that
avoid it. -/
theorem effect_eq (h : Crossed data factors) (hkeep : KeepsIndependent data factors) {term : Term}
    (hterm : term ∈ Term.all factors) {r₀ r₁ : ℝ}
    (hr₀ : IsLeastDistance (avoiding data.level? factors.toFinset term.support) y r₀)
    (hr₁ : IsLeastDistance (avoiding data.level? factors.toFinset term.support ⊔
      dependingOn data.level? term.support) y r₁) (residual : Residual Exact) :
    effect d (design data factors) (Term.all factors) (ofVector y) residual term =
      test d term (real (r₀ - r₁)) (∏ name ∈ term.support, (data.levelCount name - 1))
        residual := by
  obtain ⟨hwithout, hupTo⟩ := (h.keeps hkeep).2 term hterm
  have hreduced := h.fitTerms_eq (Term.filter_without factors term) hwithout
    (h.columnSpan_without hterm) hr₀
  have haugmented := h.fitTerms_eq (Term.filter_upTo factors term) hupTo
    (h.columnSpan_upTo hterm) hr₁
  have hle : r₁ ≤ r₀ := hr₀.anti hr₁ le_sup_left
  have hfreedom : ∏ name ∈ term.support, ((data.grouping name).levels.length - 1) =
      ∏ name ∈ term.support, (data.levelCount name - 1) := by
    apply Finset.prod_congr rfl
    intro name hname
    rw [h.length_levels name (Term.support_subset hterm hname)]
  change (do
    let reduced ← fitTerms (design data factors) (ofVector y) (Term.without factors term)
    let augmented ← fitTerms (design data factors) (ofVector y)
      (Term.without factors term ++ [term])
    let sumSquares := Scalar.maximum (reduced.residual - augmented.residual) 0.0
    test d term sumSquares (augmented.rank - reduced.rank) residual) = _
  rw [hreduced, haugmented]
  change test d term (Scalar.maximum (real r₀ - real r₁) 0.0) (_ - _) residual = _
  rw [real_sub, zero_eq, maximum_real, max_eq_left (sub_nonneg.mpr hle),
    Design.length_vectors_upTo h.nodup hterm, Nat.add_sub_cancel_left, hfreedom]

/-- The full model leaves the distance from the functions of all levels. -/
theorem full_eq (h : Crossed data factors) (hkeep : KeepsIndependent data factors) {left : ℝ}
    (hleft : IsLeastDistance (dependingOn data.level? factors.toFinset) y left) :
    LeastSquares.fit (modelMatrix (design data factors)) (ofVector y) =
      .ok ⟨real left, ∏ name ∈ factors.toFinset, data.levelCount name, data.size⟩ := by
  have hfinrank := h.classification.finrank_columnSpan (Term.nodup_all h.nodup) fun _ hx => hx
  rw [h.columnSpan_all, h.finrank_dependingOn] at hfinrank
  rw [hfinrank]
  rw [← h.columnSpan_all] at hleft
  exact h.classification.fit_eq (Term.nodup_all h.nodup) (fun _ hx => hx) (h.keeps hkeep).1 hleft

/-- A decomposition in terms of the distance that the full model leaves. -/
theorem multiWay_eq_ok_of_keeps (hkeep : KeepsIndependent data factors) {left : ℝ}
    (hleft : IsLeastDistance (dependingOn data.level? factors.toFinset) (data.reals target) left)
    {table : VarianceTable Exact} :
    multiWay d data target factors = .ok table ↔
      data.HasReals target ∧ Crossed data factors ∧
      data.size - ∏ name ∈ factors.toFinset, data.levelCount name ≠ 0 ∧
      ∃ effects : List (Effect Exact),
        (Term.all factors).mapM (effect d (design data factors) (Term.all factors)
            (ofVector (data.reals target))
            ⟨real left, data.size - ∏ name ∈ factors.toFinset, data.levelCount name⟩) =
          .ok effects ∧
        table = ⟨.multiWay, target, Term.formula target (Term.all factors), effects,
          ⟨real left, data.size - ∏ name ∈ factors.toFinset, data.levelCount name⟩, data.size⟩ := by
  rw [multiWay_eq_ok]
  constructor
  · rintro ⟨hreals, hcrossed, full, hfull, hrest⟩
    rw [full_eq hcrossed hkeep hleft] at hfull
    injection hfull with hfull
    subst hfull
    exact ⟨hreals, hcrossed, hrest⟩
  · rintro ⟨hreals, hcrossed, hrest⟩
    exact ⟨hreals, hcrossed, _, full_eq hcrossed hkeep hleft, hrest⟩

end Rows

end Variance

end Significance
