import Significance.Proofs.Contrast

/-! # Independent columns

Every column of a model of a complete classification keeps a distance from the span of the others.
So the columns are independent, and where there are at most `10 ^ 12` records none is within the
tolerance for the rank. -/

namespace Significance

open LeastSquares Exact

variable {n : ℕ}

namespace LeastSquares

/-! ## Separated columns -/

/-- Each column has at least some squared distance from the span of the others. -/
def Separated (margin : ℝ) (columns : List (Fin n → ℝ)) : Prop :=
  ∀ c others, (c :: others).Perm columns → ∀ v ∈ columnSpan others, margin ≤ squares (c - v)

namespace Separated

variable {margin tolerance : ℝ} {columns chosen : List (Fin n → ℝ)}

theorem finrank_eq (h : Separated margin columns) (hmargin : 0 < margin) :
    Module.finrank ℝ (columnSpan columns) = columns.length := by
  induction columns with
  | nil => exact Nat.le_zero.mp (finrank_columnSpan_le [])
  | cons c columns ih =>
      have htail : Separated margin columns := by
        intro d others hperm v hv
        have hswap : (d :: c :: others).Perm (c :: columns) :=
          (List.Perm.swap c d others).trans (hperm.cons c)
        exact h d (c :: others) hswap v
          (columnSpan_mono (fun u hu => List.mem_cons_of_mem c hu) hv)
      have hnew : c ∉ columnSpan columns := by
        intro hmem
        have hle := h c columns (List.Perm.refl _) c hmem
        rw [sub_self, squares_eq_zero.mpr rfl] at hle
        exact hle.not_gt hmargin
      have hlt : columnSpan columns < columnSpan (c :: columns) := by
        refine lt_of_le_of_ne (columnSpan_mono fun u hu => List.mem_cons_of_mem c hu) ?_
        intro heq
        rw [heq] at hnew
        exact hnew (Submodule.subset_span List.mem_cons_self)
      have hgrow := Submodule.finrank_lt_finrank_of_lt hlt
      rw [ih htail] at hgrow
      exact (finrank_columnSpan_le _).antisymm hgrow

/-- No column is left out of a selection with a smaller tolerance. -/
theorem perm_of_selection (h : Separated margin columns) (hmargin : tolerance ^ 2 < margin)
    (hselection : Selection tolerance columns chosen) : chosen.Perm columns := by
  obtain ⟨dropped, hperm⟩ := hselection.perm
  cases dropped with
  | nil => rwa [List.append_nil] at hperm
  | cons c dropped =>
      have hcons : (c :: (chosen ++ dropped)).Perm columns := List.perm_middle.symm.trans hperm
      obtain ⟨v, hv, hnear⟩ := hselection.near c (hcons.mem_iff.mp List.mem_cons_self)
      have hspan : v ∈ columnSpan (chosen ++ dropped) :=
        columnSpan_mono (fun u hu => List.mem_append_left dropped hu) hv
      have hfar := h c _ hcons v hspan
      linarith

end Separated

/-- The tolerance is a billionth of the longest column at most. -/
theorem cutoff_le {columns : List (Fin n → ℝ)} {bound : ℝ} (hbound : 1 ≤ bound)
    (h : ∀ c ∈ columns, squares c ≤ bound ^ 2) : cutoff columns ≤ 1e-9 * bound := by
  have hlongest : (columns.map fun c => √(squares c)).foldl max 0 ≤ bound := by
    apply foldl_max_le (by linarith)
    rw [List.forall_mem_map]
    intro c hc
    exact (Real.sqrt_le_left (by linarith)).mpr (h c hc)
  exact mul_le_mul_of_nonneg_left (max_le hlongest hbound) (by norm_num)

end LeastSquares

/-! ## Complete classifications -/

/-- Distinct factors of at least one record, with a record for every combination of levels. -/
structure CompleteClassification (n : ℕ) (g : String → Factor) (factors : List String) : Prop where
  nodup : factors.Nodup
  pos : 0 < n
  name_eq : ∀ name, (g name).name = name
  coded : ∀ name ∈ factors, (g name).Coded n
  complete : Complete n g factors.toFinset

namespace CompleteClassification

open Design

variable {g : String → Factor} {factors : List String} {terms : List Term}

/-- Every column of a model is that of some levels other than the first. -/
theorem exists_ofLevels (h : CompleteClassification n g factors)
    (hterms : ∀ term ∈ terms, term ∈ Term.all factors) {column : Column}
    (hcolumn : column ∈ (ofBlocks n g terms).columns) :
    ∃ (own : List String) (a : String → ℕ), own.Sublist factors ∧
      (∀ name ∈ own, 0 < a name ∧ a name < (g name).levels.length) ∧
      column = Column.ofLevels g own a := by
  rcases mem_columns.mp hcolumn with rfl | ⟨term, hterm, hmem⟩
  · exact ⟨[], fun _ => 0, List.nil_sublist factors, by simp, rfl⟩
  · have hsub := (Term.mem_all.mp (hterms term hterm)).1
    obtain ⟨a, ha, rfl⟩ := (Column.mem_combinations (hsub.nodup h.nodup)).mp hmem
    exact ⟨term.factors, a, hsub, ha, rfl⟩

theorem nodup_columns (h : CompleteClassification n g factors) (hnodup : terms.Nodup)
    (hterms : ∀ term ∈ terms, term ∈ Term.all factors) : (ofBlocks n g terms).columns.Nodup := by
  have hfactors : ∀ term ∈ terms, ∀ column ∈ Column.combinations (term.factors.map g),
      column.map (fun requirement => requirement.factor.name) = term.factors := by
    intro term hterm column hcolumn
    have hsub := (Term.mem_all.mp (hterms term hterm)).1
    obtain ⟨a, -, rfl⟩ := (Column.mem_combinations (hsub.nodup h.nodup)).mp hcolumn
    simp [Column.ofLevels, Function.comp_def, h.name_eq]
  rw [ofBlocks, List.nodup_cons, List.nodup_flatMap]
  refine ⟨?_, ?_, ?_⟩
  · intro hmem
    obtain ⟨term, hterm, hcolumn⟩ := List.mem_flatMap.mp hmem
    exact (Term.mem_all.mp (hterms term hterm)).2 (hfactors term hterm [] hcolumn).symm
  · intro term _
    exact Column.nodup_combinations _
  · apply hnodup.imp_of_mem
    intro term other hterm hother hne column hcolumn hcolumn'
    have hsame := (hfactors term hterm column hcolumn).symm.trans
      (hfactors other hother column hcolumn')
    exact hne (congrArg Term.mk hsame)

/-- A column has a contrast that vanishes on all others and is not much longer than its argument. -/
theorem exists_contrast (h : CompleteClassification n g factors)
    (hterms : ∀ term ∈ terms, term ∈ Term.all factors) {column : Column}
    (hcolumn : column ∈ (ofBlocks n g terms).columns) :
    ∃ φ : (Fin n → ℝ) →ₗ[ℝ] ℝ, φ (Column.vector n column) = 1 ∧
      (∀ other ∈ (ofBlocks n g terms).columns, other ≠ column → φ (Column.vector n other) = 0) ∧
      ∀ v, φ v ^ 2 ≤ 2 ^ factors.length * squares v := by
  obtain ⟨own, a, hsub, ha, rfl⟩ := h.exists_ofLevels hterms hcolumn
  have hbound : ∀ name ∈ own.toFinset, 0 < a name ∧ a name < (g name).levels.length :=
    fun name hname => ha name (List.mem_toFinset.mp hname)
  obtain ⟨corner, hcorner⟩ := exists_corners h.pos
    (fun name hname => h.coded name (List.mem_toFinset.mp hname)) h.complete
    fun name hname => (hbound name hname).2
  refine ⟨contrast own.toFinset corner, ?_, ?_, ?_⟩
  · exact hcorner.contrast_self (fun name hname => List.mem_toFinset.mpr (hsub.subset hname))
      fun name hname => (ha name hname).1
  · intro other hother hne
    obtain ⟨own', b, hsub', hb, rfl⟩ := h.exists_ofLevels hterms hother
    exact hcorner.contrast_of_ne h.nodup hsub hsub' (fun name hname => (hb name hname).1) hne
  · intro v
    calc
      contrast own.toFinset corner v ^ 2 ≤ 2 ^ own.toFinset.card * squares v :=
        hcorner.contrast_sq_le (Term.toFinset_subset_of_sublist hsub)
          (fun name hname => (hbound name hname).1) v
      _ ≤ 2 ^ factors.length * squares v := by
        apply mul_le_mul_of_nonneg_right _ (squares_nonneg v)
        rw [List.toFinset_card_of_nodup (hsub.nodup h.nodup)]
        exact pow_le_pow_right₀ (by norm_num) hsub.length_le

theorem separated (h : CompleteClassification n g factors) (hnodup : terms.Nodup)
    (hterms : ∀ term ∈ terms, term ∈ Term.all factors) :
    Separated (1 / 2 ^ factors.length) (vectors n g terms) := by
  intro c vs hperm v hv
  obtain ⟨list, hlist, hmap⟩ := exists_perm_of_map_perm hperm
  obtain ⟨column, others, rfl, rfl, rfl⟩ := List.map_eq_cons_iff.mp hmap
  have hmem : ∀ d ∈ column :: others, d ∈ (ofBlocks n g terms).columns :=
    fun d hd => hlist.mem_iff.mp hd
  have hnew : column ∉ others :=
    (List.nodup_cons.mp (hlist.nodup_iff.mpr (h.nodup_columns hnodup hterms))).1
  obtain ⟨φ, hself, hzero, hle⟩ := h.exists_contrast hterms (hmem column List.mem_cons_self)
  have hothers : columnSpan (others.map (Column.vector n)) ≤ LinearMap.ker φ := by
    apply Submodule.span_le.mpr
    intro w hw
    obtain ⟨other, hother, rfl⟩ := List.mem_map.mp hw
    exact hzero other (hmem other (List.mem_cons_of_mem _ hother)) fun heq => hnew (heq ▸ hother)
  have hone : φ (Column.vector n column - v) = 1 := by
    rw [map_sub, hself, LinearMap.mem_ker.mp (hothers hv), sub_zero]
  have hbound := hle (Column.vector n column - v)
  rw [hone, one_pow] at hbound
  rwa [div_le_iff₀' (by positivity)]

/-- The columns of a model are independent. -/
theorem finrank_columnSpan (h : CompleteClassification n g factors) (hnodup : terms.Nodup)
    (hterms : ∀ term ∈ terms, term ∈ Term.all factors) :
    Module.finrank ℝ (columnSpan (vectors n g terms)) = (vectors n g terms).length :=
  (h.separated hnodup hterms).finrank_eq (by positivity)

end CompleteClassification

end Significance
