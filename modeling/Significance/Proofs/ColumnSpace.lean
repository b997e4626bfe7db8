import Mathlib.Algebra.Order.BigOperators.Group.LocallyFinite
import Significance.Proofs.Classification
import Significance.Proofs.Columns

/-! # What the columns span

The columns of a term and of the terms it includes span all functions of the levels of its factors.
So the columns of a model span the sums of functions of the levels of its terms, whichever level of
a factor has no column. -/

namespace Significance

open LeastSquares

variable {n : ℕ}

def codes (g : String → Factor) (i : Fin n) (name : String) : ℕ :=
  (g name).code i

/-- A function of the levels of some factors, as a function of levels. -/
theorem exists_eq_of_mem_dependingOn {ι κ Λ : Type*} [Inhabited Λ] [DecidableEq κ]
    {level : ι → κ → Λ} {names : Finset κ} {h : ι → ℝ} (hh : h ∈ dependingOn level names) :
    ∃ H : (κ → Λ) → ℝ, ∀ i, h i = H fun k => if k ∈ names then level i k else default := by
  let own : ι → κ → Λ := fun i k => if k ∈ names then level i k else default
  have hfactors : h.FactorsThrough own := by
    intro i j hij
    apply hh
    intro k hk
    simpa [own, hk] using congrFun hij k
  exact ⟨Function.extend own h 0, fun i => (hfactors.extend_apply 0 i).symm⟩

namespace Column

variable {g : String → Factor}

/-- The span of the columns of all terms over some factors, and the intercept. -/
def spanOf (n : ℕ) (g : String → Factor) (names : List String) : Submodule ℝ (Fin n → ℝ) :=
  Submodule.span ℝ {v | ∃ own : List String, own.Sublist names ∧
    ∃ column ∈ combinations (own.map g), vector n column = v}

theorem spanOf_le_cons (name : String) (names : List String) :
    spanOf n g names ≤ spanOf n g (name :: names) := by
  apply Submodule.span_mono
  rintro v ⟨own, hsub, hown⟩
  exact ⟨own, hsub.cons name, hown⟩

/-- On the records of a level, but the first, of one more factor. -/
theorem ite_mem_spanOf {name : String} {names : List String} {level : ℕ} (hpos : 0 < level)
    (hlt : level < (g name).levels.length) {h : Fin n → ℝ} (hh : h ∈ spanOf n g names) :
    (fun i => if (g name).code i = level then h i else 0) ∈ spanOf n g (name :: names) := by
  induction hh using Submodule.span_induction with
  | mem v hv =>
      obtain ⟨own, hsub, column, hcolumn, rfl⟩ := hv
      apply Submodule.subset_span
      refine ⟨name :: own, hsub.cons_cons name, ⟨g name, level⟩ :: column, ?_, ?_⟩
      · simp only [List.map_cons, combinations, List.mem_flatMap, List.mem_range'_1, List.mem_map]
        exact ⟨level, by omega, column, hcolumn, rfl⟩
      · funext i
        exact vector_cons _ _ i
  | zero =>
      have hzero : (fun i => if (g name).code i = level then (0 : Fin n → ℝ) i else 0) = 0 := by
        funext i
        simp
      rw [hzero]
      exact Submodule.zero_mem _
  | add v w _ _ hv hw =>
      have hsum : (fun i => if (g name).code i = level then (v + w) i else 0) =
          (fun i => if (g name).code i = level then v i else 0) +
            fun i => if (g name).code i = level then w i else 0 := by
        funext i
        by_cases hi : (g name).code i = level
        · simp [hi]
        · simp [hi]
      rw [hsum]
      exact Submodule.add_mem _ hv hw
  | smul a v _ hv =>
      have hscaled : (fun i => if (g name).code i = level then (a • v) i else 0) =
          a • fun i => if (g name).code i = level then v i else 0 := by
        funext i
        by_cases hi : (g name).code i = level
        · simp [hi]
        · simp [hi]
      rw [hscaled]
      exact Submodule.smul_mem _ a hv

/-- A function of the levels of one more factor has a slice for each level of it. -/
theorem exists_slices {name : String} {names : List String} {f : Fin n → ℝ}
    (hf : f ∈ dependingOn (codes g) (name :: names).toFinset) :
    ∃ slice : ℕ → Fin n → ℝ, (∀ level, slice level ∈ dependingOn (codes g) names.toFinset) ∧
      ∀ i, f i = slice ((g name).code i) i := by
  obtain ⟨F, hF⟩ := exists_eq_of_mem_dependingOn hf
  let own (i : Fin n) (k : String) : ℕ := if k ∈ names.toFinset then codes g i k else default
  refine ⟨fun level i => F (Function.update (own i) name level), ?_, ?_⟩
  · intro level i j hij
    have hown : own i = own j := by
      funext k
      by_cases hk : k ∈ names.toFinset
      · rw [show own i k = codes g i k from if_pos hk, show own j k = codes g j k from if_pos hk,
          hij k hk]
      · rw [show own i k = default from if_neg hk, show own j k = default from if_neg hk]
    exact congrArg (fun own => F (Function.update own name level)) hown
  · intro i
    rw [hF i]
    congr 1
    funext k
    by_cases hk : k = name
    · subst hk
      simp [codes]
    · simp [own, hk]

/-- The slice at the first level, and for each other level its difference from that. -/
theorem eq_sum_slices {factor : Factor} (hcoded : factor.Coded n) {f : Fin n → ℝ}
    {slice : ℕ → Fin n → ℝ} (h : ∀ i, f i = slice (factor.code i) i) :
    f = slice 0 + ∑ level ∈ Finset.Ico 1 factor.levels.length,
      fun i => if factor.code i = level then (slice level - slice 0) i else 0 := by
  funext i
  rw [h i, Pi.add_apply, Finset.sum_apply, Finset.sum_ite_eq]
  by_cases hzero : factor.code i = 0
  · simp [hzero]
  · rw [if_pos (Finset.mem_Ico.mpr ⟨Nat.pos_of_ne_zero hzero, hcoded.code_lt i⟩)]
    exact (add_sub_cancel _ _).symm

theorem dependingOn_le_spanOf {names : List String} (h : ∀ name ∈ names, (g name).Coded n) :
    dependingOn (codes (n := n) g) names.toFinset ≤ spanOf n g names := by
  induction names with
  | nil =>
      intro f hf
      obtain ⟨F, hF⟩ := exists_eq_of_mem_dependingOn hf
      have hconst : f = F (fun _ => default) • vector n [] := by
        funext i
        rw [hF i, vector_nil]
        simp
      rw [hconst]
      apply Submodule.smul_mem
      exact Submodule.subset_span ⟨[], List.Sublist.refl _, [], by simp [combinations], rfl⟩
  | cons name names ih =>
      have htail := ih fun other hother => h other (List.mem_cons_of_mem _ hother)
      intro f hf
      obtain ⟨slice, hslice, hown⟩ := exists_slices hf
      rw [eq_sum_slices (h name List.mem_cons_self) hown]
      apply Submodule.add_mem
      · exact spanOf_le_cons name names (htail (hslice 0))
      · apply Submodule.sum_mem
        intro level hlevel
        obtain ⟨hpos, hlt⟩ := Finset.mem_Ico.mp hlevel
        exact ite_mem_spanOf hpos hlt
          (Submodule.sub_mem _ (htail (hslice level)) (htail (hslice 0)))

theorem vector_mem_dependingOn {names : List String} (hnodup : names.Nodup) {column : Column}
    (h : column ∈ combinations (names.map g)) :
    vector n column ∈ dependingOn (codes g) names.toFinset := by
  obtain ⟨a, -, rfl⟩ := (mem_combinations hnodup).mp h
  intro i j hij
  have hholds : (ofLevels g names a).Holds i ↔ (ofLevels g names a).Holds j := by
    rw [holds_ofLevels, holds_ofLevels]
    apply forall₂_congr
    intro name hname
    have hcode : (g name).code i = (g name).code j := hij name (List.mem_toFinset.mpr hname)
    rw [hcode]
  simp only [vector, hholds]

end Column

namespace Design

variable {g : String → Factor} {terms : List Term}

theorem mem_vectors {v : Fin n → ℝ} : v ∈ vectors n g terms ↔
    v = Column.vector n [] ∨ ∃ term ∈ terms, ∃ column ∈ Column.combinations (term.factors.map g),
      Column.vector n column = v := by
  simp only [vectors, List.mem_map, mem_columns]
  constructor
  · rintro ⟨column, rfl | ⟨term, hterm, hcolumn⟩, rfl⟩
    · exact Or.inl rfl
    · exact Or.inr ⟨term, hterm, column, hcolumn, rfl⟩
  · rintro (rfl | ⟨term, hterm, column, hcolumn, rfl⟩)
    · exact ⟨[], Or.inl rfl, rfl⟩
    · exact ⟨column, Or.inr ⟨term, hterm, hcolumn⟩, rfl⟩

theorem columnSpan_vectors_mono {others : List Term} (h : ∀ term ∈ terms, term ∈ others) :
    columnSpan (vectors n g terms) ≤ columnSpan (vectors n g others) := by
  apply columnSpan_mono
  intro v hv
  rw [mem_vectors] at hv ⊢
  exact hv.imp_right fun ⟨term, hterm, hcolumn⟩ => ⟨term, h term hterm, hcolumn⟩

/-- The columns of a model depend on the factors of its terms. -/
theorem columnSpan_vectors_le (hterms : ∀ term ∈ terms, term.factors.Nodup)
    {space : Submodule ℝ (Fin n → ℝ)} (hempty : dependingOn (codes g) ∅ ≤ space)
    (h : ∀ term ∈ terms, dependingOn (codes g) term.support ≤ space) :
    columnSpan (vectors n g terms) ≤ space := by
  apply Submodule.span_le.mpr
  intro v hv
  rcases mem_vectors.mp hv with rfl | ⟨term, hterm, column, hcolumn, rfl⟩
  · rw [Column.vector_nil]
    exact hempty (const_mem_dependingOn ∅ 1)
  · exact h term hterm (Column.vector_mem_dependingOn (hterms term hterm) hcolumn)

/-- The columns span the functions of the levels of factors all of whose terms are in the model. -/
theorem dependingOn_le_columnSpan {names : List String} (h : ∀ name ∈ names, (g name).Coded n)
    (hterms : ∀ own : List String, own.Sublist names → own ≠ [] → ⟨own⟩ ∈ terms) :
    dependingOn (codes g) names.toFinset ≤ columnSpan (vectors n g terms) := by
  refine (Column.dependingOn_le_spanOf h).trans (Submodule.span_mono ?_)
  rintro v ⟨own, hsub, column, hcolumn, rfl⟩
  apply mem_vectors.mpr
  by_cases hown : own = []
  · subst hown
    left
    simpa [Column.combinations] using congrArg (Column.vector n) (List.mem_singleton.mp hcolumn)
  · exact Or.inr ⟨⟨own⟩, hterms own hsub hown, column, hcolumn, rfl⟩

/-! ## The spaces of a decomposition -/

variable {factors : List String}

/-- The full model spans the functions of all levels. -/
theorem columnSpan_all (hnodup : factors.Nodup) (h : ∀ name ∈ factors, (g name).Coded n) :
    columnSpan (vectors n g (Term.all factors)) = dependingOn (codes g) factors.toFinset := by
  apply le_antisymm
  · apply columnSpan_vectors_le
    · exact fun term hterm => (Term.mem_all.mp hterm).1.nodup hnodup
    · exact dependingOn_mono (Finset.empty_subset _)
    · intro term hterm
      exact dependingOn_mono (Term.support_subset hterm)
  · exact dependingOn_le_columnSpan h fun own hsub hne => Term.mem_all.mpr ⟨hsub, hne⟩

/-- The model without a term spans the sums of functions that avoid it. -/
theorem columnSpan_without (hnodup : factors.Nodup) (h : ∀ name ∈ factors, (g name).Coded n)
    {term : Term} (hterm : term ∈ Term.all factors) :
    columnSpan (vectors n g (Term.without factors term)) =
      avoiding (codes g) factors.toFinset term.support := by
  apply le_antisymm
  · apply columnSpan_vectors_le
    · intro other hother
      exact (Term.mem_all.mp (Term.mem_without.mp hother).1).1.nodup hnodup
    · exact dependingOn_le_avoiding (Finset.empty_subset _) (Term.not_support_subset_empty hterm)
    · intro other hother
      obtain ⟨hall, hnot⟩ := Term.mem_without.mp hother
      exact dependingOn_le_avoiding (Term.support_subset hall) hnot
  · apply avoiding_le
    intro names hnames hnot
    rw [← Term.support_ofSupport hnames]
    have hlist : ∀ name ∈ (Term.ofSupport factors names).factors, name ∈ factors :=
      fun name hname => (List.mem_filter.mp hname).1
    apply dependingOn_le_columnSpan fun name hname => h name (hlist name hname)
    intro own hsub hne
    refine Term.mem_without.mpr ⟨Term.mem_all.mpr ⟨hsub.trans List.filter_sublist, hne⟩, ?_⟩
    intro hle
    apply hnot
    rw [← Term.support_ofSupport hnames]
    exact hle.trans (Term.toFinset_subset_of_sublist hsub)

/-- With the term the model spans the functions of its levels as well. -/
theorem columnSpan_upTo (hnodup : factors.Nodup) (h : ∀ name ∈ factors, (g name).Coded n)
    {term : Term} (hterm : term ∈ Term.all factors) :
    columnSpan (vectors n g (Term.upTo factors term)) =
      avoiding (codes g) factors.toFinset term.support ⊔ dependingOn (codes g) term.support := by
  have hsub := (Term.mem_all.mp hterm).1
  apply le_antisymm
  · apply columnSpan_vectors_le
    · intro other hother
      exact (Term.mem_all.mp (Term.mem_upTo.mp hother).1).1.nodup hnodup
    · exact le_sup_of_le_left (dependingOn_le_avoiding (Finset.empty_subset _)
        (Term.not_support_subset_empty hterm))
    · intro other hother
      obtain ⟨hall, hnot | rfl⟩ := Term.mem_upTo.mp hother
      · exact le_sup_of_le_left (dependingOn_le_avoiding (Term.support_subset hall) hnot)
      · exact le_sup_right
  · apply sup_le
    · rw [← columnSpan_without hnodup h hterm]
      apply columnSpan_vectors_mono
      intro other hother
      obtain ⟨hall, hnot⟩ := Term.mem_without.mp hother
      exact Term.mem_upTo.mpr ⟨hall, Or.inl hnot⟩
    · apply dependingOn_le_columnSpan fun name hname => h name (hsub.subset hname)
      exact Term.closed_upTo hnodup term term (Term.mem_upTo.mpr ⟨hterm, Or.inr rfl⟩)

end Design

end Significance
