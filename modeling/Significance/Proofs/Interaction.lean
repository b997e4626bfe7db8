import Mathlib.LinearAlgebra.DFinsupp
import Significance.Proofs.Classification

/-! # Interactions in balanced classifications

The pure interaction of some factors is what depends on their levels and is orthogonal to all that
depends on fewer of them. Every function is a sum of pure interactions and an error. In a balanced
classification these are orthogonal to one another, so their squares add up. -/

namespace Significance

variable {ι κ Λ : Type*} [Fintype ι] (level : ι → κ → Λ)

/-- The functions of the levels of some factors that are orthogonal to those of fewer of them. -/
def interaction (names : Finset κ) : Submodule ℝ (ι → ℝ) where
  carrier := {h | h ∈ dependingOn level names ∧
    ∀ others ⊂ names, Orthogonal h (dependingOn level others)}
  add_mem' hg hh :=
    ⟨add_mem hg.1 hh.1, fun others hsub => (hg.2 others hsub).add (hh.2 others hsub)⟩
  zero_mem' := ⟨zero_mem _, fun _ _ v _ => zero_dotProduct v⟩
  smul_mem' a h hh := by
    refine ⟨Submodule.smul_mem _ a hh.1, ?_⟩
    intro others hsub v hv
    rw [smul_dotProduct, hh.2 others hsub v hv, smul_zero]

variable {level}

/-- What depends on some factors is a sum of pure interactions of them. -/
theorem dependingOn_le_iSup_interaction (names : Finset κ) :
    dependingOn level names ≤ ⨆ others ∈ names.powerset, interaction level others := by
  induction names using Finset.strongInduction with
  | H names ih =>
    let lower : Submodule ℝ (ι → ℝ) := ⨆ (others : Finset κ) (_ : others ⊂ names),
      dependingOn level others
    have hlower : lower ≤ dependingOn level names :=
      iSup₂_le fun others hsub => dependingOn_mono hsub.subset
    have hsum : lower ≤ ⨆ others ∈ names.powerset, interaction level others := by
      refine iSup₂_le fun others hsub => (ih others hsub).trans ?_
      refine iSup₂_le fun few hfew => le_iSup₂_of_le few ?_ le_rfl
      exact Finset.mem_powerset.mpr ((Finset.mem_powerset.mp hfew).trans hsub.subset)
    intro h hh
    obtain ⟨w, hw, horth⟩ := exists_orthogonal_sub lower h
    have hpure : h - w ∈ interaction level names := by
      refine ⟨sub_mem hh (hlower hw), ?_⟩
      intro others hsub
      exact horth.mono (le_iSup₂_of_le others hsub le_rfl)
    have htop : interaction level names ≤ ⨆ others ∈ names.powerset, interaction level others :=
      le_iSup₂_of_le names (Finset.mem_powerset_self names) le_rfl
    rw [← sub_add_cancel h w]
    exact add_mem (htop hpure) (hsum hw)

/-- A function is a sum of pure interactions, one for each set of factors, and an error that is
orthogonal to all functions of the levels. -/
theorem exists_interactions (level : ι → κ → Λ) (all : Finset κ) (y : ι → ℝ) :
    ∃ (part : Finset κ → ι → ℝ) (error : ι → ℝ),
      (∀ names, part names ∈ interaction level names) ∧
      Orthogonal error (dependingOn level all) ∧
      y = ∑ names ∈ all.powerset, part names + error := by
  obtain ⟨w, hw, horth⟩ := exists_orthogonal_sub (dependingOn level all) y
  obtain ⟨part, hpart⟩ := (Submodule.mem_iSup_finset_iff_exists_sum _ w).mp
    (dependingOn_le_iSup_interaction all hw)
  refine ⟨fun names => part names, y - w, fun names => (part names).2, horth, ?_⟩
  rw [hpart, add_sub_cancel]

/-! ## Orthogonal parts -/

/-- The orthogonal parts of a function: one for each set of factors, and the error. -/
structure Parts (level : ι → κ → Λ) (all : Finset κ) (y : ι → ℝ) (part : Finset κ → ι → ℝ)
    (error : ι → ℝ) : Prop where
  sum_eq : y = ∑ names ∈ all.powerset, part names + error
  part_mem : ∀ names, part names ∈ dependingOn level names
  part_orthogonal : ∀ names ⊆ all, ∀ others ⊆ all, ¬names ⊆ others →
    Orthogonal (part names) (dependingOn level others)
  error_orthogonal : Orthogonal error (dependingOn level all)

namespace Parts

variable {all term : Finset κ} {y error : ι → ℝ} {part : Finset κ → ι → ℝ} {r₀ r₁ : ℝ}

/-- A part is orthogonal to what avoids a term that it includes. -/
theorem orthogonal_avoiding (h : Parts level all y part error) {names : Finset κ}
    (hnames : names ⊆ all) (hterm : term ⊆ names) :
    Orthogonal (part names) (avoiding level all term) := by
  refine Orthogonal.iSup fun others => Orthogonal.iSup fun hothers => ?_
  exact h.part_orthogonal names hnames others hothers.1 fun hsub => hothers.2 (hterm.trans hsub)

variable [DecidableEq κ]

/-- A space with some of the parts, orthogonal to the others, leaves those and the error. -/
theorem isLeastDistance (h : Parts level all y part error) (inside : Finset (Finset κ))
    (space : Submodule ℝ (ι → ℝ)) (hinside : inside ⊆ all.powerset)
    (hspace : space ≤ dependingOn level all) (hmem : ∀ names ∈ inside, part names ∈ space)
    (horth : ∀ names ∈ all.powerset \ inside, Orthogonal (part names) space) :
    IsLeastDistance space y (squares (∑ names ∈ all.powerset \ inside, part names + error)) := by
  have hsplit : y - ∑ names ∈ inside, part names =
      ∑ names ∈ all.powerset \ inside, part names + error := by
    rw [h.sum_eq, ← Finset.sum_sdiff hinside]
    abel
  rw [← hsplit]
  apply IsLeastDistance.of_orthogonal (Submodule.sum_mem _ hmem)
  rw [hsplit]
  exact (Orthogonal.sum horth).add (h.error_orthogonal.mono hspace)

/-- The squared length of its part is what a term takes off the least distance. -/
theorem sub_eq_squares (h : Parts level all y part error) (hterm : term ⊆ all)
    (hr₀ : IsLeastDistance (avoiding level all term) y r₀)
    (hr₁ : IsLeastDistance (avoiding level all term ⊔ dependingOn level term) y r₁) :
    r₀ - r₁ = squares (part term) := by
  let inside := all.powerset.filter fun names => ¬term ⊆ names
  let outside := all.powerset \ inside
  have hinside : inside ⊆ all.powerset := Finset.filter_subset _ _
  have htermAll : term ∈ all.powerset := Finset.mem_powerset.mpr hterm
  have htermOutside : term ∈ outside :=
    Finset.mem_sdiff.mpr ⟨htermAll, fun hmem => (Finset.mem_filter.mp hmem).2 subset_rfl⟩
  have houtside : ∀ names ∈ outside, names ⊆ all ∧ term ⊆ names := by
    intro names hnames
    have ⟨hall, hnot⟩ := Finset.mem_sdiff.mp hnames
    refine ⟨Finset.mem_powerset.mp hall, ?_⟩
    by_contra hsub
    exact hnot (Finset.mem_filter.mpr ⟨hall, hsub⟩)
  have hpart : ∀ names ∈ inside, part names ∈ avoiding level all term := by
    intro names hnames
    have ⟨hall, hnot⟩ := Finset.mem_filter.mp hnames
    exact dependingOn_le_avoiding (Finset.mem_powerset.mp hall) hnot (h.part_mem names)
  have havoid : ∀ names ∈ outside, Orthogonal (part names) (avoiding level all term) := by
    intro names hnames
    exact h.orthogonal_avoiding (houtside names hnames).1 (houtside names hnames).2
  have hproper : ∀ names ∈ outside.erase term,
      Orthogonal (part names) (dependingOn level term) := by
    intro names hnames
    have ⟨hne, hmem⟩ := Finset.mem_erase.mp hnames
    have ⟨hall, hsub⟩ := houtside names hmem
    exact h.part_orthogonal names hall term hterm fun hle => hne (hle.antisymm hsub)
  let rest := ∑ names ∈ outside.erase term, part names + error
  have hrest : Orthogonal rest (dependingOn level term) :=
    (Orthogonal.sum hproper).add (h.error_orthogonal.mono (dependingOn_mono hterm))
  have hleast₀ : r₀ = squares (part term + rest) := by
    have hsum : part term + rest = ∑ names ∈ outside, part names + error := by
      rw [← Finset.add_sum_erase outside part htermOutside, add_assoc]
    rw [hsum]
    exact hr₀.unique (h.isLeastDistance inside _ hinside
      (avoiding_le_dependingOn all term) hpart havoid)
  have hleast₁ : r₁ = squares rest := by
    have herase : all.powerset \ insert term inside = outside.erase term :=
      Finset.sdiff_insert all.powerset inside term
    have hle : avoiding level all term ⊔ dependingOn level term ≤ dependingOn level all :=
      sup_le (avoiding_le_dependingOn all term) (dependingOn_mono hterm)
    apply hr₁.unique
    have hleast := h.isLeastDistance (insert term inside) _
      (Finset.insert_subset htermAll hinside) hle ?_ ?_
    · rwa [herase] at hleast
    · intro names hnames
      rcases Finset.mem_insert.mp hnames with rfl | hnames
      · exact Submodule.mem_sup_right (h.part_mem names)
      · exact Submodule.mem_sup_left (hpart names hnames)
    · intro names hnames
      rw [herase] at hnames
      exact (havoid names (Finset.mem_of_mem_erase hnames)).sup (hproper names hnames)
  have horth : part term ⬝ᵥ rest = 0 := by
    rw [dotProduct_comm]
    exact hrest _ (h.part_mem term)
  rw [hleast₀, hleast₁, squares_add horth, add_sub_cancel_right]

/-- The squares of parts and the error add up. -/
theorem squares_sum (h : Parts level all y part error) {some : Finset (Finset κ)}
    (hsome : some ⊆ all.powerset) :
    squares (∑ names ∈ some, part names + error) =
      ∑ names ∈ some, squares (part names) + squares error := by
  induction some using Finset.induction_on with
  | empty => simp
  | insert names some hnew ih =>
      have ⟨hnames, hrest⟩ := Finset.insert_subset_iff.mp hsome
      have hall := Finset.mem_powerset.mp hnames
      have horth : part names ⬝ᵥ (∑ others ∈ some, part others + error) = 0 := by
        rw [dotProduct_add, dotProduct_sum, dotProduct_comm (part names) error,
          h.error_orthogonal _ (dependingOn_mono hall (h.part_mem names)), add_zero]
        apply Finset.sum_eq_zero
        intro others hothers
        have hall' := Finset.mem_powerset.mp (hrest hothers)
        by_cases hsub : names ⊆ others
        · have hnot : ¬others ⊆ names := fun hle => hnew (hsub.antisymm hle ▸ hothers)
          rw [dotProduct_comm]
          exact h.part_orthogonal others hall' names hall hnot _ (h.part_mem names)
        · exact h.part_orthogonal names hall others hall' hsub _ (h.part_mem others)
      rw [Finset.sum_insert hnew, Finset.sum_insert hnew, add_assoc, squares_add horth, ih hrest,
        add_assoc]

/-- What the terms take off and what is left add up to the distance from the constants. -/
theorem sum_add (h : Parts level all y part error) {taken : Finset κ → ℝ} {left total : ℝ}
    (htaken : ∀ names ∈ all.powerset.erase ∅, taken names = squares (part names))
    (hleft : IsLeastDistance (dependingOn level all) y left)
    (htotal : IsLeastDistance (dependingOn level ∅) y total) :
    ∑ names ∈ all.powerset.erase ∅, taken names + left = total := by
  have hempty : {∅} ⊆ all.powerset := by simp
  have herase : all.powerset \ {∅} = all.powerset.erase ∅ := Finset.sdiff_singleton_eq_erase _ _
  have hleast := h.isLeastDistance {∅} (dependingOn level ∅) hempty
    (dependingOn_mono (Finset.empty_subset all)) ?_ ?_
  · rw [herase] at hleast
    have hwhole := h.isLeastDistance all.powerset (dependingOn level all) subset_rfl le_rfl ?_ ?_
    · rw [Finset.sdiff_self, Finset.sum_empty, zero_add] at hwhole
      rw [htotal.unique hleast, hleft.unique hwhole, h.squares_sum (Finset.erase_subset _ _),
        Finset.sum_congr rfl htaken]
    · intro names hnames
      exact dependingOn_mono (Finset.mem_powerset.mp hnames) (h.part_mem names)
    · intro names hnames
      simp at hnames
  · intro names hnames
    rw [Finset.mem_singleton] at hnames
    exact hnames ▸ h.part_mem names
  · intro names hnames
    rw [herase, Finset.mem_erase, Finset.mem_powerset] at hnames
    exact h.part_orthogonal names hnames.2 ∅ (Finset.empty_subset all)
      fun hsub => hnames.1 (Finset.subset_empty.mp hsub)

end Parts

/-! ## Balanced classifications -/

section Balanced

variable [DecidableEq κ] [DecidableEq Λ] {all names others : Finset κ} {size : ℕ}

/-- In a balanced classification a pure interaction is orthogonal to what does not depend on all its
factors. -/
theorem orthogonal_of_interaction (hbalanced : Balanced level all size) (hsize : 0 < size)
    (hnames : names ⊆ all) (hothers : others ⊆ all) (hnot : ¬names ⊆ others) {h : ι → ℝ}
    (hh : h ∈ interaction level names) : Orthogonal h (dependingOn level others) := by
  have hfewer : names ∩ others ⊂ names := by
    refine Finset.ssubset_iff_subset_ne.mpr ⟨Finset.inter_subset_left, ?_⟩
    intro heq
    exact hnot (Finset.inter_eq_left.mp heq)
  intro g hg
  rw [← dotProduct_cellMean hh.1 g]
  exact hh.2 _ hfewer _ (cellMean_mem_of_balanced hbalanced hsize hnames hothers hg)

theorem exists_parts (hbalanced : Balanced level all size) (hsize : 0 < size) (y : ι → ℝ) :
    ∃ part error, Parts level all y part error := by
  obtain ⟨part, error, hpart, herror, hsum⟩ := exists_interactions level all y
  refine ⟨part, error, hsum, fun names => (hpart names).1, ?_, herror⟩
  intro names hnames others hothers hnot
  exact orthogonal_of_interaction hbalanced hsize hnames hothers hnot (hpart names)

end Balanced

end Significance
