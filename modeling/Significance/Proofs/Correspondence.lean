import Mathlib.LinearAlgebra.Pi
import Significance.Proofs.Rows

/-! # Corresponding data

Data correspond where a bijection of their records keeps which records share a level and changes the
target by one affine map. Then the spaces of their models correspond, and what a term takes off the
distance from them is the same up to the square of the scale. -/

namespace Significance

open Success Exact

/-! ## Spaces along a bijection -/

section Spaces

variable {ι ι' κ Λ Λ' : Type*} (e : ι ≃ ι') {level : ι → κ → Λ} {level' : ι' → κ → Λ'}

/-- A function of the records as a function of the corresponding ones. -/
def transport : (ι → ℝ) ≃ₗ[ℝ] (ι' → ℝ) :=
  LinearEquiv.funCongrLeft ℝ ℝ e.symm

theorem map_dependingOn {names : Finset κ}
    (h : ∀ k ∈ names, ∀ i j, level' (e i) k = level' (e j) k ↔ level i k = level j k) :
    (dependingOn level names).map (transport e).toLinearMap = dependingOn level' names := by
  ext f
  constructor
  · rintro ⟨g, hg, rfl⟩ i j hij
    apply hg
    intro k hk
    rw [← h k hk, e.apply_symm_apply, e.apply_symm_apply]
    exact hij k hk
  · intro hf
    refine ⟨f ∘ e, ?_, ?_⟩
    · intro i j hij
      exact hf (e i) (e j) fun k hk => (h k hk i j).mpr (hij k hk)
    · funext i
      exact congrArg f (e.apply_symm_apply i)

theorem map_avoiding {all : Finset κ}
    (h : ∀ k ∈ all, ∀ i j, level' (e i) k = level' (e j) k ↔ level i k = level j k)
    (term : Finset κ) :
    (avoiding level all term).map (transport e).toLinearMap = avoiding level' all term := by
  simp only [avoiding, Submodule.map_iSup]
  exact biSup_congr fun names hnames => map_dependingOn e fun k hk => h k (hnames.1 hk)

variable [Fintype ι] [Fintype ι'] {space : Submodule ℝ (ι → ℝ)} {y : ι → ℝ} {r : ℝ}

theorem IsLeastDistance.transport (h : IsLeastDistance space y r) :
    IsLeastDistance (space.map (transport e).toLinearMap) (transport e y) r := by
  have hsum : ∀ v, ∑ i, (Significance.transport e y i - Significance.transport e v i) ^ 2 =
      ∑ i, (y i - v i) ^ 2 :=
    fun v => e.symm.sum_comp fun i => (y i - v i) ^ 2
  obtain ⟨⟨w, hw, hr⟩, hle⟩ := h
  constructor
  · exact ⟨Significance.transport e w, ⟨w, hw, rfl⟩, by rw [hsum, hr]⟩
  · rintro s ⟨_, ⟨v, hv, rfl⟩, rfl⟩
    exact hle ⟨v, hv, hsum v⟩

theorem IsLeastDistance.smul (h : IsLeastDistance space y r) (a : ℝ) :
    IsLeastDistance space (a • y) (a ^ 2 * r) := by
  obtain ⟨w, hw, horth⟩ := exists_orthogonal_sub space y
  have hscaled : Orthogonal (a • y - a • w) space := by
    intro v hv
    rw [← smul_sub, smul_dotProduct, horth v hv, smul_zero]
  have hsquares : squares (a • y - a • w) = a ^ 2 * r := by
    rw [h.unique (IsLeastDistance.of_orthogonal hw horth), ← smul_sub, squares_eq_dotProduct,
      smul_dotProduct, dotProduct_smul, ← squares_eq_dotProduct, smul_eq_mul, smul_eq_mul]
    ring
  rw [← hsquares]
  exact IsLeastDistance.of_orthogonal (space.smul_mem a hw) hscaled

end Spaces

/-- A bijection that keeps which members have equal values keeps the number of values. -/
theorem card_image_eq_of_iff {ι ι' Λ Λ' : Type*} [Fintype ι] [Fintype ι'] [DecidableEq Λ]
    [DecidableEq Λ'] (e : ι ≃ ι') {f : ι → Λ} {g : ι' → Λ'}
    (h : ∀ i j, g (e i) = g (e j) ↔ f i = f j) :
    (Finset.univ.image g).card = (Finset.univ.image f).card := by
  have hpreimage : ∀ a ∈ Finset.univ.image f, ∃ i, f i = a := by
    intro a ha
    obtain ⟨i, -, rfl⟩ := Finset.mem_image.mp ha
    exact ⟨i, rfl⟩
  symm
  refine Finset.card_bij (fun a ha => g (e (hpreimage a ha).choose)) ?_ ?_ ?_
  · intro a ha
    exact Finset.mem_image_of_mem g (Finset.mem_univ _)
  · intro a ha b hb hab
    rw [← (hpreimage a ha).choose_spec, ← (hpreimage b hb).choose_spec]
    exact (h _ _).mp hab
  · intro b hb
    obtain ⟨j, -, rfl⟩ := Finset.mem_image.mp hb
    have hmem : f (e.symm j) ∈ Finset.univ.image f := Finset.mem_image_of_mem f (Finset.mem_univ _)
    refine ⟨f (e.symm j), hmem, ?_⟩
    have heq := (h _ (e.symm j)).mpr (hpreimage _ hmem).choose_spec
    rwa [e.apply_symm_apply] at heq

/-! ## Corresponding data -/

variable [Wording]

/-- Each record of `data'` stands for one of `data`: the factors tell the records apart alike, and
the target is that of the other record times `scale`, plus `shift`. -/
structure Corresponds (data data' : Dataset Exact) (target target' : String)
    (factors : List String) (e : Fin data.size ≃ Fin data'.size) (scale shift : ℝ) : Prop where
  scale_ne : scale ≠ 0
  isSome_eq : ∀ name ∈ factors, ∀ i, (data'.level? (e i) name).isSome = (data.level? i name).isSome
  level_eq_iff : ∀ name ∈ factors, ∀ i j, data'.level? (e i) name = data'.level? (e j) name ↔
    data.level? i name = data.level? j name
  hasReals_iff : data'.HasReals target' ↔ data.HasReals target
  reals_eq : ∀ i, data'.reals target' (e i) = scale * data.reals target i + shift

/-- The order of the factors does not matter for whether they are crossed. -/
theorem Variance.Crossed.perm {data : Dataset Exact} {factors factors' : List String}
    (h : Crossed data factors) (hperm : factors'.Perm factors) : Crossed data factors' := by
  refine ⟨?_, hperm.nodup_iff.mpr h.nodup, hperm.length_eq.trans_le h.length_le, ?_, ?_, ?_⟩
  · rintro rfl
    exact h.ne_nil hperm.nil_eq.symm
  · exact fun name hname => h.hasLevels name (hperm.mem_iff.mp hname)
  · exact fun name hname => h.two_le name (hperm.mem_iff.mp hname)
  · rw [List.toFinset_eq_of_perm _ _ hperm]
    exact h.complete

/-! ## Restated rows -/

noncomputable def Effect.rescale (c : ℝ) (row : Effect Exact) : Effect Exact :=
  { row with sumSquares := real c * row.sumSquares }

/-- The row of a term as that of another, its sum of squares multiplied. -/
noncomputable def Effect.restate (rename : Term → Term) (c : ℝ) (row : Effect Exact) :
    Effect Exact :=
  { row.rescale c with term := rename row.term }

noncomputable def Residual.rescale (c : ℝ) (residual : Residual Exact) : Residual Exact :=
  { residual with sumSquares := real c * residual.sumSquares }

@[simp] theorem Residual.rescale_df (c : ℝ) (residual : Residual Exact) :
    (residual.rescale c).df = residual.df := rfl

namespace Variance

variable {c : ℝ} {residual : Residual Exact} {left : ℝ} {df : ℕ}

theorem ratio_rescale (hc : 0 < c) (hleft : residual.sumSquares = real left) (hdf : df ≠ 0)
    (hresidual : residual.df ≠ 0) (s : ℝ) :
    ratio (real (c * s)) df (residual.rescale c) = ratio (real s) df residual := by
  have hdf' : (df : ℝ) ≠ 0 := Nat.cast_ne_zero.mpr hdf
  have hresidual' : (residual.df : ℝ) ≠ 0 := Nat.cast_ne_zero.mpr hresidual
  simp only [ratio, Residual.rescale, hleft, ofNat_eq, real_mul, real_div _ hdf',
    real_div _ hresidual', zero_eq, real_lt, mul_div_assoc c, mul_pos_iff_of_pos_left hc]
  by_cases herror : 0 < left / residual.df
  · have herror' : c * (left / residual.df) ≠ 0 := (mul_pos hc herror).ne'
    rw [if_pos herror, if_pos herror, real_div _ herror', real_div _ herror.ne',
      mul_div_mul_left _ _ hc.ne']
  · rw [if_neg herror, if_neg herror]

/-- Multiplied sums of squares are tested alike. -/
theorem test_restate {d : Distribution Exact} (hc : 0 < c) (rename : Term → Term) (term : Term)
    (hleft : residual.sumSquares = real left) (s : ℝ) :
    test d (rename term) (real (c * s)) df (residual.rescale c) =
      (test d term (real s) df residual).map (Effect.restate rename c) := by
  unfold test
  rw [Residual.rescale_df]
  by_cases hdf : df = 0 ∨ residual.df = 0
  · rw [if_pos hdf, if_pos hdf]
    rfl
  · have hne := not_or.mp hdf
    rw [if_neg hdf, if_neg hdf]
    dsimp only
    rw [ratio_rescale hc hleft hne.1 hne.2]
    cases d.fisherAbove? (ratio (real s) df residual) (Scalar.ofNat df)
      (Scalar.ofNat residual.df) with
    | none => rfl
    | some p => rfl

end Variance

namespace Corresponds

open Variance

variable {data data' : Dataset Exact} {target target' : String} {factors factors' : List String}
  {e : Fin data.size ≃ Fin data'.size} {scale shift : ℝ}

theorem symm (h : Corresponds data data' target target' factors e scale shift) :
    Corresponds data' data target' target factors e.symm scale⁻¹ (-(scale⁻¹ * shift)) := by
  refine ⟨inv_ne_zero h.scale_ne, ?_, ?_, h.hasReals_iff.symm, ?_⟩
  · intro name hname i
    rw [← h.isSome_eq name hname, e.apply_symm_apply]
  · intro name hname i j
    rw [← h.level_eq_iff name hname, e.apply_symm_apply, e.apply_symm_apply]
  · intro i
    have hreals := h.reals_eq (e.symm i)
    rw [e.apply_symm_apply] at hreals
    rw [hreals, mul_add, inv_mul_cancel_left₀ h.scale_ne, add_neg_cancel_right]

theorem perm (h : Corresponds data data' target target' factors e scale shift)
    (hperm : factors'.Perm factors) :
    Corresponds data data' target target' factors' e scale shift :=
  ⟨h.scale_ne, fun name hname => h.isSome_eq name (hperm.mem_iff.mp hname),
    fun name hname => h.level_eq_iff name (hperm.mem_iff.mp hname), h.hasReals_iff, h.reals_eq⟩

theorem size_eq (_ : Corresponds data data' target target' factors e scale shift) :
    data'.size = data.size :=
  (Fin.equiv_iff_eq.mp ⟨e⟩).symm

variable (h : Corresponds data data' target target' factors e scale shift)

include h

theorem hasLevels {name : String} (hname : name ∈ factors) (hlevels : data.HasLevels name) :
    data'.HasLevels name := by
  intro i
  rw [← e.apply_symm_apply i, h.isSome_eq name hname]
  exact hlevels _

theorem levelCount_eq {name : String} (hname : name ∈ factors) :
    data'.levelCount name = data.levelCount name :=
  card_image_eq_of_iff e (h.level_eq_iff name hname)

theorem prod_levelCount {names : Finset String} (hnames : names ⊆ factors.toFinset)
    (f : ℕ → ℕ) :
    ∏ name ∈ names, f (data'.levelCount name) = ∏ name ∈ names, f (data.levelCount name) := by
  apply Finset.prod_congr rfl
  intro name hname
  rw [h.levelCount_eq (List.mem_toFinset.mp (hnames hname))]

theorem reals_transport :
    data'.reals target' = transport e (scale • data.reals target + fun _ => shift) := by
  funext i
  have hreals := h.reals_eq (e.symm i)
  rw [e.apply_symm_apply] at hreals
  exact hreals

/-- Least distances from spaces that correspond and hold the constants. -/
theorem isLeastDistance {space : Submodule ℝ (Fin data.size → ℝ)} {r : ℝ}
    (hconst : dependingOn data.level? ∅ ≤ space)
    (hr : IsLeastDistance space (data.reals target) r) :
    IsLeastDistance (space.map (transport e).toLinearMap) (data'.reals target')
      (scale ^ 2 * r) := by
  rw [h.reals_transport]
  exact ((hr.smul scale).add (hconst (const_mem_dependingOn ∅ shift))).transport e

theorem level_iff_of_subset {names : Finset String} (hnames : names ⊆ factors.toFinset) :
    ∀ name ∈ names, ∀ i j, data'.level? (e i) name = data'.level? (e j) name ↔
      data.level? i name = data.level? j name :=
  fun name hname => h.level_eq_iff name (List.mem_toFinset.mp (hnames hname))

theorem isLeastDistance_all {left : ℝ}
    (hleft : IsLeastDistance (dependingOn data.level? factors.toFinset) (data.reals target) left) :
    IsLeastDistance (dependingOn data'.level? factors.toFinset) (data'.reals target')
      (scale ^ 2 * left) := by
  rw [← map_dependingOn e (h.level_iff_of_subset subset_rfl)]
  exact h.isLeastDistance (dependingOn_mono (Finset.empty_subset _)) hleft

/-- The two distances of a term. -/
theorem isLeastDistance_term {term : Finset String} (hne : ¬term ⊆ ∅)
    (hterm : term ⊆ factors.toFinset) {r₀ r₁ : ℝ}
    (hr₀ : IsLeastDistance (avoiding data.level? factors.toFinset term) (data.reals target) r₀)
    (hr₁ : IsLeastDistance (avoiding data.level? factors.toFinset term ⊔
      dependingOn data.level? term) (data.reals target) r₁) :
    IsLeastDistance (avoiding data'.level? factors.toFinset term) (data'.reals target')
        (scale ^ 2 * r₀) ∧
      IsLeastDistance (avoiding data'.level? factors.toFinset term ⊔
        dependingOn data'.level? term) (data'.reals target') (scale ^ 2 * r₁) := by
  have hconst : dependingOn data.level? ∅ ≤ avoiding data.level? factors.toFinset term :=
    dependingOn_le_avoiding (Finset.empty_subset _) hne
  rw [← map_avoiding e (h.level_iff_of_subset subset_rfl) term,
    ← map_dependingOn e (h.level_iff_of_subset hterm), ← Submodule.map_sup]
  exact ⟨h.isLeastDistance hconst hr₀, h.isLeastDistance (hconst.trans le_sup_left) hr₁⟩

/-! ## Decompositions of corresponding data -/

theorem crossed (hcrossed : Crossed data factors) : Crossed data' factors := by
  have hlevels : ∀ name ∈ factors, data'.HasLevels name :=
    fun name hname => h.hasLevels hname (hcrossed.hasLevels name hname)
  have hpos : 0 < data'.size := h.size_eq ▸ hcrossed.pos
  have hmem : ∀ name ∈ factors.toFinset, name ∈ factors := fun name => List.mem_toFinset.mp
  refine ⟨hcrossed.ne_nil, hcrossed.nodup, hcrossed.length_le, hlevels, ?_, ?_⟩
  · intro name hname
    rw [h.levelCount_eq hname]
    exact hcrossed.two_le name hname
  · rw [complete_iff hpos fun name hname => hlevels name (hmem name hname)]
    intro own
    have hrecords := (complete_iff hcrossed.pos fun name hname =>
      hcrossed.hasLevels name (hmem name hname)).mp hcrossed.complete
    obtain ⟨i, hi⟩ := hrecords fun name => e.symm (own name)
    refine ⟨e i, ?_⟩
    intro name hname
    have heq := (h.level_eq_iff name (hmem name hname) _ _).mpr (hi name hname)
    rwa [e.apply_symm_apply] at heq

/-- The row of a term is that of the other data restated. -/
theorem effect_eq_map (hcrossed : Crossed data factors) (hkeep : KeepsIndependent data factors)
    (hkeep' : KeepsIndependent data' factors') (hperm : factors'.Perm factors)
    {rename : Term → Term} {term : Term} (hterm : term ∈ Term.all factors)
    (hterm' : rename term ∈ Term.all factors') (hsupport : (rename term).support = term.support)
    {residual : Residual Exact} {left : ℝ} (hleft : residual.sumSquares = real left) :
    effect d (design data' factors') (Term.all factors') (ofVector (data'.reals target'))
        (residual.rescale (scale ^ 2)) (rename term) =
      (effect d (design data factors) (Term.all factors) (ofVector (data.reals target)) residual
        term).map (Effect.restate rename (scale ^ 2)) := by
  obtain ⟨r₀, hr₀⟩ := exists_isLeastDistance
    (avoiding data.level? factors.toFinset term.support) (data.reals target)
  obtain ⟨r₁, hr₁⟩ := exists_isLeastDistance
    (avoiding data.level? factors.toFinset term.support ⊔ dependingOn data.level? term.support)
    (data.reals target)
  obtain ⟨hr₀', hr₁'⟩ := h.isLeastDistance_term (Term.not_support_subset_empty hterm)
    (Term.support_subset hterm) hr₀ hr₁
  have hnames : factors'.toFinset = factors.toFinset := List.toFinset_eq_of_perm _ _ hperm
  rw [← hnames, ← hsupport] at hr₀' hr₁'
  have hcrossed' := (h.crossed hcrossed).perm hperm
  rw [effect_eq hcrossed hkeep hterm hr₀ hr₁, effect_eq hcrossed' hkeep' hterm' hr₀' hr₁', hsupport,
    h.prod_levelCount (Term.support_subset hterm) fun n => n - 1, ← mul_sub]
  exact test_restate (even_two.pow_pos h.scale_ne) rename term hleft _

/-- A decomposition of the one data is one of the other: the terms, renamed, have the same rows up to
the square of the scale, and in the order of the other decomposition they are its rows. -/
theorem multiWay_of_restated (hkeep : KeepsIndependent data factors)
    (hkeep' : KeepsIndependent data' factors') (hperm : factors'.Perm factors)
    {rename : Term → Term} (hterms : ((Term.all factors).map rename).Perm (Term.all factors'))
    (hsupport : ∀ term ∈ Term.all factors, (rename term).support = term.support)
    {table : VarianceTable Exact} (htable : multiWay d data target factors = .ok table) :
    let row := effect d (design data' factors') (Term.all factors') (ofVector (data'.reals target'))
      (table.residual.rescale (scale ^ 2))
    ((Term.all factors).map rename).mapM row =
        .ok (table.effects.map (Effect.restate rename (scale ^ 2))) ∧
      ∀ effects, (Term.all factors').mapM row = .ok effects →
        multiWay d data' target' factors' = .ok ⟨.multiWay, target',
          Term.formula target' (Term.all factors'), effects, table.residual.rescale (scale ^ 2),
          table.observations⟩ := by
  obtain ⟨left, hleft⟩ :=
    exists_isLeastDistance (dependingOn data.level? factors.toFinset) (data.reals target)
  have hleft' := h.isLeastDistance_all hleft
  have hnames : factors'.toFinset = factors.toFinset := List.toFinset_eq_of_perm _ _ hperm
  have hcells : data'.size - ∏ name ∈ factors'.toFinset, data'.levelCount name =
      data.size - ∏ name ∈ factors.toFinset, data.levelCount name := by
    rw [hnames, h.prod_levelCount subset_rfl fun n => n, h.size_eq]
  obtain ⟨hreals, hcrossed, hdf, effects, heffects, rfl⟩ :=
    (multiWay_eq_ok_of_keeps hkeep hleft).mp htable
  constructor
  · rw [mapM_eq_map_mapM, heffects]
    · rfl
    · intro term hterm
      have hterm' := hterms.mem_iff.mp (List.mem_map_of_mem hterm)
      exact h.effect_eq_map hcrossed hkeep hkeep' hperm hterm hterm' (hsupport term hterm) rfl
  · intro effects' heffects'
    rw [← hnames] at hleft'
    rw [multiWay_eq_ok_of_keeps hkeep' hleft', hcells]
    refine ⟨h.hasReals_iff.mpr hreals, (h.crossed hcrossed).perm hperm, hdf, effects', heffects', ?_⟩
    rw [h.size_eq]
    rfl

end Corresponds

end Significance
