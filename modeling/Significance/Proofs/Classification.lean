import Mathlib.Data.Finset.Powerset
import Significance.Proofs.LeastDistance

/-! # Cross-classifications

Records have a level in every factor. A function of the records that depends only on the levels of
some factors is constant on the cells of these factors, and its mean over the cells of some factors
is the nearest function that depends on those alone. -/

namespace Significance

variable {ι κ Λ : Type*} (level : ι → κ → Λ)

/-- Two records have the same level in each of some factors. -/
def Agree (names : Finset κ) (i j : ι) : Prop :=
  ∀ k ∈ names, level i k = level j k

instance [DecidableEq Λ] (names : Finset κ) (i j : ι) : Decidable (Agree level names i j) :=
  Finset.decidableDforallFinset

/-- The functions that depend only on the levels of some factors. -/
def dependingOn (names : Finset κ) : Submodule ℝ (ι → ℝ) where
  carrier := {h | ∀ i j, Agree level names i j → h i = h j}
  add_mem' hg hh i j hij := congrArg₂ (· + ·) (hg i j hij) (hh i j hij)
  zero_mem' _ _ _ := rfl
  smul_mem' a _ hh i j hij := congrArg (a * ·) (hh i j hij)

/-- The sums of functions each of which depends only on the levels of a set of factors that does not
include all factors of a term. -/
def avoiding (all term : Finset κ) : Submodule ℝ (ι → ℝ) :=
  ⨆ (names : Finset κ) (_ : names ⊆ all ∧ ¬term ⊆ names), dependingOn level names

variable {level}

namespace Agree

variable {names others : Finset κ} {i j l : ι}

theorem refl (names : Finset κ) (i : ι) : Agree level names i i :=
  fun _ _ => rfl

theorem symm (h : Agree level names i j) : Agree level names j i :=
  fun k hk => (h k hk).symm

theorem trans (h : Agree level names i j) (h' : Agree level names j l) : Agree level names i l :=
  fun k hk => (h k hk).trans (h' k hk)

theorem mono (h : Agree level names i j) (hsub : others ⊆ names) : Agree level others i j :=
  fun k hk => h k (hsub hk)

end Agree

theorem dependingOn_mono {names others : Finset κ} (h : others ⊆ names) :
    dependingOn level others ≤ dependingOn level names :=
  fun _ hg i j hij => hg i j (hij.mono h)

theorem dependingOn_le_avoiding {all term names : Finset κ} (hall : names ⊆ all)
    (hterm : ¬term ⊆ names) : dependingOn level names ≤ avoiding level all term :=
  le_iSup₂_of_le names ⟨hall, hterm⟩ le_rfl

theorem avoiding_le {all term : Finset κ} {space : Submodule ℝ (ι → ℝ)}
    (h : ∀ names ⊆ all, ¬term ⊆ names → dependingOn level names ≤ space) :
    avoiding level all term ≤ space :=
  iSup₂_le fun names hnames => h names hnames.1 hnames.2

theorem avoiding_le_dependingOn (all term : Finset κ) :
    avoiding level all term ≤ dependingOn level all :=
  avoiding_le fun _ hall _ => dependingOn_mono hall

theorem const_mem_dependingOn (names : Finset κ) (a : ℝ) :
    (fun _ => a) ∈ dependingOn level names :=
  fun _ _ _ => rfl

/-- Only which records have equal levels counts. -/
theorem dependingOn_congr {Λ' : Type*} {level' : ι → κ → Λ'} {names : Finset κ}
    (h : ∀ k ∈ names, ∀ i j, level i k = level j k ↔ level' i k = level' j k) :
    dependingOn level names = dependingOn level' names := by
  have hagree : ∀ i j, Agree level names i j ↔ Agree level' names i j :=
    fun i j => forall₂_congr fun k hk => h k hk i j
  ext f
  exact forall₂_congr fun i j => by rw [hagree]

theorem avoiding_congr {Λ' : Type*} {level' : ι → κ → Λ'} {all : Finset κ}
    (h : ∀ k ∈ all, ∀ i j, level i k = level j k ↔ level' i k = level' j k) (term : Finset κ) :
    avoiding level all term = avoiding level' all term :=
  biSup_congr fun _ hnames => dependingOn_congr fun k hk => h k (hnames.1 hk)

/-! ## Sums and means over cells -/

variable [Fintype ι] [DecidableEq Λ]

variable (level) in
/-- The sum over the records that agree with one. -/
def cellSum (names : Finset κ) (y : ι → ℝ) (i : ι) : ℝ :=
  ∑ j with Agree level names i j, y j

variable (level) in
noncomputable def cellMean (names : Finset κ) (y : ι → ℝ) (i : ι) : ℝ :=
  cellSum level names y i / cellSum level names (fun _ => 1) i

theorem cellSum_congr {names : Finset κ} {i j : ι} (h : Agree level names i j) (y : ι → ℝ) :
    cellSum level names y i = cellSum level names y j := by
  have hfilter : ∀ l, Agree level names i l ↔ Agree level names j l :=
    fun l => ⟨h.symm.trans, h.trans⟩
  simp only [cellSum, hfilter]

theorem cellMean_mem (names : Finset κ) (y : ι → ℝ) :
    cellMean level names y ∈ dependingOn level names := by
  intro i j hij
  rw [cellMean, cellMean, cellSum_congr hij, cellSum_congr hij]

/-- A record agrees with itself, so no cell of a record is empty. -/
theorem cellSum_one_pos (names : Finset κ) (i : ι) : 0 < cellSum level names (fun _ => 1) i := by
  apply Finset.sum_pos (fun _ _ => one_pos)
  exact ⟨i, Finset.mem_filter.mpr ⟨Finset.mem_univ i, Agree.refl names i⟩⟩

/-- For a function of the levels of some factors, values may be replaced by their means over the
cells of these. -/
theorem dotProduct_cellMean {names : Finset κ} {g : ι → ℝ} (hg : g ∈ dependingOn level names)
    (y : ι → ℝ) : g ⬝ᵥ cellMean level names y = g ⬝ᵥ y := by
  let size := cellSum level names fun _ => 1
  calc
    g ⬝ᵥ cellMean level names y
        = ∑ i, ∑ j with Agree level names i j, g j * y j / size j := by
      apply Finset.sum_congr rfl
      intro i _
      rw [cellMean, cellSum, Finset.sum_div, Finset.mul_sum]
      apply Finset.sum_congr rfl
      intro j hj
      have hij := (Finset.mem_filter.mp hj).2
      rw [hg i j hij, cellSum_congr hij, mul_div_assoc]
    _ = ∑ j, ∑ i with Agree level names j i, g j * y j / size j := by
      apply Finset.sum_comm'
      intro i j
      simp only [Finset.mem_univ, Finset.mem_filter, true_and, and_true]
      exact ⟨Agree.symm, Agree.symm⟩
    _ = ∑ j, g j * y j := by
      apply Finset.sum_congr rfl
      intro j _
      have hpos : size j ≠ 0 := (cellSum_one_pos names j).ne'
      calc
        ∑ i with Agree level names j i, g j * y j / size j
            = (∑ i with Agree level names j i, 1) * (g j * y j / size j) := by
          rw [Finset.sum_mul]
          simp only [one_mul]
        _ = g j * y j := mul_div_cancel₀ _ hpos

theorem orthogonal_sub_cellMean (names : Finset κ) (y : ι → ℝ) :
    Orthogonal (y - cellMean level names y) (dependingOn level names) := by
  intro g hg
  rw [dotProduct_comm, dotProduct_sub, dotProduct_cellMean hg, sub_self]

/-- The mean over cells is the nearest function of the levels. -/
theorem isLeastDistance_cellMean (names : Finset κ) (y : ι → ℝ) :
    IsLeastDistance (dependingOn level names) y (squares (y - cellMean level names y)) :=
  IsLeastDistance.of_orthogonal (cellMean_mem names y) (orthogonal_sub_cellMean names y)

/-! ## The grand mean -/

/-- The sum of the squared deviations from the mean. -/
noncomputable def totalSquares (y : ι → ℝ) : ℝ :=
  ∑ i, (y i - (∑ j, y j) / Fintype.card ι) ^ 2

/-- The mean is the nearest constant. -/
theorem isLeastDistance_totalSquares (level : ι → κ → Λ) (y : ι → ℝ) :
    IsLeastDistance (dependingOn level ∅) y (totalSquares y) := by
  have hmean : ∀ i, cellMean level ∅ y i = (∑ j, y j) / Fintype.card ι := by
    intro i
    simp [cellMean, cellSum, Agree]
  have htotal : totalSquares y = squares (y - cellMean level ∅ y) := by
    simp [totalSquares, squares, hmean]
  rw [htotal]
  exact isLeastDistance_cellMean ∅ y

/-! ## Balanced classifications -/

variable (level) in
/-- Every combination of levels of the factors is that of the same number of records. -/
def Balanced (all : Finset κ) (size : ℕ) : Prop :=
  ∀ c : κ → Λ, (∀ k ∈ all, ∃ i, level i k = c k) →
    (Finset.univ.filter fun i => ∀ k ∈ all, level i k = c k).card = size

variable (level) in
/-- The records with the levels of one record in some factors and those of another in the rest. -/
def crossed [DecidableEq κ] (all names : Finset κ) (i j : ι) : Finset ι :=
  {l | Agree level names i l ∧ Agree level (all \ names) j l}

section Balanced

variable [DecidableEq κ] {all names others : Finset κ} {size : ℕ} {i j : ι}

theorem card_crossed (hbalanced : Balanced level all size) (hnames : names ⊆ all) :
    (crossed level all names i j).card = size := by
  let c : κ → Λ := fun k => if k ∈ names then level i k else level j k
  have hfilter : crossed level all names i j =
      Finset.univ.filter fun l => ∀ k ∈ all, level l k = c k := by
    ext l
    simp only [crossed, Finset.mem_filter, Finset.mem_univ, true_and]
    constructor
    · rintro ⟨hi, hj⟩ k hk
      by_cases hkn : k ∈ names
      · rw [show c k = level i k from if_pos hkn, hi k hkn]
      · rw [show c k = level j k from if_neg hkn, hj k (Finset.mem_sdiff.mpr ⟨hk, hkn⟩)]
    · intro h
      constructor
      · intro k hk
        rw [h k (hnames hk), show c k = level i k from if_pos hk]
      · intro k hk
        have ⟨hkall, hkn⟩ := Finset.mem_sdiff.mp hk
        rw [h k hkall, show c k = level j k from if_neg hkn]
  rw [hfilter]
  apply hbalanced
  intro k _
  by_cases hkn : k ∈ names
  · exact ⟨i, (if_pos hkn).symm⟩
  · exact ⟨j, (if_neg hkn).symm⟩

/-- In a balanced classification the sum of a function of the levels of `others` over a cell of
`names` depends only on the factors that they share: records of the two cells that agree in the
remaining factors correspond to one another, equally many to each. -/
theorem cellSum_mem_of_balanced (hbalanced : Balanced level all size) (hsize : 0 < size)
    (hnames : names ⊆ all) (hothers : others ⊆ all) {g : ι → ℝ}
    (hg : g ∈ dependingOn level others) :
    cellSum level names g ∈ dependingOn level (names ∩ others) := by
  intro i j hij
  have hvalue : ∀ a b, Agree level names i a → b ∈ crossed level all names j a → g b = g a := by
    intro a b ha hb
    obtain ⟨hjb, hab⟩ := (Finset.mem_filter.mp hb).2
    apply hg
    intro k hk
    by_cases hkn : k ∈ names
    · have hshared := hij k (Finset.mem_inter.mpr ⟨hkn, hk⟩)
      rw [← hjb k hkn, ← hshared, ha k hkn]
    · exact (hab k (Finset.mem_sdiff.mpr ⟨hothers hk, hkn⟩)).symm
  have hcount : (size : ℝ) * cellSum level names g i = size * cellSum level names g j := by
    calc
      (size : ℝ) * cellSum level names g i
          = ∑ a with Agree level names i a, ∑ b ∈ crossed level all names j a, g b := by
        rw [cellSum, Finset.mul_sum]
        apply Finset.sum_congr rfl
        intro a ha
        rw [Finset.sum_congr rfl fun b hb => hvalue a b (Finset.mem_filter.mp ha).2 hb,
          Finset.sum_const, card_crossed hbalanced hnames, nsmul_eq_mul]
      _ = ∑ b with Agree level names j b, ∑ _a ∈ crossed level all names i b, g b := by
        apply Finset.sum_comm'
        intro a b
        simp only [crossed, Finset.mem_filter, Finset.mem_univ, true_and]
        constructor
        · rintro ⟨hia, hjb, hab⟩
          exact ⟨⟨hia, hab.symm⟩, hjb⟩
        · rintro ⟨⟨hia, hba⟩, hjb⟩
          exact ⟨hia, hjb, hba.symm⟩
      _ = size * cellSum level names g j := by
        rw [cellSum, Finset.mul_sum]
        apply Finset.sum_congr rfl
        intro b _
        rw [Finset.sum_const, card_crossed hbalanced hnames, nsmul_eq_mul]
  have hne : (size : ℝ) ≠ 0 := Nat.cast_ne_zero.mpr hsize.ne'
  exact mul_left_cancel₀ hne hcount

theorem cellMean_mem_of_balanced (hbalanced : Balanced level all size) (hsize : 0 < size)
    (hnames : names ⊆ all) (hothers : others ⊆ all) {g : ι → ℝ}
    (hg : g ∈ dependingOn level others) :
    cellMean level names g ∈ dependingOn level (names ∩ others) := by
  intro i j hij
  rw [cellMean, cellMean, cellSum_mem_of_balanced hbalanced hsize hnames hothers hg i j hij,
    cellSum_mem_of_balanced hbalanced hsize hnames hothers (const_mem_dependingOn others 1) i j hij]

end Balanced

end Significance
