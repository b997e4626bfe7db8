import Mathlib.Analysis.InnerProductSpace.PiL2
import Mathlib.Analysis.InnerProductSpace.Projection.Basic
import Mathlib.LinearAlgebra.Matrix.DotProduct
import Mathlib.Order.CompletePartialOrder

/-! # Least distances

The least squared distance of a vector from a space of vectors, and where it is attained. -/

namespace Significance

variable {ι : Type*} [Fintype ι]

/-- The squared Euclidean length. -/
def squares (x : ι → ℝ) : ℝ :=
  ∑ i, x i ^ 2

/-- `r` is the least squared distance of `y` from the vectors of a space. -/
def IsLeastDistance (space : Submodule ℝ (ι → ℝ)) (y : ι → ℝ) (r : ℝ) : Prop :=
  IsLeast {s | ∃ h ∈ space, s = ∑ i, (y i - h i) ^ 2} r

/-- Every vector of the space is orthogonal to `x`. -/
def Orthogonal (x : ι → ℝ) (space : Submodule ℝ (ι → ℝ)) : Prop :=
  ∀ h ∈ space, x ⬝ᵥ h = 0

theorem squares_eq_dotProduct (x : ι → ℝ) : squares x = x ⬝ᵥ x := by
  simp [squares, dotProduct, sq]

theorem squares_nonneg (x : ι → ℝ) : 0 ≤ squares x :=
  Finset.sum_nonneg fun i _ => sq_nonneg (x i)

theorem squares_eq_zero {x : ι → ℝ} : squares x = 0 ↔ x = 0 := by
  rw [squares_eq_dotProduct, dotProduct_self_eq_zero]

/-- Orthogonal vectors satisfy the theorem of Pythagoras. -/
theorem squares_add {x z : ι → ℝ} (h : x ⬝ᵥ z = 0) : squares (x + z) = squares x + squares z := by
  have hsymm : z ⬝ᵥ x = 0 := by rw [dotProduct_comm, h]
  simp only [squares_eq_dotProduct, add_dotProduct, dotProduct_add, h, hsymm]
  ring

namespace Orthogonal

variable {x z : ι → ℝ} {space other : Submodule ℝ (ι → ℝ)}

theorem add (hx : Orthogonal x space) (hz : Orthogonal z space) : Orthogonal (x + z) space := by
  intro h hh
  rw [add_dotProduct, hx h hh, hz h hh, add_zero]

theorem sum {κ : Type*} {s : Finset κ} {x : κ → ι → ℝ} (h : ∀ k ∈ s, Orthogonal (x k) space) :
    Orthogonal (∑ k ∈ s, x k) space := by
  intro v hv
  rw [sum_dotProduct]
  exact Finset.sum_eq_zero fun k hk => h k hk v hv

theorem mono (hx : Orthogonal x space) (h : other ≤ space) : Orthogonal x other :=
  fun v hv => hx v (h hv)

theorem iSup {κ : Sort*} {space : κ → Submodule ℝ (ι → ℝ)} (h : ∀ k, Orthogonal x (space k)) :
    Orthogonal x (⨆ k, space k) := by
  intro v hv
  induction hv using Submodule.iSup_induction' with
  | mem k v hv => exact h k v hv
  | zero => exact dotProduct_zero x
  | add v w _ _ hv hw => rw [dotProduct_add, hv, hw, add_zero]

theorem sup (hx : Orthogonal x space) (h : Orthogonal x other) : Orthogonal x (space ⊔ other) := by
  intro v hv
  obtain ⟨a, ha, b, hb, rfl⟩ := Submodule.mem_sup.mp hv
  rw [dotProduct_add, hx a ha, h b hb, add_zero]

end Orthogonal

/-- Every vector is a vector of the space and one orthogonal to it. -/
theorem exists_orthogonal_sub (space : Submodule ℝ (ι → ℝ)) (y : ι → ℝ) :
    ∃ w ∈ space, Orthogonal (y - w) space := by
  let e := (WithLp.linearEquiv 2 ℝ (ι → ℝ)).symm
  obtain ⟨w, hw, z, hz, hy⟩ :=
    (space.map e.toLinearMap).exists_add_mem_mem_orthogonal (e y)
  obtain ⟨w, hw, rfl⟩ := hw
  refine ⟨w, hw, ?_⟩
  intro h hh
  have hz' : z = e (y - w) := by
    rw [map_sub, hy]
    exact (add_sub_cancel_left _ _).symm
  have horth := (Submodule.mem_orthogonal _ _).mp hz (e h) ⟨h, hh, rfl⟩
  rw [hz'] at horth
  simpa [e, PiLp.inner_apply, dotProduct] using horth

namespace IsLeastDistance

variable {space other : Submodule ℝ (ι → ℝ)} {y z : ι → ℝ} {r s : ℝ}

theorem unique (hr : IsLeastDistance space y r) (hs : IsLeastDistance space y s) : r = s :=
  IsLeast.unique hr hs

/-- A larger space is not farther away. -/
theorem anti (hr : IsLeastDistance space y r) (hs : IsLeastDistance other y s) (h : space ≤ other) :
    s ≤ r := by
  obtain ⟨⟨v, hv, rfl⟩, -⟩ := hr
  exact hs.2 ⟨v, h hv, rfl⟩

/-- The distance is attained where the difference is orthogonal to the space. -/
theorem of_orthogonal {w : ι → ℝ} (hw : w ∈ space) (h : Orthogonal (y - w) space) :
    IsLeastDistance space y (squares (y - w)) := by
  refine ⟨⟨w, hw, rfl⟩, ?_⟩
  rintro s ⟨v, hv, rfl⟩
  have hsum : (y - w) + (w - v) = y - v := by abel
  have hsplit := squares_add (h (w - v) (space.sub_mem hw hv))
  rw [hsum] at hsplit
  have hdef : ∑ i, (y i - v i) ^ 2 = squares (y - v) := rfl
  rw [hdef, hsplit]
  exact le_add_of_nonneg_right (squares_nonneg _)

/-- What the space contains does not change the distance from it. -/
theorem add (hr : IsLeastDistance space y r) (hz : z ∈ space) :
    IsLeastDistance space (y + z) r := by
  have hset : {s | ∃ h ∈ space, s = ∑ i, ((y + z) i - h i) ^ 2} =
      {s | ∃ h ∈ space, s = ∑ i, (y i - h i) ^ 2} := by
    ext s
    constructor
    · rintro ⟨h, hh, rfl⟩
      refine ⟨h - z, space.sub_mem hh hz, Finset.sum_congr rfl fun i _ => ?_⟩
      simp only [Pi.add_apply, Pi.sub_apply]
      ring
    · rintro ⟨h, hh, rfl⟩
      refine ⟨h + z, space.add_mem hh hz, Finset.sum_congr rfl fun i _ => ?_⟩
      simp only [Pi.add_apply]
      ring
  rw [IsLeastDistance, hset]
  exact hr

end IsLeastDistance

theorem exists_isLeastDistance (space : Submodule ℝ (ι → ℝ)) (y : ι → ℝ) :
    ∃ r, IsLeastDistance space y r := by
  obtain ⟨w, hw, h⟩ := exists_orthogonal_sub space y
  exact ⟨_, IsLeastDistance.of_orthogonal hw h⟩

end Significance
