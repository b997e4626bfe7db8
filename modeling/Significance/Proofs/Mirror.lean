import Significance.LeastSquares
import Significance.Proofs.Exact
import Significance.Proofs.LeastDistance

/-! # Mirrors

A mirror sends one column to a multiple of the first coordinate vector. Without the first
coordinate it is a projection along that column, so it keeps every least distance from a space
that contains the column. -/

namespace Significance.LeastSquares

open Exact

variable {n : ℕ}

/-! ## The mirror of a column -/

/-- The first entry of the mirror image of a column; the others vanish. -/
noncomputable def imageEntry (c : Fin (n + 1) → ℝ) : ℝ :=
  if 0 < c 0 then -√(squares c) else √(squares c)

/-- The normal vector of the mirror of a column. -/
noncomputable def normal (c : Fin (n + 1) → ℝ) : Fin (n + 1) → ℝ :=
  Fin.cons (c 0 - imageEntry c) (Fin.tail c)

theorem imageEntry_sq (c : Fin (n + 1) → ℝ) : imageEntry c ^ 2 = squares c := by
  unfold imageEntry
  split
  · rw [neg_sq, Real.sq_sqrt (squares_nonneg c)]
  · rw [Real.sq_sqrt (squares_nonneg c)]

/-- The sign of the image avoids cancellation. -/
theorem mul_imageEntry_nonpos (c : Fin (n + 1) → ℝ) : c 0 * imageEntry c ≤ 0 := by
  have hroot := Real.sqrt_nonneg (squares c)
  unfold imageEntry
  split
  · next h => nlinarith
  · next h => exact mul_nonpos_of_nonpos_of_nonneg (le_of_not_gt h) hroot

theorem squares_succ (x : Fin (n + 1) → ℝ) : squares x = x 0 ^ 2 + squares (Fin.tail x) :=
  Fin.sum_univ_succ _

theorem squares_normal (c : Fin (n + 1) → ℝ) :
    squares (normal c) = 2 * (squares c - c 0 * imageEntry c) := by
  have hsplit := squares_succ c
  have himage := imageEntry_sq c
  rw [squares_succ, normal, Fin.cons_zero, Fin.tail_cons]
  linarith [sub_sq (c 0) (imageEntry c)]

theorem two_mul_squares_le (c : Fin (n + 1) → ℝ) : 2 * squares c ≤ squares (normal c) := by
  rw [squares_normal]
  linarith [mul_imageEntry_nonpos c]

theorem normal_dotProduct (c x : Fin (n + 1) → ℝ) :
    normal c ⬝ᵥ x = (c 0 - imageEntry c) * x 0 + Fin.tail c ⬝ᵥ Fin.tail x :=
  Fin.sum_univ_succ _

theorem two_mul_normal_dotProduct_self (c : Fin (n + 1) → ℝ) :
    2 * (normal c ⬝ᵥ c) = squares (normal c) := by
  have hsplit := squares_succ c
  rw [squares_normal, normal_dotProduct, ← squares_eq_dotProduct]
  linarith [sub_mul (c 0) (imageEntry c) (c 0), sq (c 0), mul_comm (c 0) (imageEntry c)]

/-- The mirror image of a vector, by the mirror of a column. -/
noncomputable def reflect (c x : Fin (n + 1) → ℝ) : Fin (n + 1) → ℝ :=
  x - (2 / squares (normal c) * (normal c ⬝ᵥ x)) • normal c

/-- The mirror image without its first entry. -/
noncomputable def fold (c : Fin (n + 1) → ℝ) : (Fin (n + 1) → ℝ) →ₗ[ℝ] (Fin n → ℝ) where
  toFun x := Fin.tail (reflect c x)
  map_add' x z := by
    funext i
    simp only [Fin.tail, reflect, dotProduct_add, Pi.add_apply, Pi.sub_apply, Pi.smul_apply,
      smul_eq_mul]
    ring
  map_smul' a x := by
    funext i
    simp only [Fin.tail, reflect, dotProduct_smul, Pi.sub_apply, Pi.smul_apply, smul_eq_mul,
      RingHom.id_apply]
    ring

theorem fold_apply (c x : Fin (n + 1) → ℝ) (i : Fin n) :
    fold c x i = x i.succ - 2 / squares (normal c) * (normal c ⬝ᵥ x) * c i.succ := rfl

/-- A reflection keeps lengths. -/
theorem squares_reflect (c x : Fin (n + 1) → ℝ) : squares (reflect c x) = squares x := by
  by_cases hzero : squares (normal c) = 0
  · simp [reflect, hzero]
  · have hscale : 2 / squares (normal c) * squares (normal c) = 2 := div_mul_cancel₀ 2 hzero
    rw [squares_eq_dotProduct, reflect]
    simp only [sub_dotProduct, dotProduct_sub, smul_dotProduct, dotProduct_smul, smul_eq_mul]
    rw [dotProduct_comm x (normal c), ← squares_eq_dotProduct, ← squares_eq_dotProduct]
    linear_combination (2 / squares (normal c)) * (normal c ⬝ᵥ x) ^ 2 * hscale

theorem reflect_self {c : Fin (n + 1) → ℝ} (h : 0 < squares c) : reflect c c = c - normal c := by
  have hpos : squares (normal c) ≠ 0 := by linarith [two_mul_squares_le c]
  have hscale : 2 / squares (normal c) * (normal c ⬝ᵥ c) = 1 := by
    rw [div_mul_eq_mul_div, two_mul_normal_dotProduct_self, div_self hpos]
  rw [reflect, hscale, one_smul]

/-! ## Projections along a column -/

/-- A projection along one column: it ends the column, never lengthens a vector, and leaves of a
vector what some multiple of the column leaves of it. -/
structure DropsAlong (project : (Fin (n + 1) → ℝ) →ₗ[ℝ] (Fin n → ℝ)) (c : Fin (n + 1) → ℝ) :
    Prop where
  self : project c = 0
  squares_le : ∀ x, squares (project x) ≤ squares x
  attained : ∀ x, ∃ t : ℝ, squares (x - t • c) = squares (project x)

theorem dropsAlong_fold {c : Fin (n + 1) → ℝ} (h : 0 < squares c) : DropsAlong (fold c) c := by
  have hself : fold c c = 0 := by
    funext i
    change reflect c c i.succ = 0
    rw [reflect_self h, Pi.sub_apply, normal, Fin.cons_succ]
    exact sub_self _
  have hsplit : ∀ x, squares x = reflect c x 0 ^ 2 + squares (fold c x) := by
    intro x
    rw [← squares_reflect c x, squares_succ]
    rfl
  refine ⟨hself, ?_, ?_⟩
  · intro x
    rw [hsplit x]
    exact le_add_of_nonneg_left (sq_nonneg _)
  · intro x
    have hentry : reflect c c 0 = imageEntry c := by
      rw [reflect_self h, Pi.sub_apply, normal, Fin.cons_zero]
      ring
    have hne : imageEntry c ≠ 0 := by
      intro hzero
      have := imageEntry_sq c
      rw [hzero] at this
      linarith
    -- The multiple that takes the first entry of the image away.
    let t := reflect c x 0 / imageEntry c
    have hfirst : reflect c (x - t • c) 0 = 0 := by
      have hlinear : reflect c (x - t • c) 0 = reflect c x 0 - t * reflect c c 0 := by
        simp only [reflect, dotProduct_sub, dotProduct_smul, Pi.sub_apply, Pi.smul_apply,
          smul_eq_mul]
        ring
      rw [hlinear, hentry, div_mul_cancel₀ _ hne, sub_self]
    refine ⟨t, ?_⟩
    rw [hsplit, hfirst, map_sub, map_smul, hself]
    simp

/-- A projection along a column keeps the least distance from a space with that column. -/
theorem DropsAlong.isLeastDistance {project : (Fin (n + 1) → ℝ) →ₗ[ℝ] (Fin n → ℝ)}
    {c y : Fin (n + 1) → ℝ} {space : Submodule ℝ (Fin (n + 1) → ℝ)} {r : ℝ}
    (hdrop : DropsAlong project c) (h : IsLeastDistance (space.map project) (project y) r) :
    IsLeastDistance (Submodule.span ℝ {c} ⊔ space) y r := by
  obtain ⟨⟨w, ⟨v, hv, rfl⟩, hr⟩, hleast⟩ := h
  constructor
  · obtain ⟨t, ht⟩ := hdrop.attained (y - v)
    refine ⟨t • c + v, ?_, ?_⟩
    · exact Submodule.add_mem_sup (Submodule.smul_mem _ t (Submodule.mem_span_singleton_self c)) hv
    · calc
        r = squares (project (y - v)) := by rw [hr, map_sub]; rfl
        _ = squares (y - v - t • c) := ht.symm
        _ = squares (y - (t • c + v)) := by congr 1; abel
  · rintro s ⟨h, hh, rfl⟩
    obtain ⟨a, ha, v, hv, rfl⟩ := Submodule.mem_sup.mp hh
    obtain ⟨t, rfl⟩ := Submodule.mem_span_singleton.mp ha
    calc
      r ≤ squares (project y - project v) := hleast ⟨project v, ⟨v, hv, rfl⟩, rfl⟩
      _ = squares (project (y - (t • c + v))) := by
        congr 1
        rw [map_sub, map_add, map_smul, hdrop.self, smul_zero, zero_add]
      _ ≤ squares (y - (t • c + v)) := hdrop.squares_le _

/-! ## The mirror as computed -/

/-- The decimal text of the smallest normal double, as a quotient. -/
theorem smallestReflector_eq :
    (2.2250738585072014e-308 : ℝ) = 22250738585072014 / 10 ^ 324 := by
  rw [NNRatCast.ofScientific_eq_ite, if_pos rfl, NNRat.divNat_eq_div, NNRat.cast_div,
    NNRat.cast_natCast, NNRat.cast_natCast, Nat.cast_pow, Nat.cast_ofNat]
  exact congrArg (· / (10 : ℝ) ^ 324) (Nat.cast_ofNat (n := 22250738585072014))

theorem smallestReflector_pos : (0 : ℝ) < 2.2250738585072014e-308 := by
  rw [smallestReflector_eq]
  positivity

/-- No column longer than the smallest tolerance has too short a normal vector. -/
theorem smallestReflector_lt_squares : (2.2250738585072014e-308 : ℝ) < 2 * 1e-9 ^ 2 := by
  have hle : (22250738585072014 / 10 ^ 324 : ℝ) ≤ 22250738585072014 / 10 ^ 40 := by
    gcongr <;> norm_num
  rw [smallestReflector_eq]
  exact hle.trans_lt (by norm_num)

variable [Wording]

theorem squaredLength_ofVector (v : Fin n → ℝ) :
    squaredLength (ofVector v) = real (squares v) := by
  have hmap : (ofVector v).map Scalar.square = ofVector fun i => v i ^ 2 := by
    simp [ofVector, List.map_ofFn, Function.comp_def]
  rw [squaredLength, hmap, total_ofVector]
  rfl

theorem norm_ofVector (v : Fin n → ℝ) : length (ofVector v) = real (√(squares v)) := by
  rw [length, squaredLength_ofVector, sqrt_real (squares_nonneg v)]

theorem foldl_product (u v : Fin n → ℝ) (start : ℝ) :
    ((ofVector u).zip (ofVector v)).foldl (fun sum (v, x) => sum + v * x) (real start) =
      real (start + u ⬝ᵥ v) := by
  have hzip : (ofVector u).zip (ofVector v) = List.ofFn fun i => (real (u i), real (v i)) := by
    apply List.ext_getElem <;> simp [ofVector]
  have hsum := foldl_add_real (fun i => u i * v i) (List.finRange n) start
  rw [hzip, List.ofFn_eq_map, List.foldl_map]
  simpa [dotProduct, ← List.ofFn_eq_map, List.sum_ofFn] using hsum

theorem foldl_square (v : Fin n → ℝ) (start : ℝ) :
    (ofVector v).foldl (fun sum v => sum + Scalar.square v) (real start) =
      real (start + squares v) := by
  have hsum := foldl_add_real (fun x => x ^ 2) (List.ofFn v) start
  rw [ofVector_eq_map, List.foldl_map]
  simpa [squares, List.map_ofFn, List.sum_ofFn] using hsum

theorem smallestReflector_lt (q : ℝ) :
    smallestReflector < real q ↔ (2.2250738585072014e-308 : ℝ) < q := Iff.rfl

theorem ofColumn_ofVector {c : Fin (n + 1) → ℝ} (h : 2.2250738585072014e-308 < squares (normal c)) :
    Mirror.ofColumn (real (√(squares c))) (ofVector c) =
      ⟨real (normal c 0), ofVector (Fin.tail c), some (real (2 / squares (normal c)))⟩ := by
  have himage : (if (0.0 : Exact) < real (c 0) then -real (√(squares c)) else real (√(squares c))) =
      real (imageEntry c) := by
    unfold imageEntry
    by_cases hpos : 0 < c 0 <;> simp [hpos]
  have hsquared : (ofVector (Fin.tail c)).foldl (fun sum v => sum + Scalar.square v)
      (Scalar.square (real (c 0 - imageEntry c))) = real (squares (normal c)) := by
    rw [square_real, foldl_square, squares_succ (normal c), normal, Fin.cons_zero,
      Fin.tail_cons]
  have hpos : squares (normal c) ≠ 0 := (smallestReflector_pos.trans h).ne'
  rw [ofVector_succ, Mirror.ofColumn]
  simp only [himage, real_sub, hsquared, if_pos ((smallestReflector_lt _).mpr h), two_eq,
    real_div _ hpos]
  rfl

/-- The squared length of the normal vector of a mirror. -/
def Mirror.squaredNormal {α : Type} [Scalar α] (mirror : Mirror α) : α :=
  mirror.others.foldl (fun sum v => sum + Scalar.square v) (Scalar.square mirror.first)

/-- The normal vector is long enough for a reflection. -/
def Mirror.Reflects {α : Type} [Scalar α] (mirror : Mirror α) : Prop :=
  smallestReflector < mirror.squaredNormal ∧ mirror.twice = some (2.0 / mirror.squaredNormal)

theorem reflects_ofColumn {c : Fin (n + 1) → ℝ}
    (h : 2.2250738585072014e-308 < squares (normal c)) :
    (Mirror.ofColumn (real (√(squares c))) (ofVector c)).Reflects := by
  have hpos : squares (normal c) ≠ 0 := (smallestReflector_pos.trans h).ne'
  have hsquared : Mirror.squaredNormal
      ⟨real (normal c 0), ofVector (Fin.tail c), some (real (2 / squares (normal c)))⟩ =
        real (squares (normal c)) := by
    rw [Mirror.squaredNormal, square_real, foldl_square, squares_succ (normal c), normal,
      Fin.tail_cons]
  rw [ofColumn_ofVector h, Mirror.Reflects, hsquared, two_eq, real_div _ hpos]
  exact ⟨(smallestReflector_lt _).mpr h, rfl⟩

/-- The computed image is the projection along the mirrored column. -/
theorem image_ofVector {c : Fin (n + 1) → ℝ} (h : 2.2250738585072014e-308 < squares (normal c))
    (x : Fin (n + 1) → ℝ) :
    (Mirror.ofColumn (real (√(squares c))) (ofVector c)).image (ofVector x) =
      ofVector (fold c x) := by
  have hproduct : normal c 0 * x 0 + Fin.tail c ⬝ᵥ Fin.tail x = normal c ⬝ᵥ x := by
    rw [normal_dotProduct, normal, Fin.cons_zero]
  rw [ofColumn_ofVector h, ofVector_succ, Mirror.image]
  simp only [real_mul, foldl_product, hproduct]
  apply List.ext_getElem
  · simp
  · intro i hi hi'
    simp [ofVector, fold_apply, Fin.tail]

end Significance.LeastSquares
