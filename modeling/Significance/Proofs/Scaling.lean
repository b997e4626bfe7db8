import Significance.Proofs.MatrixFit

/-! # Fits by a scaled matrix

A factor on all columns scales every length that an elimination compares and changes no projection.
So the fits by the multiples of one matrix take the same steps, and differ only in how many of them
they take: the tolerance is relative to the longest column where that is longer than one, and
absolute where it is not. -/

namespace Significance.LeastSquares

open Exact Matrix

variable {n p : ℕ}

/-! ## Mirrors of a multiple -/

theorem squares_smul (a : ℝ) (v : Fin n → ℝ) : squares (a • v) = a ^ 2 * squares v := by
  simp only [squares, Pi.smul_apply, smul_eq_mul, mul_pow, Finset.mul_sum]

theorem sqrt_squares_smul {a : ℝ} (ha : 0 < a) (v : Fin n → ℝ) :
    √(squares (a • v)) = a * √(squares v) := by
  rw [squares_smul, Real.sqrt_mul (sq_nonneg a), Real.sqrt_sq ha.le]

theorem imageEntry_smul {a : ℝ} (ha : 0 < a) (v : Fin (n + 1) → ℝ) :
    imageEntry (a • v) = a * imageEntry v := by
  simp only [imageEntry, Pi.smul_apply, smul_eq_mul, mul_pos_iff_of_pos_left ha,
    sqrt_squares_smul ha]
  split
  · exact (mul_neg _ _).symm
  · rfl

theorem normal_smul {a : ℝ} (ha : 0 < a) (v : Fin (n + 1) → ℝ) : normal (a • v) = a • normal v := by
  funext i
  refine Fin.cases ?_ (fun j => ?_) i
  · simp only [normal, Fin.cons_zero, Pi.smul_apply, smul_eq_mul, imageEntry_smul ha, mul_sub]
  · rfl

/-- The projection along a column is the one along every positive multiple of it. -/
theorem fold_smul {a : ℝ} (ha : 0 < a) (v : Fin (n + 1) → ℝ) : fold (a • v) = fold v := by
  refine LinearMap.ext fun x => funext fun i => ?_
  rw [fold_apply, fold_apply, normal_smul ha, squares_smul, smul_dotProduct]
  simp only [Pi.smul_apply, smul_eq_mul]
  by_cases hzero : squares (normal v) = 0
  · simp [hzero]
  · field_simp

theorem squares_fold_le (v x : Fin (n + 1) → ℝ) : squares (fold v x) ≤ squares x := by
  rw [← squares_reflect v x, squares_succ (reflect v x)]
  exact le_add_of_nonneg_left (sq_nonneg _)

theorem sum_sq_ofFn (y : Fin n → ℝ) : ((List.ofFn y).map (· ^ 2)).sum = squares y := by
  rw [List.map_ofFn, List.sum_ofFn]
  rfl

/-! ## The pivot of a multiple -/

theorem exchange_map_of_nil {α β : Type} {f : List α → List β} (hf : f [] = []) (i : ℕ)
    (columns : List (List α)) :
    exchange i (columns.map f) = (f (exchange i columns).1, (exchange i columns).2.map f) := by
  cases columns with
  | nil => simp [exchange, hf]
  | cons first rest =>
      cases i with
      | zero => rfl
      | succ j =>
          simp only [List.map_cons, exchange, List.map_set, List.getD_eq_getElem?_getD,
            List.getElem?_map, Prod.mk.injEq, and_true]
          cases rest[j]? with
          | none => exact hf.symm
          | some column => rfl

section

variable [Wording]

theorem ofVector_smul (a : ℝ) (v : Fin n → ℝ) :
    ofVector (a • v) = (ofVector v).map (real a * ·) := by
  simp [ofVector, List.map_ofFn, Function.comp_def]

/-- The search for the longest column keeps the same place among the multiples. -/
theorem foldl_longest_smul {a : ℝ} (ha : 0 < a) (columns : List (Fin n → ℝ)) (best : ℝ)
    (position start : ℕ) :
    ∃ size found,
      ((columns.map ofVector).zipIdx start).foldl
        (fun (best, position) (column, j) =>
          let size := length column
          if best < size then (size, j) else (best, position))
        (real best, position) = (real size, found) ∧
      (((columns.map (a • ·)).map ofVector).zipIdx start).foldl
        (fun (best, position) (column, j) =>
          let size := length column
          if best < size then (size, j) else (best, position))
        (real (a * best), position) = (real (a * size), found) := by
  induction columns generalizing best position start with
  | nil => exact ⟨best, position, rfl, rfl⟩
  | cons v columns ih =>
      simp only [List.map_cons, List.zipIdx_cons, List.foldl_cons, norm_ofVector, real_lt,
        sqrt_squares_smul ha, mul_lt_mul_iff_right₀ ha]
      by_cases hlt : best < √(squares v)
      · simp only [if_pos hlt]
        exact ih _ start (start + 1)
      · simp only [if_neg hlt]
        exact ih best position (start + 1)

/-- A longest column is found at the same place among the multiples. -/
theorem longest_smul {a : ℝ} (ha : 0 < a) {columns : List (Fin n → ℝ)} (hne : columns ≠ []) :
    ∃ size found, longest (columns.map ofVector) = (real size, found) ∧
      longest ((columns.map (a • ·)).map ofVector) = (real (a * size), found) := by
  obtain ⟨first, columns, rfl⟩ := List.exists_cons_of_ne_nil hne
  -- The start of the search is below every length, so the first column always takes its place.
  have hstart : ∀ v : Fin n → ℝ, (-1.0 : Exact) < real (√(squares v)) := by
    intro v
    rw [one_eq, real_neg, real_lt]
    exact (neg_lt_zero.mpr one_pos).trans_le (Real.sqrt_nonneg _)
  obtain ⟨size, found, hone, hmany⟩ := foldl_longest_smul ha columns (√(squares first)) 0 1
  refine ⟨size, found, ?_, ?_⟩
  · rw [longest, List.map_cons, List.zipIdx_cons, List.foldl_cons]
    dsimp only
    rw [norm_ofVector, if_pos (hstart first)]
    exact hone
  · rw [longest, List.map_cons, List.map_cons, List.zipIdx_cons, List.foldl_cons]
    dsimp only
    rw [norm_ofVector, if_pos (hstart _), sqrt_squares_smul ha]
    exact hmany

/-! ## One step -/

/-- One step on the multiples of some columns: a longest column `v` is mirrored away if its multiple
is longer than the tolerance. Which column that is does not depend on the factor. -/
structure Pivot (columns : List (Fin (n + 1) → ℝ)) (v : Fin (n + 1) → ℝ)
    (others : List (Fin (n + 1) → ℝ)) : Prop where
  perm : (v :: others).Perm columns
  longest : ∀ w ∈ columns, √(squares w) ≤ √(squares v)
  eliminate_smul : ∀ (a cut : ℝ) (steps : ℕ) (y : Fin (n + 1) → ℝ), 0 < a → 1e-9 ≤ cut →
    eliminate (real cut) (steps + 1) ((columns.map (a • ·)).map ofVector) (ofVector y) =
      if a * √(squares v) ≤ cut then (0, ofVector y)
      else
        let later := eliminate (real cut) steps
          (((others.map (fold v)).map (a • ·)).map ofVector) (ofVector (fold v y))
        (later.1 + 1, later.2)

theorem exists_pivot {columns : List (Fin (n + 1) → ℝ)} (hne : columns ≠ []) :
    ∃ v others, Pivot columns v others := by
  obtain ⟨i, hi, hlongest, hall⟩ := longest_ofVector hne
  obtain ⟨others, hexchange, hperm⟩ := exchange_map ofVector hi
  refine ⟨columns[i], others, hperm, hall, ?_⟩
  intro a cut steps y ha hcut
  have hscaled : longest ((columns.map (a • ·)).map ofVector) =
      (real (a * √(squares columns[i])), i) := by
    obtain ⟨size, found, hone, hmany⟩ := longest_smul ha hne
    rw [hlongest, Prod.mk.injEq, real_inj] at hone
    rw [hmany, hone.1, hone.2]
  have hmultiples : ∀ vectors : List (Fin (n + 1) → ℝ),
      (vectors.map (a • ·)).map ofVector = (vectors.map ofVector).map (List.map (real a * ·)) := by
    intro vectors
    simp [ofVector_smul]
  rw [eliminate, hscaled]
  dsimp only
  by_cases hle : a * √(squares columns[i]) ≤ cut
  · rw [if_pos ((real_le _ _).mpr hle), if_pos hle]
  rw [if_neg (mt (real_le _ _).mp hle), if_neg hle, hmultiples, exchange_map_of_nil rfl, hexchange, ← hmultiples,
    ← ofVector_smul]
  dsimp only
  -- The pivot is longer than the tolerance, so its mirror reflects.
  have hlong : (1e-9 : ℝ) ^ 2 < squares (a • columns[i]) := by
    rw [← sqrt_squares_smul ha] at hle
    exact (Real.lt_sqrt (by norm_num)).mp (hcut.trans_lt (lt_of_not_ge hle))
  have hnormal : 2.2250738585072014e-308 < squares (normal (a • columns[i])) := by
    linarith [smallestReflector_lt_squares, two_mul_squares_le (a • columns[i])]
  have himages : ((others.map (a • ·)).map ofVector).map
      (Mirror.ofColumn (real (√(squares (a • columns[i])))) (ofVector (a • columns[i]))).image =
        ((others.map (fold columns[i])).map (a • ·)).map ofVector := by
    simp [image_ofVector hnormal, fold_smul ha]
  rw [← sqrt_squares_smul ha, himages, image_ofVector hnormal, fold_smul ha]

/-! ## The course -/

/-- The steps that the eliminations of all multiples of some columns have in common: the length of
the column that each mirrors away, of the columns themselves, and what the first `k` of them leave of
the response. -/
structure Steps (columns : List (Fin n → ℝ)) (y : Fin n → ℝ) (lengths : List ℝ) (left : ℕ → ℝ) :
    Prop where
  decreasing : lengths.Pairwise (· ≥ ·)
  le_longest : ∀ l ∈ lengths, ∃ v ∈ columns, l ≤ √(squares v)
  first_longest : ∀ l ∈ lengths.head?, ∀ v ∈ columns, √(squares v) ≤ l
  left_zero : left 0 = squares y
  left_antitone : Antitone left
  eliminate_smul : ∀ (a cut : ℝ), 0 < a → 1e-9 ≤ cut → ∃ rest : List ℝ,
    let kept := (lengths.takeWhile fun l => cut < a * l).length
    eliminate (real cut) lengths.length ((columns.map (a • ·)).map ofVector) (ofVector y) =
      (kept, rest.map real) ∧ (rest.map (· ^ 2)).sum = left kept

/-- The steps of the projections along a longest column, behind the one that mirrors it away. -/
theorem Steps.cons {columns others : List (Fin (n + 1) → ℝ)} {v y : Fin (n + 1) → ℝ}
    {lengths : List ℝ} {left : ℕ → ℝ} (hpivot : Pivot columns v others)
    (h : Steps (others.map (fold v)) (fold v y) lengths left) :
    Steps columns y (√(squares v) :: lengths) fun k => Nat.casesOn k (squares y) left := by
  have hothers : ∀ w ∈ others, w ∈ columns := fun w hw =>
    hpivot.perm.mem_iff.mp (List.mem_cons_of_mem v hw)
  have hle : ∀ l ∈ lengths, l ≤ √(squares v) := by
    intro l hl
    obtain ⟨_, hmem, hlong⟩ := h.le_longest l hl
    obtain ⟨w, hw, rfl⟩ := List.mem_map.mp hmem
    calc
      l ≤ √(squares (fold v w)) := hlong
      _ ≤ √(squares w) := Real.sqrt_le_sqrt (squares_fold_le v w)
      _ ≤ √(squares v) := hpivot.longest w (hothers w hw)
  have hmem : v ∈ columns := hpivot.perm.mem_iff.mp List.mem_cons_self
  refine ⟨List.pairwise_cons.mpr ⟨hle, h.decreasing⟩, ?_, ?_, rfl, ?_, ?_⟩
  · intro l hl
    rcases List.mem_cons.mp hl with rfl | hl
    · exact ⟨v, hmem, le_rfl⟩
    · exact ⟨v, hmem, hle l hl⟩
  · rintro _ ⟨⟩
    exact hpivot.longest
  · refine antitone_nat_of_succ_le fun k => ?_
    cases k with
    | zero => exact h.left_zero.trans_le (squares_fold_le v y)
    | succ k => exact h.left_antitone (Nat.le_succ k)
  · intro a cut ha hcut
    rw [List.length_cons, hpivot.eliminate_smul a cut lengths.length y ha hcut, List.takeWhile_cons]
    by_cases hlt : cut < a * √(squares v)
    · obtain ⟨rest, heliminate, hrest⟩ := h.eliminate_smul a cut ha hcut
      refine ⟨rest, ?_, ?_⟩
      · rw [if_neg (not_le_of_gt hlt), heliminate, if_pos (decide_eq_true hlt)]
        rfl
      · rw [if_pos (decide_eq_true hlt)]
        exact hrest
    · refine ⟨List.ofFn y, ?_, ?_⟩
      · rw [if_pos (le_of_not_gt hlt), if_neg (by simpa using hlt), ofVector_eq_map]
        rfl
      · rw [if_neg (by simpa using hlt)]
        exact sum_sq_ofFn y

theorem exists_steps (steps : ℕ) :
    ∀ {n : ℕ} (columns : List (Fin n → ℝ)) (y : Fin n → ℝ), steps = min n columns.length →
      ∃ lengths left, lengths.length = steps ∧ Steps columns y lengths left := by
  induction steps with
  | zero =>
      intro n columns y _
      refine ⟨[], fun _ => squares y, rfl, List.Pairwise.nil, by simp, by simp, rfl,
        fun _ _ _ => le_rfl, ?_⟩
      intro a cut _ _
      exact ⟨List.ofFn y, by rw [← ofVector_eq_map]; rfl, sum_sq_ofFn y⟩
  | succ steps ih =>
      intro n columns y hsteps
      obtain ⟨m, rfl⟩ : ∃ m, n = m + 1 := ⟨n - 1, by omega⟩
      have hne : columns ≠ [] := by
        rintro rfl
        simp at hsteps
      obtain ⟨v, others, hpivot⟩ := exists_pivot hne
      have hothers : steps = min m (others.map (fold v)).length := by
        have hlength := hpivot.perm.length_eq
        rw [List.length_cons] at hlength
        rw [List.length_map]
        omega
      obtain ⟨lengths, left, hlength, h⟩ := ih (others.map (fold v)) (fold v y) hothers
      exact ⟨√(squares v) :: lengths, _, congrArg Nat.succ hlength, h.cons hpivot⟩

end

/-! ## Fits by the multiples of a matrix -/

noncomputable def longestColumn (X : Matrix (Fin n) (Fin p) ℝ) : ℝ :=
  ⨆ j, √(squares (X.col j))

/-- How many of the lengths in front are above the tolerance, relative to a size. -/
noncomputable def kept (lengths : List ℝ) (size : ℝ) : ℕ :=
  (lengths.takeWhile fun l => 1e-9 * size < l).length

theorem sqrt_squares_le_longestColumn (X : Matrix (Fin n) (Fin p) ℝ) (j : Fin p) :
    √(squares (X.col j)) ≤ longestColumn X :=
  le_ciSup (f := fun j => √(squares (X.col j))) (Set.finite_range _).bddAbove j

theorem longestColumn_smul {a : ℝ} (ha : 0 < a) (X : Matrix (Fin n) (Fin p) ℝ) :
    longestColumn (a • X) = a * longestColumn X := by
  rw [longestColumn, longestColumn, Real.mul_iSup_of_nonneg ha.le]
  exact congrArg iSup (funext fun j => sqrt_squares_smul ha (X.col j))

theorem ofMatrix_smul (a : ℝ) (X : Matrix (Fin n) (Fin p) ℝ) :
    ofMatrix (a • X) = ⟨n, ((List.ofFn X.col).map (a • ·)).map ofVector⟩ := by
  rw [ofMatrix, List.map_ofFn, List.map_ofFn]
  rfl

/-- The tolerance of the fit by a multiple, seen from the matrix itself. -/
theorem cutoff_smul_lt_iff {a : ℝ} (ha : 0 < a) (X : Matrix (Fin n) (Fin p) ℝ) (l : ℝ) :
    cutoff ((List.ofFn X.col).map (a • ·)) < a * l ↔ 1e-9 * max (longestColumn X) a⁻¹ < l := by
  have hcolumns : (List.ofFn X.col).map (a • ·) = List.ofFn (a • X).col := by
    rw [List.map_ofFn]
    rfl
  have hcutoff : cutoff ((List.ofFn X.col).map (a • ·)) =
      a * (1e-9 * max (longestColumn X) a⁻¹) := by
    rw [hcolumns, cutoff_ofFn, mul_left_comm a, mul_max_of_nonneg _ _ ha.le,
      mul_inv_cancel₀ ha.ne', max_comm, ← longestColumn_smul ha]
    rfl
  rw [hcutoff, mul_lt_mul_iff_right₀ ha]

theorem kept_eq_zero {lengths : List ℝ} {size : ℝ} (h : ∀ l ∈ lengths.head?, l ≤ 1e-9 * size) :
    kept lengths size = 0 := by
  cases lengths with
  | nil => rfl
  | cons l lengths =>
      rw [kept, List.takeWhile_cons, if_neg (by simpa using h l rfl)]
      rfl

section

variable [Wording]

/-- The fits of a response by the positive multiples of a matrix. They have one list of lengths, each
of a longest column that is left, and mirror these columns away as long as they are above the
tolerance. That is relative to the longest column of the matrix or to the inverse of the factor,
whichever is greater. -/
structure ScaledFits (X : Matrix (Fin n) (Fin p) ℝ) (y : Fin n → ℝ) (lengths : List ℝ)
    (left : ℕ → ℝ) : Prop where
  length_eq : lengths.length = min n p
  decreasing : lengths.Pairwise (· ≥ ·)
  first : ∀ l ∈ lengths.head?, l = longestColumn X
  left_zero : left 0 = squares y
  left_antitone : Antitone left
  fit_smul : ∀ a > 0, fit (ofMatrix (a • X)) (ofVector y) =
    .ok ⟨real (left (kept lengths (max (longestColumn X) a⁻¹))),
      kept lengths (max (longestColumn X) a⁻¹), n⟩
  /-- Where the longest column of the multiple is not shorter than one, the test is relative. -/
  relative : ∀ a > 0, 1 ≤ a * longestColumn X → fit (ofMatrix (a • X)) (ofVector y) =
    .ok ⟨real (left (kept lengths (longestColumn X))), kept lengths (longestColumn X), n⟩
  /-- So matrices with such columns have one fit with their multiples. -/
  same : ∀ a > 0, 1 ≤ longestColumn X → 1 ≤ a * longestColumn X →
    fit (ofMatrix (a • X)) (ofVector y) = fit (ofMatrix X) (ofVector y)
  /-- A multiple of too short columns has rank zero, whatever the matrix. -/
  none_kept : ∀ a > 0, a * longestColumn X ≤ 1e-9 → fit (ofMatrix (a • X)) (ofVector y) =
    .ok ⟨real (squares y), 0, n⟩

/-- The common steps of the eliminations, for the columns of a matrix. -/
theorem exists_matrixSteps (X : Matrix (Fin n) (Fin p) ℝ) (y : Fin n → ℝ) :
    ∃ lengths left, lengths.length = min n p ∧ Steps (List.ofFn X.col) y lengths left :=
  exists_steps (min n p) (List.ofFn X.col) y (by rw [List.length_ofFn])

theorem Steps.fit_smul {X : Matrix (Fin n) (Fin p) ℝ} {y : Fin n → ℝ} {lengths : List ℝ}
    {left : ℕ → ℝ} (hn : 0 < n) (hlength : lengths.length = min n p)
    (h : Steps (List.ofFn X.col) y lengths left) {a : ℝ} (ha : 0 < a) :
    fit (ofMatrix (a • X)) (ofVector y) =
      .ok ⟨real (left (kept lengths (max (longestColumn X) a⁻¹))),
        kept lengths (max (longestColumn X) a⁻¹), n⟩ := by
  obtain ⟨rest, heliminate, hrest⟩ := h.eliminate_smul a _ ha
    (le_cutoff ((List.ofFn X.col).map (a • ·)))
  simp only [cutoff_smul_lt_iff ha, ← tolerance_ofVector] at heliminate hrest
  have hresidual : squaredLength (rest.map real) =
      real (left (kept lengths (max (longestColumn X) a⁻¹))) := by
    have hsquares : (rest.map real).map Scalar.square = (rest.map (· ^ 2)).map real := by
      simp
    rw [squaredLength, hsquares, total_real]
    exact congrArg real hrest
  rw [hlength] at heliminate
  rw [ofMatrix_smul, fit, if_neg hn.ne', if_neg (by simp)]
  simp only [List.length_map, List.length_ofFn, heliminate, hresidual, isFinite_real, if_true]
  rfl

theorem Steps.head_eq {X : Matrix (Fin n) (Fin p) ℝ} {y : Fin n → ℝ} {lengths : List ℝ}
    {left : ℕ → ℝ} (h : Steps (List.ofFn X.col) y lengths left) {l : ℝ}
    (hl : l ∈ lengths.head?) : l = longestColumn X := by
  obtain ⟨v, hv, hle⟩ := h.le_longest l (List.mem_of_mem_head? hl)
  obtain ⟨j, rfl⟩ := List.mem_ofFn.mp hv
  apply le_antisymm (hle.trans (sqrt_squares_le_longestColumn X j))
  have : Nonempty (Fin p) := ⟨j⟩
  exact ciSup_le fun k => h.first_longest l hl _ (List.mem_ofFn.mpr ⟨k, rfl⟩)

/-- The fits by all positive multiples of a matrix compare the same lengths, with a tolerance that is
relative to the longest column only where that is not shorter than one. -/
theorem exists_scaledFits (hn : 0 < n) (X : Matrix (Fin n) (Fin p) ℝ) (y : Fin n → ℝ) :
    ∃ lengths left, ScaledFits X y lengths left := by
  obtain ⟨lengths, left, hlength, h⟩ := exists_matrixSteps X y
  have hrelative : ∀ a > 0, 1 ≤ a * longestColumn X → fit (ofMatrix (a • X)) (ofVector y) =
      .ok ⟨real (left (kept lengths (longestColumn X))), kept lengths (longestColumn X), n⟩ := by
    intro a ha hlong
    have hmax : max (longestColumn X) a⁻¹ = longestColumn X :=
      max_eq_left ((inv_le_iff_one_le_mul₀' ha).mpr hlong)
    rw [h.fit_smul hn hlength ha, hmax]
  refine ⟨lengths, left, hlength, h.decreasing, fun l => h.head_eq, h.left_zero, h.left_antitone,
    fun a => h.fit_smul hn hlength, hrelative, ?_, ?_⟩
  · intro a ha hone hlong
    have hself := hrelative 1 one_pos (by rwa [one_mul])
    rw [one_smul] at hself
    rw [hrelative a ha hlong, hself]
  · intro a ha hshort
    have hzero : kept lengths (max (longestColumn X) a⁻¹) = 0 := by
      apply kept_eq_zero
      intro l hl
      rw [h.head_eq hl]
      calc
        longestColumn X = a * longestColumn X * a⁻¹ := by field_simp
        _ ≤ 1e-9 * a⁻¹ := by gcongr
        _ ≤ 1e-9 * max (longestColumn X) a⁻¹ := by gcongr; exact le_max_right _ _
    rw [h.fit_smul hn hlength ha, hzero, h.left_zero]

end

/-! ## A column of two ones -/

section

open Sample

def twoOnes : Matrix (Fin 2) (Fin 1) ℝ :=
  fun _ _ => 1

theorem longestColumn_twoOnes : longestColumn twoOnes = √2 := by
  simp [longestColumn, squares, twoOnes]

/-- A tenth of a billionth of the ones counts as no column, so the whole response is left. -/
theorem exists_scaledFits_twoOnes : 0 < 2 ∧
    (∃ lengths left, ScaledFits twoOnes ![1, 3] lengths left) ∧
    fit (ofMatrix ((1e-10 : ℝ) • twoOnes)) (ofVector ![1, 3]) = .ok ⟨real 10, 0, 2⟩ := by
  obtain ⟨lengths, left, h⟩ := exists_scaledFits (by decide) twoOnes ![1, 3]
  refine ⟨by decide, ⟨lengths, left, h⟩, ?_⟩
  have hshort : 1e-10 * longestColumn twoOnes ≤ 1e-9 := by
    have hroot : √2 ≤ 2 := Real.sqrt_le_iff.mpr (by norm_num)
    rw [longestColumn_twoOnes]
    linarith
  rw [h.none_kept 1e-10 (by norm_num) hshort]
  norm_num [squares]

/-- Not every fit reports the rank and the residual of the fit by a multiple of its matrix. -/
theorem not_forall_fit_smul : ¬ ∀ (X : Matrix (Fin 2) (Fin 1) ℝ) (y : Fin 2 → ℝ) (a : ℝ), 0 < a →
    ∃ fitted scaled, fit (ofMatrix X) (ofVector y) = .ok fitted ∧
      fit (ofMatrix (a • X)) (ofVector y) = .ok scaled ∧
      scaled.rank = fitted.rank ∧ scaled.residual = fitted.residual := by
  intro hall
  obtain ⟨fitted, scaled, hfitted, hscaled, hrank, -⟩ := hall twoOnes ![1, 3] 1e-10 (by norm_num)
  obtain ⟨lengths, left, hlength, h⟩ := exists_matrixSteps twoOnes ![1, 3]
  obtain ⟨l, rfl⟩ : ∃ l, lengths = [l] := List.length_eq_one_iff.mp hlength
  obtain rfl : l = longestColumn twoOnes := h.head_eq rfl
  have hone := h.fit_smul (by decide) hlength one_pos
  have htiny := h.fit_smul (by decide) hlength (show (0 : ℝ) < 1e-10 by norm_num)
  have hroot : 1 ≤ √2 ∧ √2 ≤ 2 := ⟨Real.one_le_sqrt.mpr (by norm_num), Real.sqrt_le_iff.mpr (by norm_num)⟩
  have hkept : kept [longestColumn twoOnes] (max (longestColumn twoOnes) 1⁻¹) = 1 := by
    rw [longestColumn_twoOnes, inv_one, max_eq_left hroot.1, kept, List.takeWhile_cons,
      if_pos (decide_eq_true (by linarith))]
    rfl
  have hnone : kept [longestColumn twoOnes] (max (longestColumn twoOnes) 1e-10⁻¹) = 0 := by
    apply kept_eq_zero
    rintro _ ⟨⟩
    calc
      longestColumn twoOnes ≤ 1e-9 * 1e-10⁻¹ := by
        rw [longestColumn_twoOnes]
        linarith [show (1e-9 * 1e-10⁻¹ : ℝ) = 10 by norm_num]
      _ ≤ 1e-9 * max (longestColumn twoOnes) 1e-10⁻¹ := by gcongr; exact le_max_right _ _
  rw [one_smul, hkept, hfitted] at hone
  rw [hnone, hscaled] at htiny
  injection hone with hone
  injection htiny with htiny
  rw [hone, htiny] at hrank
  exact absurd hrank zero_ne_one

end

end Significance.LeastSquares
