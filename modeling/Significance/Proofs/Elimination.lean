import Mathlib.Data.List.Forall2
import Mathlib.LinearAlgebra.FiniteDimensional.Lemmas
import Significance.Proofs.Mirror

/-! # The elimination solves least squares

Whatever the tolerance, the columns that the elimination mirrors away are linearly independent, the
residual is the least squared distance of the response from their span, and every column is within
the tolerance of that span. -/

namespace Significance.LeastSquares

open Exact

variable {n : ℕ}

def columnSpan (columns : List (Fin n → ℝ)) : Submodule ℝ (Fin n → ℝ) :=
  Submodule.span ℝ {c | c ∈ columns}

theorem columnSpan_cons (c : Fin n → ℝ) (columns : List (Fin n → ℝ)) :
    columnSpan (c :: columns) = Submodule.span ℝ {c} ⊔ columnSpan columns := by
  rw [columnSpan, columnSpan, ← Submodule.span_union]
  congr 1
  ext v
  simp

theorem columnSpan_map {m : ℕ} (project : (Fin n → ℝ) →ₗ[ℝ] (Fin m → ℝ))
    (columns : List (Fin n → ℝ)) :
    columnSpan (columns.map project) = (columnSpan columns).map project := by
  rw [columnSpan, columnSpan, Submodule.map_span]
  congr 1
  ext v
  simp

theorem columnSpan_mono {columns others : List (Fin n → ℝ)} (h : ∀ c ∈ columns, c ∈ others) :
    columnSpan columns ≤ columnSpan others :=
  Submodule.span_mono h

theorem finrank_columnSpan_le (columns : List (Fin n → ℝ)) :
    Module.finrank ℝ (columnSpan columns) ≤ columns.length := by
  classical
  have hset : {c | c ∈ columns} = (columns.toFinset : Set (Fin n → ℝ)) := by
    ext c
    simp
  rw [columnSpan, hset]
  exact (finrank_span_finset_le_card columns.toFinset).trans columns.toFinset_card_le

/-- Columns are as many as the dimensions of their span if their images are so under a projection
along one more column, which then adds a dimension. -/
theorem finrank_columnSpan_cons {project : (Fin (n + 1) → ℝ) →ₗ[ℝ] (Fin n → ℝ)}
    {c : Fin (n + 1) → ℝ} {columns : List (Fin (n + 1) → ℝ)} (hdrop : DropsAlong project c)
    (hc : c ≠ 0)
    (h : Module.finrank ℝ (columnSpan (columns.map project)) = columns.length) :
    Module.finrank ℝ (columnSpan (c :: columns)) = (c :: columns).length := by
  let space := columnSpan (c :: columns)
  have hmem : c ∈ space := Submodule.subset_span (by simp)
  have himage : space.map project = columnSpan (columns.map project) := by
    rw [columnSpan_map, show space = _ from columnSpan_cons c columns, Submodule.map_sup,
      Submodule.map_span, Set.image_singleton, hdrop.self, Submodule.span_zero_singleton,
      bot_sup_eq]
  have hkernel : Module.finrank ℝ (LinearMap.ker (project.domRestrict space)) ≠ 0 := by
    intro hzero
    have hker : (⟨c, hmem⟩ : space) ∈ LinearMap.ker (project.domRestrict space) := hdrop.self
    rw [Submodule.finrank_eq_zero.mp hzero, Submodule.mem_bot] at hker
    exact hc (congrArg Subtype.val hker)
  have hsplit := LinearMap.finrank_range_add_finrank_ker (project.domRestrict space)
  rw [LinearMap.range_domRestrict, himage, h] at hsplit
  have hle := finrank_columnSpan_le (c :: columns)
  rw [List.length_cons] at hle ⊢
  change Module.finrank ℝ space ≤ _ at hle
  change Module.finrank ℝ space = _
  omega

/-! ## The columns chosen -/

/-- Some of the columns, as many as their span has dimensions, with every column within the
tolerance of that span. -/
structure Selection (tolerance : ℝ) (columns chosen : List (Fin n → ℝ)) : Prop where
  perm : ∃ dropped, (chosen ++ dropped).Perm columns
  finrank_eq : Module.finrank ℝ (columnSpan chosen) = chosen.length
  near : ∀ c ∈ columns, ∃ v ∈ columnSpan chosen, squares (c - v) ≤ tolerance ^ 2

namespace Selection

variable {tolerance : ℝ} {columns chosen : List (Fin n → ℝ)}

theorem columnSpan_le (h : Selection tolerance columns chosen) :
    columnSpan chosen ≤ columnSpan columns := by
  obtain ⟨dropped, hperm⟩ := h.perm
  exact columnSpan_mono fun c hc => hperm.mem_iff.mp (List.mem_append_left _ hc)

theorem of_perm {others : List (Fin n → ℝ)} (h : Selection tolerance others chosen)
    (hperm : others.Perm columns) : Selection tolerance columns chosen := by
  obtain ⟨dropped, hchosen⟩ := h.perm
  exact ⟨⟨dropped, hchosen.trans hperm⟩, h.finrank_eq,
    fun c hc => h.near c (hperm.mem_iff.mpr hc)⟩

theorem mono {larger : ℝ} (h : Selection tolerance columns chosen) (hnonneg : 0 ≤ tolerance)
    (hle : tolerance ≤ larger) : Selection larger columns chosen := by
  refine ⟨h.perm, h.finrank_eq, ?_⟩
  intro c hc
  obtain ⟨v, hv, hnear⟩ := h.near c hc
  exact ⟨v, hv, hnear.trans (pow_le_pow_left₀ hnonneg hle 2)⟩

/-- No column is chosen where all are short. -/
theorem nil (h : ∀ c ∈ columns, squares c ≤ tolerance ^ 2) : Selection tolerance columns [] := by
  refine ⟨⟨columns, List.Perm.refl _⟩, ?_, ?_⟩
  · exact Nat.le_zero.mp (finrank_columnSpan_le [])
  · intro c hc
    exact ⟨0, Submodule.zero_mem _, by simpa using h c hc⟩

/-- A selection without tolerance spans all columns. -/
theorem columnSpan_eq (h : Selection 0 columns chosen) :
    columnSpan chosen = columnSpan columns := by
  refine h.columnSpan_le.antisymm (Submodule.span_le.mpr ?_)
  intro c hc
  obtain ⟨v, hv, hnear⟩ := h.near c hc
  have hzero : squares (c - v) = 0 :=
    (hnear.trans_eq (zero_pow two_ne_zero)).antisymm (squares_nonneg _)
  rwa [sub_eq_zero.mp (squares_eq_zero.mp hzero)]

end Selection

/-- A rearrangement of images is the image of a rearrangement. -/
theorem exists_perm_of_map_perm {α β : Type*} {f : α → β} {xs : List α} {ys : List β}
    (h : ys.Perm (xs.map f)) : ∃ zs : List α, zs.Perm xs ∧ zs.map f = ys := by
  have hmap : List.Forall₂ (fun y x => f x = y) (xs.map f) xs := by
    rw [List.forall₂_map_left_iff]
    exact List.forall₂_same.mpr fun _ _ => rfl
  obtain ⟨zs, hzs, hperm⟩ := List.perm_comp_forall₂ h hmap
  refine ⟨zs, hperm, ?_⟩
  clear hperm h hmap
  induction hzs with
  | nil => rfl
  | cons hy _ ih => rw [List.map_cons, hy, ih]

/-- A column longer than the tolerance joins the columns chosen among the projections of the
others. -/
theorem Selection.cons {tolerance : ℝ} {project : (Fin (n + 1) → ℝ) →ₗ[ℝ] (Fin n → ℝ)}
    {c : Fin (n + 1) → ℝ} {others chosen : List (Fin (n + 1) → ℝ)} (hdrop : DropsAlong project c)
    (hc : c ≠ 0) (h : Selection tolerance (others.map project) (chosen.map project))
    (hperm : ∃ dropped, (chosen ++ dropped).Perm others) :
    Selection tolerance (c :: others) (c :: chosen) := by
  have hmem : c ∈ columnSpan (c :: chosen) := Submodule.subset_span (by simp)
  constructor
  · obtain ⟨dropped, hperm⟩ := hperm
    exact ⟨dropped, hperm.cons c⟩
  · apply finrank_columnSpan_cons hdrop hc
    simpa using h.finrank_eq
  · intro x hx
    rcases List.mem_cons.mp hx with rfl | hx
    · refine ⟨x, hmem, ?_⟩
      rw [sub_self, squares_eq_zero.mpr rfl]
      exact sq_nonneg tolerance
    · obtain ⟨w, hw, hnear⟩ := h.near (project x) (List.mem_map_of_mem hx)
      rw [columnSpan_map] at hw
      obtain ⟨v, hv, rfl⟩ := hw
      obtain ⟨t, ht⟩ := hdrop.attained (x - v)
      have hv' : v ∈ columnSpan (c :: chosen) :=
        columnSpan_mono (fun u hu => List.mem_cons_of_mem c hu) hv
      refine ⟨v + t • c, Submodule.add_mem _ hv' (Submodule.smul_mem _ t hmem), ?_⟩
      rwa [← sub_sub, ht, map_sub]

/-- The response is its own residual where no column is chosen. -/
theorem isLeastDistance_nil (y : Fin n → ℝ) :
    IsLeastDistance (columnSpan []) y ((List.ofFn y).map (· ^ 2)).sum := by
  have horth : Orthogonal (y - 0) (columnSpan []) := by
    intro v hv
    have hzero : v = 0 := by simpa [columnSpan] using hv
    rw [hzero, dotProduct_zero]
  have hsum : ((List.ofFn y).map (· ^ 2)).sum = squares (y - 0) := by
    simp [squares, List.map_ofFn, List.sum_ofFn]
  rw [hsum]
  exact IsLeastDistance.of_orthogonal (Submodule.zero_mem _) horth

/-! ## The course of an elimination -/

section

variable {α : Type} [Scalar α]

/-- The course of an elimination: its mirrors, the length of the longest column left where it
stopped because of that length, and what is left of the response. -/
structure Run (α : Type) where
  mirrors : List (Mirror α)
  stop : Option α
  rest : List α

/-- The course that the elimination takes. -/
def run (tolerance : α) : ℕ → List (List α) → List α → Run α
  | 0, _, response => ⟨[], none, response⟩
  | steps + 1, columns, response =>
    let (size, position) := longest columns
    if size ≤ tolerance then ⟨[], some size, response⟩
    else
      let (pivot, others) := exchange position columns
      let mirror := Mirror.ofColumn size pivot
      let later := run tolerance steps (others.map mirror.image) (mirror.image response)
      { later with mirrors := mirror :: later.mirrors }

theorem eliminate_eq_run (tolerance : α) (steps : ℕ) (columns : List (List α))
    (response : List α) :
    eliminate tolerance steps columns response =
      ((run tolerance steps columns response).mirrors.length,
        (run tolerance steps columns response).rest) := by
  induction steps generalizing columns response with
  | zero => rfl
  | succ steps ih =>
      rw [eliminate, run]
      dsimp only
      by_cases h : (longest columns).1 ≤ tolerance
      · rw [if_pos h, if_pos h]
        rfl
      · rw [if_neg h, if_neg h, ih]
        rfl

/-- The course of the elimination in a fit. -/
def fitRun (matrix : ModelMatrix α) (response : List α) : Run α :=
  run (tolerance matrix.columns) (min matrix.rows matrix.columns.length) matrix.columns response

end

/-! ## The elimination as computed -/

theorem exchange_map {α : Type} {γ : Type*} (f : γ → List α) {columns : List γ} {i : ℕ}
    (h : i < columns.length) :
    ∃ others, exchange i (columns.map f) = (f columns[i], others.map f) ∧
      (columns[i] :: others).Perm columns := by
  cases columns with
  | nil => simp at h
  | cons first rest =>
      cases i with
      | zero => exact ⟨rest, rfl, List.Perm.refl _⟩
      | succ j =>
          have hj : j < rest.length := by simpa using h
          refine ⟨rest.set j first, ?_, ?_⟩
          · simp [exchange, List.map_set, hj]
          · simpa [hj] using rest.getD_set_perm_cons j first

theorem foldl_max_le {xs : List ℝ} {start bound : ℝ} (hstart : start ≤ bound)
    (h : ∀ x ∈ xs, x ≤ bound) : xs.foldl max start ≤ bound := by
  induction xs generalizing start with
  | nil => exact hstart
  | cons x xs ih =>
      have ⟨hx, hxs⟩ := List.forall_mem_cons.mp h
      exact ih (max_le hstart hx) hxs

theorem le_foldl_max (xs : List ℝ) (start : ℝ) :
    start ≤ xs.foldl max start ∧ ∀ x ∈ xs, x ≤ xs.foldl max start := by
  induction xs generalizing start with
  | nil => simp
  | cons x xs ih =>
      obtain ⟨hstart, hxs⟩ := ih (max start x)
      rw [List.foldl_cons]
      exact ⟨(le_max_left start x).trans hstart,
        List.forall_mem_cons.mpr ⟨(le_max_right start x).trans hstart, hxs⟩⟩

noncomputable def cutoff (columns : List (Fin n → ℝ)) : ℝ :=
  1e-9 * max ((columns.map fun c => √(squares c)).foldl max 0) 1

theorem le_cutoff (columns : List (Fin n → ℝ)) : 1e-9 ≤ cutoff columns := by
  have hone : (1 : ℝ) ≤ max ((columns.map fun c => √(squares c)).foldl max 0) 1 := le_max_right _ _
  unfold cutoff
  linarith

variable [Wording]

theorem tolerance_ofVector (columns : List (Fin n → ℝ)) :
    tolerance (columns.map ofVector) = real (cutoff columns) := by
  have hnorms : (columns.map ofVector).map length =
      (columns.map fun c => √(squares c)).map real := by
    simp [norm_ofVector]
  rw [tolerance, hnorms, zero_eq, foldl_maximum_real, one_eq, maximum_real]
  rfl

/-- What the search for the longest column keeps: the best so far is the first or a column seen. -/
theorem foldl_longest (columns : List (Fin n → ℝ)) (best : ℝ) (position start : ℕ) :
    ∃ size found, ((columns.map ofVector).zipIdx start).foldl
        (fun (best, position) (column, j) =>
          let size := length column
          if best < size then (size, j) else (best, position))
        (real best, position) = (real size, found) ∧
      best ≤ size ∧ (∀ c ∈ columns, √(squares c) ≤ size) ∧
      (size = best ∧ found = position ∨
        ∃ i, ∃ h : i < columns.length, found = start + i ∧ size = √(squares columns[i])) := by
  induction columns generalizing best position start with
  | nil => exact ⟨best, position, rfl, le_rfl, by simp, Or.inl ⟨rfl, rfl⟩⟩
  | cons c columns ih =>
      simp only [List.map_cons, List.zipIdx_cons, List.foldl_cons, norm_ofVector, real_lt]
      by_cases hlt : best < √(squares c)
      · rw [if_pos hlt]
        obtain ⟨size, found, hfold, hle, hall, hfound⟩ := ih (√(squares c)) start (start + 1)
        refine ⟨size, found, hfold, hlt.le.trans hle, List.forall_mem_cons.mpr ⟨hle, hall⟩,
          Or.inr ?_⟩
        rcases hfound with ⟨hsize, hat⟩ | ⟨i, hi, hat, hsize⟩
        · exact ⟨0, by simp, by omega, by simpa using hsize⟩
        · exact ⟨i + 1, by simpa using hi, by omega, by simpa using hsize⟩
      · rw [if_neg hlt]
        obtain ⟨size, found, hfold, hle, hall, hfound⟩ := ih best position (start + 1)
        have hhead : √(squares c) ≤ size := (le_of_not_gt hlt).trans hle
        refine ⟨size, found, hfold, hle, List.forall_mem_cons.mpr ⟨hhead, hall⟩, ?_⟩
        rcases hfound with hbest | ⟨i, hi, hat, hsize⟩
        · exact Or.inl hbest
        · exact Or.inr ⟨i + 1, by simpa using hi, by omega, by simpa using hsize⟩

/-- The search finds a longest column. -/
theorem longest_ofVector {columns : List (Fin n → ℝ)} (hne : columns ≠ []) :
    ∃ i, ∃ h : i < columns.length,
      longest (columns.map ofVector) = (real (√(squares columns[i])), i) ∧
      ∀ c ∈ columns, √(squares c) ≤ √(squares columns[i]) := by
  have hstart : (-1.0 : Exact) = real (-1) := by rw [one_eq, real_neg]
  obtain ⟨size, found, hfold, hle, hall, hfound⟩ := foldl_longest columns (-1) 0 0
  rcases hfound with ⟨hsize, -⟩ | ⟨i, hi, hat, hsize⟩
  · -- A length is never below zero, so the start does not last.
    obtain ⟨c, hc⟩ := List.exists_mem_of_ne_nil columns hne
    linarith [hall c hc, Real.sqrt_nonneg (squares c)]
  · rw [zero_add] at hat
    subst hat hsize
    exact ⟨found, hi, by rw [longest, hstart]; exact hfold, hall⟩

/-- One step: it stops where every column is within the tolerance, and else goes on with the
projections of the other columns along a longest one. -/
theorem run_succ_cases {cut : ℝ} (hcut : 1e-9 ≤ cut) {columns : List (Fin (n + 1) → ℝ)}
    (hne : columns ≠ []) (steps : ℕ) (y : Fin (n + 1) → ℝ) :
    (∃ size ≤ cut, 0 ≤ size ∧ (∀ c ∈ columns, squares c ≤ size ^ 2) ∧
        run (real cut) (steps + 1) (columns.map ofVector) (ofVector y) =
          ⟨[], some (real size), ofVector y⟩) ∨
      ∃ c others, ∃ mirror : Mirror Exact, (c :: others).Perm columns ∧ 0 < squares c ∧
        mirror.Reflects ∧
        run (real cut) (steps + 1) (columns.map ofVector) (ofVector y) =
          let later := run (real cut) steps ((others.map (fold c)).map ofVector)
            (ofVector (fold c y))
          { later with mirrors := mirror :: later.mirrors } := by
  obtain ⟨i, hi, hlongest, hall⟩ := longest_ofVector hne
  rw [run, hlongest]
  dsimp only
  by_cases hle : √(squares columns[i]) ≤ cut
  · refine Or.inl ⟨√(squares columns[i]), hle, Real.sqrt_nonneg _, ?_,
      if_pos ((real_le _ _).mpr hle)⟩
    intro c hc
    exact (Real.sqrt_le_left (Real.sqrt_nonneg _)).mp (hall c hc)
  · obtain ⟨others, hexchange, hperm⟩ := exchange_map ofVector hi
    have hroot : (1e-9 : ℝ) < √(squares columns[i]) := hcut.trans_lt (lt_of_not_ge hle)
    have hlong : (1e-9 : ℝ) ^ 2 < squares columns[i] := (Real.lt_sqrt (by norm_num)).mp hroot
    have hpos : 0 < squares columns[i] := lt_trans (by norm_num) hlong
    have hnormal : 2.2250738585072014e-308 < squares (normal columns[i]) := by
      linarith [smallestReflector_lt_squares, two_mul_squares_le columns[i]]
    have himages : (others.map ofVector).map
        (Mirror.ofColumn (real (√(squares columns[i]))) (ofVector columns[i])).image =
          (others.map (fold columns[i])).map ofVector := by
      simp [image_ofVector hnormal]
    refine Or.inr ⟨columns[i], others, _, hperm, hpos, reflects_ofColumn hnormal, ?_⟩
    rw [if_neg (mt (real_le _ _).mp hle), hexchange]
    dsimp only
    rw [himages, image_ofVector hnormal]

/-- What a course achieves: it chooses some of the columns and mirrors one away after another, and
what is left of the response has the least squared length that any combination of them leaves. No
other column is farther from their span than `left`, the length that the course stopped for. -/
structure Solves (columns : List (Fin n → ℝ)) (y : Fin n → ℝ) (course : Run Exact)
    (chosen : List (Fin n → ℝ)) (left : ℝ) (coordinates : List ℝ) : Prop where
  mirrors : course.mirrors.length = chosen.length
  reflects : ∀ mirror ∈ course.mirrors, mirror.Reflects
  stop : course.stop = some (real left) ∨ course.stop = none ∧ left = 0
  rest : course.rest = coordinates.map real
  selection : Selection left columns chosen
  least : IsLeastDistance (columnSpan chosen) y (coordinates.map (· ^ 2)).sum

/-- A course that chooses no column has the whole response left. -/
theorem Solves.nil {columns : List (Fin n → ℝ)} (y : Fin n → ℝ) {stop : Option Exact} {left : ℝ}
    (hstop : stop = some (real left) ∨ stop = none ∧ left = 0)
    (h : ∀ c ∈ columns, squares c ≤ left ^ 2) :
    Solves columns y ⟨[], stop, ofVector y⟩ [] left (List.ofFn y) where
  mirrors := rfl
  reflects _ hmem := absurd hmem List.not_mem_nil
  stop := hstop
  rest := ofVector_eq_map y
  selection := Selection.nil h
  least := isLeastDistance_nil y

/-- A column in front of a course on the projections of the others along it. -/
theorem Solves.cons {columns others : List (Fin (n + 1) → ℝ)} {c y : Fin (n + 1) → ℝ}
    {mirror : Mirror Exact} {later : Run Exact} {chosen : List (Fin n → ℝ)} {left : ℝ}
    {rest : List ℝ} (hperm : (c :: others).Perm columns) (hpos : 0 < squares c)
    (hmirror : mirror.Reflects)
    (h : Solves (others.map (fold c)) (fold c y) later chosen left rest) :
    ∃ kept, Solves columns y { later with mirrors := mirror :: later.mirrors } (c :: kept) left
      rest := by
  have hc : c ≠ 0 := fun hzero => hpos.ne' (squares_eq_zero.mpr hzero)
  have hdrop := dropsAlong_fold hpos
  -- The columns chosen among the projections are the projections of some of the others.
  obtain ⟨dropped, hchosen⟩ := h.selection.perm
  obtain ⟨all, hall, hmap⟩ := exists_perm_of_map_perm hchosen
  obtain ⟨kept, unused, rfl, rfl, -⟩ := List.map_eq_append_iff.mp hmap
  refine ⟨kept, ?_, List.forall_mem_cons.mpr ⟨hmirror, h.reflects⟩, h.stop, h.rest, ?_, ?_⟩
  · simpa using h.mirrors
  · exact (Selection.cons hdrop hc h.selection ⟨unused, hall⟩).of_perm hperm
  · have hleast := h.least
    rw [columnSpan_map] at hleast
    rw [columnSpan_cons]
    exact hdrop.isLeastDistance hleast

theorem run_spec {cut : ℝ} (hcut : 1e-9 ≤ cut) (steps : ℕ) :
    ∀ {n : ℕ} (columns : List (Fin n → ℝ)) (y : Fin n → ℝ), steps = min n columns.length →
      ∃ chosen left rest, 0 ≤ left ∧ left ≤ cut ∧
        Solves columns y (run (real cut) steps (columns.map ofVector) (ofVector y)) chosen left
          rest := by
  induction steps with
  | zero =>
      intro n columns y hsteps
      refine ⟨[], 0, List.ofFn y, le_rfl, by linarith, Solves.nil y (Or.inr ⟨rfl, rfl⟩) ?_⟩
      intro c hc
      have hlength := List.length_pos_of_mem hc
      have hn : n = 0 := by omega
      subst hn
      rw [squares, Fin.sum_univ_zero]
      exact sq_nonneg 0
  | succ steps ih =>
      intro n columns y hsteps
      obtain ⟨m, rfl⟩ : ∃ m, n = m + 1 := ⟨n - 1, by omega⟩
      have hne : columns ≠ [] := by
        rintro rfl
        simp at hsteps
      rcases run_succ_cases hcut hne steps y with
        ⟨size, hle, hsize, hshort, hstop⟩ | ⟨c, others, mirror, hperm, hpos, hmirror, hstep⟩
      · rw [hstop]
        exact ⟨[], size, List.ofFn y, hsize, hle, Solves.nil y (Or.inl rfl) hshort⟩
      · have hothers : steps = min m (others.map (fold c)).length := by
          have hlength := hperm.length_eq
          rw [List.length_cons] at hlength
          rw [List.length_map]
          omega
        obtain ⟨chosen, left, rest, hnonneg, hle, hsolves⟩ :=
          ih (others.map (fold c)) (fold c y) hothers
        obtain ⟨kept, hkept⟩ := hsolves.cons hperm hpos hmirror
        rw [hstep]
        exact ⟨c :: kept, left, rest, hnonneg, hle, hkept⟩

/-- Every fit of a response of as many values as there are rows succeeds. It reports as many columns
as its course chose, and the least squared distance from their span. -/
theorem fit_run_spec (hn : 0 < n) (columns : List (Fin n → ℝ)) (y : Fin n → ℝ) :
    ∃ chosen left rest, 0 ≤ left ∧ left ≤ cutoff columns ∧
      fit ⟨n, columns.map ofVector⟩ (ofVector y) =
        .ok ⟨real (rest.map (· ^ 2)).sum, chosen.length, n⟩ ∧
      Solves columns y (fitRun ⟨n, columns.map ofVector⟩ (ofVector y)) chosen left rest := by
  have hrun : fitRun ⟨n, columns.map ofVector⟩ (ofVector y) =
      run (real (cutoff columns)) (min n columns.length) (columns.map ofVector) (ofVector y) := by
    simp only [fitRun, tolerance_ofVector, List.length_map]
  obtain ⟨chosen, left, rest, hnonneg, hle, hsolves⟩ :=
    run_spec (le_cutoff columns) (min n columns.length) columns y rfl
  rw [← hrun] at hsolves
  refine ⟨chosen, left, rest, hnonneg, hle, ?_, hsolves⟩
  have hresidual : squaredLength (rest.map real) = real (rest.map (· ^ 2)).sum := by
    have hsquares : (rest.map real).map Scalar.square = (rest.map (· ^ 2)).map real := by
      simp
    rw [squaredLength, hsquares, total_real]
  have heliminate := eliminate_eq_run (tolerance (columns.map ofVector))
    (min n (columns.map ofVector).length) (columns.map ofVector) (ofVector y)
  change _ = ((fitRun ⟨n, columns.map ofVector⟩ (ofVector y)).mirrors.length,
    (fitRun ⟨n, columns.map ofVector⟩ (ofVector y)).rest) at heliminate
  rw [hsolves.mirrors, hsolves.rest] at heliminate
  rw [fit, if_neg hn.ne', if_neg (by simp)]
  simp only [heliminate, hresidual, isFinite_real, if_true]

theorem fit_spec (hn : 0 < n) (columns : List (Fin n → ℝ)) (y : Fin n → ℝ) :
    ∃ (chosen : List (Fin n → ℝ)) (residual : ℝ),
      fit ⟨n, columns.map ofVector⟩ (ofVector y) =
        .ok { residual := real residual, rank := chosen.length, observations := n } ∧
      Selection (cutoff columns) columns chosen ∧
      IsLeastDistance (columnSpan chosen) y residual := by
  obtain ⟨chosen, left, rest, hnonneg, hle, hfit, hsolves⟩ := fit_run_spec hn columns y
  exact ⟨chosen, _, hfit, hsolves.selection.mono hnonneg hle, hsolves.least⟩

end Significance.LeastSquares
