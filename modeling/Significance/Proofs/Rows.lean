import Mathlib.MeasureTheory.Integral.IntervalIntegral.Basic
import Significance.Proofs.Decomposition

/-! # Rows of a decomposition

The row of each term in terms of distances, and the cases in which every row exists. -/

namespace Significance

open Success Exact

section

variable {α : Type} [Scalar α] {d : Distribution α} {term : Term} {residual : Residual α}
  {row : Effect α}

namespace Variance

theorem test_eq_ok {sumSquares : α} {df : ℕ} (h : test d term sumSquares df residual = .ok row) :
    row.term = term ∧ row.sumSquares = sumSquares ∧ row.df = df := by
  unfold test at h
  split at h
  · injection h with h
    subst h
    exact ⟨rfl, rfl, rfl⟩
  · dsimp only at h
    split at h
    · injection h with h
      subst h
      exact ⟨rfl, rfl, rfl⟩
    · exact absurd h (by simp)

theorem test_f {sumSquares : α} {df : ℕ} (hdf : df ≠ 0) (hresidual : residual.df ≠ 0)
    (h : test d term sumSquares df residual = .ok row) : row.f = ratio sumSquares df residual := by
  rw [test, if_neg (not_or.mpr ⟨hdf, hresidual⟩)] at h
  dsimp only at h
  split at h
  · cases h
    rfl
  · cases h

theorem test_p {sumSquares : α} {df : ℕ} (hdf : df ≠ 0) (hresidual : residual.df ≠ 0)
    (h : test d term sumSquares df residual = .ok row) :
    d.fisherAbove? row.f (Scalar.ofNat df) (Scalar.ofNat residual.df) = some row.p := by
  rw [test, if_neg (not_or.mpr ⟨hdf, hresidual⟩)] at h
  dsimp only at h
  split at h
  · next p hp =>
    cases h
    exact hp
  · cases h

theorem effect_term {design : Design} {terms : List Term} {response : List α}
    (h : effect d design terms response residual term = .ok row) : row.term = term := by
  simp only [effect, bind_eq_ok] at h
  obtain ⟨_, -, _, -, htest⟩ := h
  exact (test_eq_ok htest).1

end Variance

end

section

variable [Exact.Wording]

/-- The tail of every `F` statistic with positive degrees of freedom exists. -/
def Distribution.HasTails (d : Distribution Exact) : Prop :=
  ∀ (f : Exact) (m n : ℕ), 0 < m → 0 < n →
    (d.fisherAbove? f (Scalar.ofNat m) (Scalar.ofNat n)).isSome

namespace Variance

variable {d : Distribution Exact} {data : Dataset Exact} {target : String} {factors : List String}

theorem exists_test (htails : d.HasTails) (term : Term) (sumSquares : Exact) (df : ℕ)
    (residual : Residual Exact) : ∃ row, test d term sumSquares df residual = .ok row := by
  unfold test
  by_cases hdf : df = 0 ∨ residual.df = 0
  · exact ⟨_, if_pos hdf⟩
  · rw [if_neg hdf]
    obtain ⟨p, hp⟩ := Option.isSome_iff_exists.mp
      (htails (ratio sumSquares df residual) df residual.df (by omega) (by omega))
    simp only [hp]
    exact ⟨_, rfl⟩

/-- With all tails every row exists. -/
theorem exists_effects (htails : d.HasTails) (h : Crossed data factors)
    (hkeep : KeepsIndependent data factors) (y : Fin data.size → ℝ) (residual : Residual Exact) :
    ∃ effects, (Term.all factors).mapM
      (effect d (design data factors) (Term.all factors) (ofVector y) residual) = .ok effects := by
  apply exists_mapM_eq_ok
  intro term hterm
  obtain ⟨r₀, hr₀⟩ := exists_isLeastDistance (avoiding data.level? factors.toFinset term.support) y
  obtain ⟨r₁, hr₁⟩ := exists_isLeastDistance
    (avoiding data.level? factors.toFinset term.support ⊔ dependingOn data.level? term.support) y
  rw [effect_eq h hkeep hterm hr₀ hr₁]
  exact exists_test htails term _ _ _

theorem exists_multiWay (htails : d.HasTails) (hreals : data.HasReals target)
    (h : Crossed data factors) (hkeep : KeepsIndependent data factors)
    (hdf : data.size - ∏ name ∈ factors.toFinset, data.levelCount name ≠ 0) :
    ∃ table, multiWay d data target factors = .ok table := by
  obtain ⟨left, hleft⟩ :=
    exists_isLeastDistance (dependingOn data.level? factors.toFinset) (data.reals target)
  obtain ⟨effects, heffects⟩ := exists_effects htails h hkeep (data.reals target) _
  exact ⟨_, (multiWay_eq_ok_of_keeps hkeep hleft).mpr ⟨hreals, h, hdf, effects, heffects, rfl⟩⟩

/-- What a row says of its term. -/
structure IsRow (data : Dataset Exact) (target : String) (factors : List String)
    (row : Effect Exact) (r₀ r₁ : ℝ) : Prop where
  term_mem : row.term ∈ Term.all factors
  sumSquares_eq : row.sumSquares = real (r₀ - r₁)
  df_eq : row.df = ∏ name ∈ row.term.support, (data.levelCount name - 1)
  reduced : IsLeastDistance (avoiding data.level? factors.toFinset row.term.support)
    (data.reals target) r₀
  augmented : IsLeastDistance (avoiding data.level? factors.toFinset row.term.support ⊔
    dependingOn data.level? row.term.support) (data.reals target) r₁

theorem exists_isRow_of_effect (h : Crossed data factors) (hkeep : KeepsIndependent data factors)
    {term : Term} (hterm : term ∈ Term.all factors) {residual : Residual Exact} {row : Effect Exact}
    (hrow : effect d (design data factors) (Term.all factors) (ofVector (data.reals target))
      residual term = .ok row) :
    row.term = term ∧ ∃ r₀ r₁, IsRow data target factors row r₀ r₁ := by
  obtain ⟨r₀, hr₀⟩ := exists_isLeastDistance
    (avoiding data.level? factors.toFinset term.support) (data.reals target)
  obtain ⟨r₁, hr₁⟩ := exists_isLeastDistance
    (avoiding data.level? factors.toFinset term.support ⊔ dependingOn data.level? term.support)
    (data.reals target)
  rw [effect_eq h hkeep hterm hr₀ hr₁] at hrow
  obtain ⟨rfl, hsum, hdf⟩ := test_eq_ok hrow
  exact ⟨rfl, r₀, r₁, hterm, hsum, hdf, hr₀, hr₁⟩

theorem exists_isRow (hkeep : KeepsIndependent data factors) {table : VarianceTable Exact}
    (htable : multiWay d data target factors = .ok table) {row : Effect Exact}
    (hrow : row ∈ table.effects) : ∃ r₀ r₁, IsRow data target factors row r₀ r₁ := by
  obtain ⟨-, hcrossed, full, -, -, effects, heffects, rfl⟩ := multiWay_eq_ok.mp htable
  obtain ⟨term, hterm, heffect⟩ := exists_of_mem_mapM heffects hrow
  exact (exists_isRow_of_effect hcrossed hkeep hterm heffect).2

theorem exists_row_of_term {table : VarianceTable Exact}
    (htable : multiWay d data target factors = .ok table) {term : Term}
    (hterm : term ∈ Term.all factors) : ∃ row ∈ table.effects, row.term = term := by
  obtain ⟨-, -, full, -, -, effects, heffects, rfl⟩ := multiWay_eq_ok.mp htable
  obtain ⟨row, heffect, hfind⟩ :=
    find?_of_mapM heffects (fun _ _ => effect_term) hterm
  exact ⟨row, List.mem_of_find?_eq_some hfind, effect_term heffect⟩

/-! ## Balanced data -/

/-- Every combination of levels occurs where records can be put together: whatever record each factor
takes its label from, some record has all these labels. -/
theorem complete_iff {names : Finset String} (hpos : 0 < data.size)
    (hlevels : ∀ name ∈ names, data.HasLevels name) :
    Complete data.size data.grouping names ↔
      ∀ own : String → Fin data.size,
        ∃ i, ∀ name ∈ names, data.level? i name = data.level? (own name) name := by
  constructor
  · intro hcomplete own
    obtain ⟨i, hi⟩ := hcomplete (fun name => (data.grouping name).code (own name))
      fun name _ => (data.coded_grouping name).code_lt (own name)
    exact ⟨i, fun name hname => (hlevels name hname).code_eq_iff.mp (hi name hname)⟩
  · intro hrecords a ha
    have hexists : ∀ name : String, ∃ i : Fin data.size, name ∈ names →
        (data.grouping name).code i = a name := by
      intro name
      by_cases hname : name ∈ names
      · obtain ⟨i, hi⟩ := (data.coded_grouping name).exists_code (a name) (ha name hname)
        exact ⟨i, fun _ => hi⟩
      · exact ⟨⟨0, hpos⟩, fun hmem => absurd hmem hname⟩
    choose own hown using hexists
    obtain ⟨i, hi⟩ := hrecords own
    refine ⟨i, ?_⟩
    intro name hname
    rw [← hown name hname]
    exact (hlevels name hname).code_eq_iff.mpr (hi name hname)

/-- Where every combination of labels is that of equally many records, the factors are crossed. -/
theorem Crossed.of_balanced (hne : factors ≠ []) (hnodup : factors.Nodup)
    (hlength : factors.length ≤ Term.maxFactors) (hlevels : ∀ name ∈ factors, data.HasLevels name)
    (htwo : ∀ name ∈ factors, 2 ≤ data.levelCount name) {size : ℕ} (hsize : 0 < size)
    (hbalanced : Balanced data.level? factors.toFinset size) : Crossed data factors := by
  obtain ⟨other, hother⟩ := List.exists_mem_of_ne_nil factors hne
  have hpos := Dataset.size_pos_of_levelCount (Nat.zero_lt_of_lt (htwo other hother))
  refine ⟨hne, hnodup, hlength, hlevels, htwo, ?_⟩
  rw [complete_iff hpos fun name hname => hlevels name (List.mem_toFinset.mp hname)]
  intro own
  have hcard := hbalanced (fun name => data.level? (own name) name) fun name _ => ⟨own name, rfl⟩
  rw [← hcard] at hsize
  obtain ⟨i, hi⟩ := Finset.card_pos.mp hsize
  exact ⟨i, (Finset.mem_filter.mp hi).2⟩

end Variance

end

/-! ## A balanced sample -/

namespace Distribution

/-- The probability that an `F` variable exceeds a real number, by the incomplete beta integral. -/
noncomputable def fisherTail (f m n : ℝ) : ℝ :=
  if f ≤ 0 then 1
  else
    (∫ t in (m * f / (m * f + n))..1, t ^ (m / (2 : ℕ) - 1) * (1 - t) ^ (n / (2 : ℕ) - 1)) /
      ∫ t in (0 : ℝ)..1, t ^ (m / (2 : ℕ) - 1) * (1 - t) ^ (n / (2 : ℕ) - 1)

/-- Exact tails of the `F` distribution; the functions for other tests are left undefined. -/
noncomputable def exactFisher : Distribution Exact where
  fisherAbove?
    | real f, real m, real n => some (real (fisherTail f m n))
    | infinity, real _, real _ => some (real 0)
    | _, _, _ => some undefined
  studentWithin _ _ := undefined
  rangeBelow _ _ _ := undefined
  rangeQuantile _ _ _ := undefined

end Distribution

namespace Sample

open Variance

/-- What the column `z` adds to the column `y`, from the level of `b`. -/
def shift (b : String) : ℤ :=
  if b = "u" then 1 else -3

theorem pairwise_names : ["a", "b", "y", "z"].Pairwise (· < ·) := by
  decide

def record (a b : String) (y : ℤ) : Record (Value Exact) :=
  ⟨[("a", .text a), ("b", .text b), ("y", .number (real y)), ("z", .number (real (y + shift b)))],
    List.pairwise_map.mp pairwise_names⟩

/-- Two factors of two levels, with two records for each combination. -/
def data : Dataset Exact :=
  ⟨[record "s" "u" 1, record "s" "u" 2, record "s" "v" 4, record "s" "v" 7, record "t" "u" 3,
    record "t" "u" 5, record "t" "v" 6, record "t" "v" 9]⟩

theorem exists_record (i : Fin data.size) : ∃ a b y, data.record i = record a b y := by
  change Fin 8 at i
  fin_cases i <;> exact ⟨_, _, _, rfl⟩

theorem level_a (i : Fin 8) :
    data.level? (i : Fin data.size) "a" = if i.val < 4 then some "s" else some "t" := by
  fin_cases i <;> rfl

theorem level_b (i : Fin 8) :
    data.level? (i : Fin data.size) "b" = if i.val % 4 < 2 then some "u" else some "v" := by
  fin_cases i <;> rfl

theorem hasLevels : ∀ name ∈ ["a", "b"], data.HasLevels name := by
  intro name hname i
  obtain ⟨a, b, y, hrecord⟩ := exists_record i
  rw [Dataset.level?, hrecord]
  rcases List.mem_pair.mp hname with rfl | rfl
  · rfl
  · rfl

theorem hasReals : ∀ name ∈ ["y", "z"], data.HasReals name := by
  intro name hname i
  obtain ⟨a, b, y, hrecord⟩ := exists_record i
  rw [hrecord]
  rcases List.mem_pair.mp hname with rfl | rfl
  · exact ⟨y, rfl⟩
  · exact ⟨y + shift b, rfl⟩

/-- The columns differ by a function of the levels of `b`. -/
theorem reals_sub_mem : data.reals "z" - data.reals "y" ∈ dependingOn data.level? {"b"} := by
  have hshift : ∀ i, (data.reals "z" - data.reals "y") i = shift ((data.level? i "b").getD "") := by
    intro i
    obtain ⟨a, b, y, hrecord⟩ := exists_record i
    rw [Pi.sub_apply, Dataset.reals, Dataset.reals, Dataset.level?, hrecord]
    exact add_sub_cancel_left (y : ℝ) (shift b)
  intro i j hij
  rw [hshift, hshift, hij "b" (Finset.mem_singleton_self "b")]

theorem levelCount : ∀ name ∈ ["a", "b"], data.levelCount name = 2 := by
  have ha : (Finset.univ.image fun i : Fin 8 => data.level? (i : Fin data.size) "a") =
      {some "s", some "t"} := by
    simp only [level_a]
    decide
  have hb : (Finset.univ.image fun i : Fin 8 => data.level? (i : Fin data.size) "b") =
      {some "u", some "v"} := by
    simp only [level_b]
    decide
  intro name hname
  rcases List.mem_pair.mp hname with rfl | rfl
  · exact congrArg Finset.card ha
  · exact congrArg Finset.card hb

theorem balanced : Balanced data.level? ["a", "b"].toFinset 2 := by
  intro c hc
  obtain ⟨i, hi⟩ := hc "a" (by simp)
  obtain ⟨j, hj⟩ := hc "b" (by simp)
  have hcard : ∀ i j : Fin 8, (Finset.univ.filter fun l : Fin 8 =>
      (if l.val < 4 then some "s" else some "t") = (if i.val < 4 then some "s" else some "t") ∧
      (if l.val % 4 < 2 then some "u" else some "v") =
        if j.val % 4 < 2 then some "u" else some "v").card = 2 := by
    decide
  have hiff : ∀ l : Fin data.size, (∀ k ∈ ["a", "b"].toFinset, data.level? l k = c k) ↔
      (if l.val < 4 then some "s" else some "t") = (if i.val < 4 then some "s" else some "t") ∧
      (if l.val % 4 < 2 then some "u" else some "v") =
        if j.val % 4 < 2 then some "u" else some "v" := by
    intro l
    rw [← level_a l, ← level_a i, ← level_b l, ← level_b j, hi, hj]
    simp
  simp only [hiff]
  exact hcard i j

theorem crossed : Crossed data ["a", "b"] :=
  Crossed.of_balanced (by simp) (by decide) (by decide) hasLevels
    (fun name hname => (levelCount name hname).ge) two_pos balanced

theorem keeps : KeepsIndependent data ["a", "b"] :=
  keepsIndependent (by decide) ["a", "b"]

theorem hasTails : Distribution.exactFisher.HasTails :=
  fun f _ _ _ _ => by cases f <;> rfl

theorem exists_table :
    ∃ table, multiWay Distribution.exactFisher data "y" ["a", "b"] = .ok table := by
  apply exists_multiWay hasTails (hasReals "y" (by simp)) crossed keeps
  have hcells : ∏ name ∈ ["a", "b"].toFinset, data.levelCount name = 2 * 2 := by
    rw [List.prod_toFinset _ (by decide), List.map_congr_left levelCount]
    rfl
  rw [hcells]
  decide

end Sample

end Significance
