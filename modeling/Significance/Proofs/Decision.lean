import Mathlib.Order.Interval.Set.Defs
import Mathlib.Order.Monotone.Basic
import Significance.Proofs.LevelPairs

/-! # Decisions, probabilities and intervals

A comparison is rejected by the probability of its difference, and its interval is as wide as the
quantile says. Where the quantile inverts the distribution both decide the same. A smaller level
rejects no more, a larger difference is not more probable, and other names of the levels only turn
comparisons around. -/

namespace Significance

open Success Exact Significance.Descriptive Text Factor

namespace Distribution

/-- The probabilities of the range grow strictly on the positive numbers and stay below one, and
the quantile is their inverse. -/
structure Inverts [Wording] (d : Distribution Exact) (k df : ℕ) (below : ℝ → ℝ) : Prop where
  rangeBelow_eq : ∀ q, 0 ≤ q →
    d.rangeBelow (real q) (Scalar.ofNat k) (Scalar.ofNat df) = real (below q)
  strictMonoOn : StrictMonoOn below (Set.Ici 0)
  mapsTo : Set.MapsTo below (Set.Ici 0) (Set.Ico 0 1)
  exists_quantile : ∀ p, 0 < p → p < 1 → ∃ q, 0 ≤ q ∧
    d.rangeQuantile (real p) (Scalar.ofNat k) (Scalar.ofNat df) = real q ∧ below q = p

/-- The quantile inverts the distribution, whatever is compared. -/
def Invertible [Wording] (d : Distribution Exact) : Prop :=
  ∀ k df : ℕ, 2 ≤ k → 2 ≤ df → ∃ below, d.Inverts k df below

end Distribution

/-- A level that has values, with a real mean. -/
def LevelSummary.IsReal (summary : LevelSummary Exact) : Prop :=
  summary.size ≠ 0 ∧ ∃ m, summary.mean = real m

namespace TukeyTest

/-- A difference is beyond the margin exactly if zero is outside of the interval around it. -/
theorem lt_abs_iff_notMem {x margin : ℝ} :
    margin < |x| ↔ (0 : ℝ) ∉ Set.Icc (x - margin) (x + margin) := by
  rw [lt_abs, Set.mem_Icc, not_and_or, not_le, not_le]
  constructor
  · rintro (hpos | hneg)
    · exact Or.inl (by linarith)
    · exact Or.inr (by linarith)
  · rintro (hlower | hupper)
    · exact Or.inl (by linarith)
    · exact Or.inr (by linarith)

variable [Wording] {d : Distribution Exact} {k df : ℕ} {below : ℝ → ℝ}

/-- The probability of a difference is what the distribution leaves above it. -/
theorem clamp_below (hd : d.Inverts k df below) {s : ℝ} (hs : 0 ≤ s) :
    Scalar.clamp 0.0 1.0 (1.0 - d.rangeBelow (real s) (Scalar.ofNat k) (Scalar.ofNat df)) =
      real (1 - below s) := by
  obtain ⟨hnonneg, hlt⟩ := hd.mapsTo hs
  have hlow : ¬real (1 - below s) < real 0 := by
    rw [real_lt]
    linarith
  have hhigh : ¬real 1 < real (1 - below s) := by
    rw [real_lt]
    linarith
  rw [hd.rangeBelow_eq s hs, zero_eq, one_eq, real_sub, Scalar.clamp, if_neg hlow, if_neg hhigh]

/-! ## One comparison -/

/-- The decision is that of the probability and that of the interval. -/
structure Consistent (alpha : Exact) (c : PairComparison Exact) : Prop where
  reject_iff_p : c.reject = true ↔ c.p < alpha
  reject_iff_interval : ∃ l u : ℝ, c.lower = real l ∧ c.upper = real u ∧
    (c.reject = true ↔ (0 : ℝ) ∉ Set.Icc l u)

section

variable {alpha : Exact} {v q m n : ℝ} {x y : LevelSummary Exact}

/-- A comparison by the probabilities of the range. -/
theorem compare_eq (hd : d.Inverts k df below) (hv : 0 < v) (hx : x.size ≠ 0) (hy : y.size ≠ 0)
    (hm : x.mean = real m) (hn : y.mean = real n) :
    compare d alpha k (real v) df (real q) x y =
      let error := deviation v x.size y.size
      let p := real (1 - below (|n - m| / error))
      { first := x.level, second := y.level, difference := real (n - m), p
        lower := real (n - m - q * error), upper := real (n - m + q * error)
        reject := p < alpha } := by
  have hs : 0 ≤ |n - m| / deviation v x.size y.size :=
    div_nonneg (abs_nonneg _) (deviation_pos hv hx).le
  simp only [compare_real hv hx hy hm hn, clamp_below hd hs]

theorem consistent_compare (hd : d.Inverts k df below) (hv : 0 < v) (hx : x.IsReal) (hy : y.IsReal)
    {a : ℝ} (hq : 0 ≤ q) (hbelow : below q = 1 - a) :
    Consistent (real a) (compare d (real a) k (real v) df (real q) x y) := by
  obtain ⟨hsize, m, hm⟩ := hx
  obtain ⟨hsize', n, hn⟩ := hy
  have herror : 0 < deviation v x.size y.size := deviation_pos hv hsize
  have hs : 0 ≤ |n - m| / deviation v x.size y.size := div_nonneg (abs_nonneg _) herror.le
  rw [compare_eq hd hv hsize hsize' hm hn]
  refine ⟨decide_eq_true_iff, _, _, rfl, rfl, ?_⟩
  calc
    decide (real (1 - below (|n - m| / deviation v x.size y.size)) < real a) = true
        ↔ below q < below (|n - m| / deviation v x.size y.size) := by
      rw [decide_eq_true_iff, real_lt, hbelow, sub_lt_comm]
    _ ↔ q < |n - m| / deviation v x.size y.size := hd.strictMonoOn.lt_iff_lt hq hs
    _ ↔ q * deviation v x.size y.size < |n - m| := lt_div_iff₀ herror
    _ ↔ _ := lt_abs_iff_notMem

/-- With the same error, a larger difference has no larger probability. -/
theorem p_le_of_difference_le (hd : d.Inverts k df below) (hv : 0 < v) (hx : x.IsReal)
    (hy : y.IsReal) {x' y' : LevelSummary Exact} (hx' : x'.IsReal) (hy' : y'.IsReal)
    (herror : deviation v x.size y.size = deviation v x'.size y'.size)
    (hle : Scalar.abs (compare d alpha k (real v) df (real q) x y).difference ≤
      Scalar.abs (compare d alpha k (real v) df (real q) x' y').difference) :
    (compare d alpha k (real v) df (real q) x' y').p ≤
      (compare d alpha k (real v) df (real q) x y).p := by
  obtain ⟨hsize, m, hm⟩ := hx
  obtain ⟨hsize', n, hn⟩ := hy
  obtain ⟨hother, m', hm'⟩ := hx'
  obtain ⟨hother', n', hn'⟩ := hy'
  have hpos : 0 < deviation v x.size y.size := deviation_pos hv hsize
  rw [compare_eq hd hv hsize hsize' hm hn, compare_eq hd hv hother hother' hm' hn'] at hle ⊢
  have habs : |n - m| ≤ |n' - m'| := hle
  have hratio : |n - m| / deviation v x.size y.size ≤ |n' - m'| / deviation v x'.size y'.size := by
    rw [← herror]
    exact div_le_div_of_nonneg_right habs hpos.le
  have hs : 0 ≤ |n - m| / deviation v x.size y.size := div_nonneg (abs_nonneg _) hpos.le
  have hmono := hd.strictMonoOn.monotoneOn hs (hs.trans hratio) hratio
  rw [real_le]
  linarith

end

/-! ## All comparisons of a factor -/

/-- The test of a factor against a critical value. -/
noncomputable def against (d : Distribution Exact) (factor : Factor) (ys : List Exact)
    (alpha critical : Exact) : TukeyTest Exact where
  factor := factor.name
  alpha := alpha
  levels := factor.levels
  sizes := (summaries factor ys).map LevelSummary.size
  means := (summaries factor ys).map LevelSummary.mean
  variance := (pooledVariance (factor.groups ys)).1
  df := (pooledVariance (factor.groups ys)).2
  critical := critical
  comparisons := (pairs (summaries factor ys)).map fun pair =>
    compare d alpha factor.levels.length (pooledVariance (factor.groups ys)).1
      (pooledVariance (factor.groups ys)).2 critical pair.1 pair.2

/-- What the values of a factor without fault are compared by, at a level below one. -/
structure Settled (d : Distribution Exact) (factor : Factor) (ys : List Exact)
    (below : ℝ → ℝ) (a v q : ℝ) : Prop where
  inverts : d.Inverts factor.levels.length (pooledVariance (factor.groups ys)).2 below
  variance_eq : (pooledVariance (factor.groups ys)).1 = real v
  variance_pos : 0 < v
  isReal : ∀ summary ∈ summaries factor ys, summary.IsReal
  critical_nonneg : 0 ≤ q
  below_eq : below q = 1 - a
  run_eq : run d factor ys (real a) = .ok (against d factor ys (real a) (real q))

variable {factor : Factor} {values : List ℝ} {alpha : Exact} {test : TukeyTest Exact}

theorem exists_settled (hd : d.Invertible) (h : fault? factor (values.map real) alpha = none) :
    ∃ below a v q, alpha = real a ∧ Settled d factor (values.map real) below a v q := by
  have hfault := h
  obtain ⟨-, ⟨hpos, hlt⟩, hk, hgroups, hdf, hvariance, hfinite⟩ := fault?_eq_none.mp h
  obtain ⟨a, rfl, hpos, hlt⟩ := eq_real_of_lt hpos hlt
  obtain ⟨v, hv⟩ := isFinite_iff.mp hfinite
  obtain ⟨below, hbelow⟩ := hd _ _ hk hdf
  obtain ⟨q, hq, hquantile, hinverse⟩ := hbelow.exists_quantile (1 - a) (by linarith) (by linarith)
  rw [hv, zero_eq, real_lt] at hvariance
  rw [Factor.groups_map, List.forall_mem_map] at hgroups
  simp only [List.length_map] at hgroups
  refine ⟨below, a, v, q, rfl, hbelow, hv, hvariance, fun _ => exists_mean hgroups, hq, hinverse,
    ?_⟩
  have hcritical : d.rangeQuantile (1.0 - real a) (Scalar.ofNat factor.levels.length)
      (Scalar.ofNat (pooledVariance (factor.groups (values.map real))).2) = real q := by
    rwa [one_eq, real_sub]
  rw [TukeyTest.run_eq, hfault]
  simp only [complete, hcritical, isFinite_real, Bool.not_true, Bool.false_eq_true, if_false]
  rfl

theorem settled_of_run (hd : d.Invertible)
    (hrun : run d factor (values.map real) alpha = .ok test) :
    ∃ below a v q, alpha = real a ∧ Settled d factor (values.map real) below a v q ∧
      test = against d factor (values.map real) (real a) (real q) := by
  obtain ⟨below, a, v, q, rfl, h⟩ := exists_settled hd (eq_of_run_eq_ok hrun).1
  exact ⟨below, a, v, q, rfl, h, Except.ok.inj (hrun.symm.trans h.run_eq)⟩

/-- A comparison at a smaller level has the same probability and rejects no more. -/
structure Stricter (c c' : PairComparison Exact) : Prop where
  first_eq : c'.first = c.first
  second_eq : c'.second = c.second
  p_eq : c'.p = c.p
  reject_of_reject : c'.reject = true → c.reject = true

theorem lt_of_lt_real {x : Exact} {a a' : ℝ} (h : x < real a') (hle : a' ≤ a) : x < real a := by
  cases x with
  | real x => exact lt_of_lt_of_le (α := ℝ) h hle
  | infinity => exact h
  | negInfinity => exact h
  | undefined => exact h

theorem stricter_of_le {ys : List Exact} {a a' q q' : ℝ} (hle : a' ≤ a) :
    List.Forall₂ Stricter (against d factor ys (real a) (real q)).comparisons
      (against d factor ys (real a') (real q')).comparisons := by
  rw [against, against, List.forall₂_map_left_iff, List.forall₂_map_right_iff, List.forall₂_same]
  intro pair _
  refine ⟨rfl, rfl, rfl, ?_⟩
  intro hreject
  have hlt := of_decide_eq_true hreject
  exact decide_eq_true (lt_of_lt_real hlt hle)

theorem eq_real_of_le {a : ℝ} (hpos : 0.0 < alpha) (hle : alpha ≤ real a) :
    ∃ a' : ℝ, alpha = real a' ∧ a' ≤ a := by
  rw [zero_eq] at hpos
  cases alpha with
  | real a' => exact ⟨a', rfl, hle⟩
  | infinity => exact hle.elim
  | negInfinity => exact hpos.elim
  | undefined => exact hpos.elim

namespace Settled

variable {ys : List Exact} {a v q : ℝ}

theorem isReal_of_mem_pairs (h : Settled d factor ys below a v q)
    {pair : LevelSummary Exact × LevelSummary Exact} (hpair : pair ∈ pairs (summaries factor ys)) :
    pair.1.IsReal ∧ pair.2.IsReal :=
  ⟨h.isReal _ (mem_of_mem_pairs hpair).1, h.isReal _ (mem_of_mem_pairs hpair).2⟩

theorem consistent (h : Settled d factor ys below a v q) {c : PairComparison Exact}
    (hc : c ∈ (against d factor ys (real a) (real q)).comparisons) : Consistent (real a) c := by
  rw [against, List.mem_map] at hc
  obtain ⟨pair, hpair, rfl⟩ := hc
  obtain ⟨hx, hy⟩ := h.isReal_of_mem_pairs hpair
  rw [h.variance_eq]
  exact consistent_compare h.inverts h.variance_pos hx hy h.critical_nonneg h.below_eq

/-- The sizes of the compared levels stand in the order of the comparisons. -/
theorem mem_zip (h : Settled d factor ys below a v q) {sized : (ℕ × ℕ) × PairComparison Exact}
    (hsized : sized ∈ (pairs (against d factor ys (real a) (real q)).sizes).zip
      (against d factor ys (real a) (real q)).comparisons) :
    ∃ x y, (x.IsReal ∧ y.IsReal) ∧ sized = ((x.size, y.size), compare d (real a)
      factor.levels.length (real v) (pooledVariance (factor.groups ys)).2 (real q) x y) := by
  rw [against, pairs_map, List.zip_map', List.mem_map] at hsized
  obtain ⟨pair, hpair, rfl⟩ := hsized
  rw [h.variance_eq]
  exact ⟨pair.1, pair.2, h.isReal_of_mem_pairs hpair, rfl⟩

end Settled

end TukeyTest

/-! ## Other names of the levels -/

/-- The comparison of two levels under other names. It is turned around where the names change
their order. -/
noncomputable def PairComparison.rename [Wording] (f : String → String) (c : PairComparison Exact) :
    PairComparison Exact :=
  if f c.first < f c.second then { c with first := f c.first, second := f c.second }
  else
    { c with
      first := f c.second, second := f c.first, difference := -c.difference, lower := -c.upper
      upper := -c.lower }

namespace TukeyTest

def ordered (a b : String) : String × String :=
  if a < b then (a, b) else (b, a)

theorem eq_or_swap_of_ordered_eq {a b a' b' : String} (h : ordered a b = ordered a' b') :
    (a = a' ∧ b = b') ∨ (a = b' ∧ b = a') := by
  rw [ordered, ordered] at h
  split at h
  · split at h
    · exact Or.inl (Prod.mk.inj h)
    · exact Or.inr (Prod.mk.inj h)
  · split at h
    · exact Or.inr (Prod.mk.inj h).symm
    · exact Or.inl (Prod.mk.inj h).symm

section

variable {labels : List String} {values : List ℝ} {f : String → String}
  (hf : ∀ a ∈ labels, ∀ b ∈ labels, f a = f b → a = b)

include hf

/-- Levels that stay apart are the levels under their new names. -/
theorem sortedDistinct_map_perm :
    (sortedDistinct (labels.map f)).Perm ((sortedDistinct labels).map f) := by
  have hnodup : ((sortedDistinct labels).map f).Nodup := by
    apply List.Nodup.map_on _ (nodup_sortedDistinct labels)
    intro a ha b hb
    exact hf a (mem_sortedDistinct.mp ha) b (mem_sortedDistinct.mp hb)
  rw [List.perm_ext_iff_of_nodup (nodup_sortedDistinct _) hnodup]
  intro label
  simp only [mem_sortedDistinct, List.mem_map]

theorem length_sortedDistinct_map :
    (sortedDistinct (labels.map f)).length = (sortedDistinct labels).length := by
  rw [(sortedDistinct_map_perm hf).length_eq, List.length_map]

theorem count_rename {a : String} (ha : a ∈ labels) :
    (labels.map f).count (f a) = labels.count a := by
  rw [List.count, List.countP_map, List.count]
  apply List.countP_congr
  intro b hb
  simp only [Function.comp_apply, beq_iff_eq]
  exact ⟨hf b hb a ha, congrArg f⟩

theorem freedomOf_rename : freedomOf (labels.map f) = freedomOf labels := by
  rw [freedomOf, freedomOf, length_sortedDistinct_map hf, List.length_map]

theorem pooled_rename : pooled (labels.map f) values = pooled labels values := by
  have hvalues : ((sortedDistinct labels).map f).map
        (fun level => spread (valuesOf (labels.map f) values level)) =
      (sortedDistinct labels).map fun level => spread (valuesOf labels values level) := by
    rw [List.map_map]
    apply List.map_congr_left
    intro level hlevel
    rw [Function.comp_apply, valuesOf_rename hf (mem_sortedDistinct.mp hlevel)]
  rw [pooled, pooled, freedomOf_rename hf, ((sortedDistinct_map_perm hf).map _).sum_eq, hvalues]

end

section

variable [Wording] {d : Distribution Exact} {name : String} {labels : List String}
  {values : List ℝ} {alpha : Exact} {q : ℝ} {f : String → String}

theorem comparisonOf_swap (a b : String) :
    comparisonOf d labels values alpha q b a =
      { comparisonOf d labels values alpha q a b with
        first := b, second := a
        difference := -(comparisonOf d labels values alpha q a b).difference
        lower := -(comparisonOf d labels values alpha q a b).upper
        upper := -(comparisonOf d labels values alpha q a b).lower } := by
  have herror : errorOf labels values b a = errorOf labels values a b := by
    rw [errorOf, errorOf, deviation, deviation, add_comm]
  have hdifference : differenceOf labels values b a = -differenceOf labels values a b :=
    (neg_sub _ _).symm
  simp only [comparisonOf, herror, hdifference, abs_neg, real_neg, neg_add, neg_sub]
  congr 2
  ring

variable (hf : ∀ a ∈ labels, ∀ b ∈ labels, f a = f b → a = b)

include hf

theorem comparisonOf_rename {a b : String} (ha : a ∈ labels) (hb : b ∈ labels) :
    comparisonOf d (labels.map f) values alpha q (f a) (f b) =
      { comparisonOf d labels values alpha q a b with first := f a, second := f b } := by
  have hdifference : differenceOf (labels.map f) values (f a) (f b) =
      differenceOf labels values a b := by
    rw [differenceOf, differenceOf, meanOf, meanOf, meanOf, meanOf, valuesOf_rename hf ha,
      valuesOf_rename hf hb]
  have herror : errorOf (labels.map f) values (f a) (f b) = errorOf labels values a b := by
    rw [errorOf, errorOf, pooled_rename hf, count_rename hf ha, count_rename hf hb]
  simp only [comparisonOf, hdifference, herror, length_sortedDistinct_map hf, freedomOf_rename hf]

theorem testable_rename (h : Testable labels values alpha) :
    Testable (labels.map f) values alpha := by
  obtain ⟨a, ha, b, hb, hne⟩ := h.different
  obtain ⟨label, v, w, hv, hw, hvaries⟩ := h.varied
  constructor
  · rw [h.length_eq, List.length_map]
  · exact h.pos
  · exact h.lt_one
  · exact ⟨f a, List.mem_map_of_mem ha, f b, List.mem_map_of_mem hb,
      fun heq => hne (hf a ha b hb heq)⟩
  · rw [List.forall_mem_map]
    intro label hlabel
    rw [count_rename hf hlabel]
    exact h.repeated label hlabel
  · rw [List.zip_map_left]
    exact ⟨f label, v, w, List.mem_map.mpr ⟨_, hv, rfl⟩, List.mem_map.mpr ⟨_, hw, rfl⟩, hvaries⟩

omit [Wording] in
/-- The pairs of the new levels are those of the old ones, each in its new order. -/
theorem pairs_rename_perm :
    (pairs (sortedDistinct (labels.map f))).Perm
      ((pairs (sortedDistinct labels)).map fun pair => ordered (f pair.1) (f pair.2)) := by
  have hnodup : ((pairs (sortedDistinct labels)).map fun pair =>
      ordered (f pair.1) (f pair.2)).Nodup := by
    apply List.Nodup.map_on _ (nodup_pairs (pairwise_sortedDistinct labels))
    intro pair hpair other hother heq
    obtain ⟨ha, hb, hlt⟩ := mem_pairs_sortedDistinct.mp hpair
    obtain ⟨ha', hb', hlt'⟩ := mem_pairs_sortedDistinct.mp hother
    rcases eq_or_swap_of_ordered_eq heq with ⟨hfirst, hsecond⟩ | ⟨hfirst, hsecond⟩
    · exact Prod.ext (hf _ ha _ ha' hfirst) (hf _ hb _ hb' hsecond)
    · rw [hf _ ha _ hb' hfirst, hf _ hb _ ha' hsecond] at hlt
      exact absurd hlt hlt'.asymm
  rw [List.perm_ext_iff_of_nodup (nodup_pairs (pairwise_sortedDistinct _)) hnodup]
  rintro ⟨first, second⟩
  constructor
  · intro hpair
    obtain ⟨hfirst, hsecond, hlt⟩ := mem_pairs_sortedDistinct.mp hpair
    obtain ⟨a, ha, rfl⟩ := List.mem_map.mp hfirst
    obtain ⟨b, hb, rfl⟩ := List.mem_map.mp hsecond
    rcases lt_trichotomy a b with hab | rfl | hab
    · exact List.mem_map.mpr ⟨(a, b), mem_pairs_sortedDistinct.mpr ⟨ha, hb, hab⟩, if_pos hlt⟩
    · exact absurd hlt (lt_irrefl _)
    · exact List.mem_map.mpr
        ⟨(b, a), mem_pairs_sortedDistinct.mpr ⟨hb, ha, hab⟩, if_neg hlt.asymm⟩
  · intro hpair
    obtain ⟨old, hold, heq⟩ := List.mem_map.mp hpair
    rw [← heq, mem_pairs_sortedDistinct]
    obtain ⟨ha, hb, hlt⟩ := mem_pairs_sortedDistinct.mp hold
    have hne : f old.1 ≠ f old.2 := fun heq => hlt.ne (hf _ ha _ hb heq)
    by_cases hnew : f old.1 < f old.2
    · rw [ordered, if_pos hnew]
      exact ⟨List.mem_map_of_mem ha, List.mem_map_of_mem hb, hnew⟩
    · rw [ordered, if_neg hnew]
      exact ⟨List.mem_map_of_mem hb, List.mem_map_of_mem ha,
        lt_of_le_of_ne (not_lt.mp hnew) hne.symm⟩

/-- Under other names the comparisons are the same but for their order and their direction. -/
theorem comparisons_rename_perm :
    (testOf d name (labels.map f) values alpha q).comparisons.Perm
      ((testOf d name labels values alpha q).comparisons.map (PairComparison.rename f)) := by
  have hrename : ∀ pair ∈ pairs (sortedDistinct labels),
      comparisonOf d (labels.map f) values alpha q (ordered (f pair.1) (f pair.2)).1
          (ordered (f pair.1) (f pair.2)).2 =
        (comparisonOf d labels values alpha q pair.1 pair.2).rename f := by
    intro pair hpair
    obtain ⟨ha, hb⟩ := mem_of_mem_pairs hpair
    rw [mem_sortedDistinct] at ha hb
    by_cases hlt : f pair.1 < f pair.2
    · rw [ordered, if_pos hlt, comparisonOf_rename hf ha hb, PairComparison.rename]
      exact (if_pos hlt).symm
    · rw [ordered, if_neg hlt, comparisonOf_rename hf hb ha, comparisonOf_swap pair.1 pair.2,
        PairComparison.rename]
      exact (if_neg hlt).symm
  have hperm := (pairs_rename_perm hf).map fun pair =>
    comparisonOf d (labels.map f) values alpha q pair.1 pair.2
  rw [List.map_map] at hperm
  refine hperm.trans (List.Perm.of_eq ?_)
  rw [testOf, List.map_map]
  exact List.map_congr_left hrename

theorem isCritical_rename (hq : IsCritical d labels alpha q) :
    IsCritical d (labels.map f) alpha q := by
  rwa [IsCritical, length_sortedDistinct_map hf, freedomOf_rename hf]

end

variable [Wording] {d : Distribution Exact} {factor : Factor} {values : List ℝ} {alpha : Exact}
  {test : TukeyTest Exact}

/-- Probabilities, decisions and intervals agree, at every level and under other names. -/
theorem run_decides (hd : d.Invertible) (hrun : run d factor (values.map real) alpha = .ok test) :
    (∀ c ∈ test.comparisons, Consistent alpha c) ∧
      (∀ alpha', 0.0 < alpha' → alpha' ≤ alpha → ∃ test',
        run d factor (values.map real) alpha' = .ok test' ∧
        List.Forall₂ Stricter test.comparisons test'.comparisons) ∧
      ((test.comparisons.map fun c => (c.first, c.second)) = pairs test.levels ∧
        test.sizes.length = test.levels.length ∧
        ∀ x ∈ (pairs test.sizes).zip test.comparisons,
          ∀ y ∈ (pairs test.sizes).zip test.comparisons,
            (1 / x.1.1 + 1 / x.1.2 : ℝ) = 1 / y.1.1 + 1 / y.1.2 →
            Scalar.abs x.2.difference ≤ Scalar.abs y.2.difference → y.2.p ≤ x.2.p) ∧
      ∀ labels, factor = ofLabels factor.name labels →
        ∀ f : String → String, (∀ a ∈ labels, ∀ b ∈ labels, f a = f b → a = b) → ∃ test',
          run d (ofLabels factor.name (labels.map f)) (values.map real) alpha = .ok test' ∧
          test'.comparisons.Perm (test.comparisons.map (PairComparison.rename f)) := by
  have hfault := (eq_of_run_eq_ok hrun).1
  obtain ⟨below, a, v, q, rfl, h, htest⟩ := settled_of_run hd hrun
  refine ⟨?_, ?_, ⟨?_, ?_, ?_⟩, ?_⟩
  · intro c hc
    rw [htest] at hc
    exact h.consistent hc
  · intro alpha' hpos hle
    obtain ⟨a', rfl, hle⟩ := eq_real_of_le hpos hle
    have hlt : real a' < 1.0 := by
      have hlt := (fault?_eq_none.mp hfault).2.1.2
      rw [one_eq, real_lt] at hlt ⊢
      linarith
    obtain ⟨_, _, _, _, hlevel, h'⟩ :=
      exists_settled hd (fault?_eq_none_of_level hfault hpos hlt)
    obtain rfl := real_injective hlevel
    rw [htest]
    exact ⟨_, h'.run_eq, stricter_of_le hle⟩
  · rw [htest, against, List.map_map, ← map_level_summaries factor (values.map real), pairs_map]
    rfl
  · rw [htest, against, ← map_level_summaries factor (values.map real), List.length_map,
      List.length_map]
  · rw [htest]
    intro x hx y hy hsizes hle
    obtain ⟨b, c, ⟨hb, hc⟩, rfl⟩ := h.mem_zip hx
    obtain ⟨b', c', ⟨hb', hc'⟩, rfl⟩ := h.mem_zip hy
    have herror : deviation v b.size c.size = deviation v b'.size c'.size :=
      congrArg (fun sizes => √(v / (2 : ℕ) * sizes)) hsizes
    exact p_le_of_difference_le h.inverts h.variance_pos hb hc hb' hc' herror hle
  · intro labels hfactor f hf
    rw [hfactor] at hrun
    obtain ⟨htestable, q, hq, rfl⟩ := run_eq_ok_iff.mp hrun
    exact ⟨_, run_eq_testOf (testable_rename hf htestable) (isCritical_rename hf hq),
      comparisons_rename_perm hf⟩

end TukeyTest

/-! ## Two groups of two records -/

namespace Distribution

noncomputable def pairBelow (q : ℝ) : ℝ :=
  q / √((4 : ℕ) + q ^ 2)

theorem pairBelow_eq_sqrt {q : ℝ} (hq : 0 ≤ q) : pairBelow q = √(q ^ 2 / (4 + q ^ 2)) := by
  rw [Real.sqrt_div (sq_nonneg q), Real.sqrt_sq hq]
  rfl

theorem strictMonoOn_pairBelow : StrictMonoOn pairBelow (Set.Ici 0) := by
  intro x hx y hy hlt
  have hx' : (0 : ℝ) ≤ x := hx
  have hsquare : x ^ 2 < y ^ 2 := pow_lt_pow_left₀ hlt hx two_ne_zero
  rw [pairBelow_eq_sqrt hx, pairBelow_eq_sqrt hy]
  apply Real.sqrt_lt_sqrt (by positivity)
  rw [div_lt_div_iff₀ (by positivity) (by positivity)]
  linarith

theorem pairBelow_mem {q : ℝ} (hq : 0 ≤ q) : pairBelow q ∈ Set.Ico (0 : ℝ) 1 := by
  have hlt : q < √(4 + q ^ 2) := Real.lt_sqrt_of_sq_lt (by linarith)
  exact ⟨div_nonneg hq (Real.sqrt_nonneg _), (div_lt_one (hq.trans_lt hlt)).mpr hlt⟩

theorem pairBelow_quantile {p : ℝ} (hpos : 0 < p) (hlt : p < 1) :
    pairBelow (2 * p / √(1 - p ^ 2)) = p := by
  have hrest : 0 < 1 - p ^ 2 := by nlinarith
  have hquantile : 0 ≤ 2 * p / √(1 - p ^ 2) := by positivity
  have hsquare : (2 * p / √(1 - p ^ 2)) ^ 2 / (4 + (2 * p / √(1 - p ^ 2)) ^ 2) = p ^ 2 := by
    rw [div_pow, Real.sq_sqrt hrest.le]
    field_simp
    ring
  rw [pairBelow_eq_sqrt hquantile, hsquare, Real.sqrt_sq hpos.le]

open Sample in
theorem invertible_pairTails : pairTails.Invertible := by
  intro k df _ _
  refine ⟨pairBelow, fun _ _ => rfl, strictMonoOn_pairBelow, fun _ => pairBelow_mem, ?_⟩
  intro p hpos hlt
  exact ⟨_, by positivity, rfl, pairBelow_quantile hpos hlt⟩

end Distribution

open Sample in
theorem TukeyTest.run_decides_apart : ∃ test test' : TukeyTest Exact,
    run Distribution.pairTails (ofLabels "a" ["s", "s", "t", "t"]) ([0, 1, 100, 101].map real)
        (real 0.05) = .ok test ∧
      (∀ c ∈ test.comparisons, Consistent (real 0.05) c) ∧
      run Distribution.pairTails (ofLabels "a" ["t", "t", "s", "s"]) ([0, 1, 100, 101].map real)
        (real 0.05) = .ok test' ∧
      test'.comparisons.Perm (test.comparisons.map (PairComparison.rename fun label =>
        if label = "s" then "t" else "s")) := by
  have hcritical : IsCritical Distribution.pairTails ["s", "s", "t", "t"] (real 0.05)
      ((2 : ℕ) * (1 - 0.05) / √(1 - (1 - 0.05) ^ 2)) := by
    rw [IsCritical, one_eq, real_sub]
    rfl
  have hrun : run Distribution.pairTails (ofLabels "a" ["s", "s", "t", "t"])
      ([0, 1, 100, 101].map real) (real 0.05) = .ok _ := run_eq_testOf testable_apart hcritical
  obtain ⟨hconsistent, -, -, hnames⟩ := run_decides Distribution.invertible_pairTails hrun
  obtain ⟨test', hrun', hperm⟩ := hnames ["s", "s", "t", "t"] rfl
    (fun label => if label = "s" then "t" else "s") (by decide)
  exact ⟨_, test', hrun, hconsistent, hrun', hperm⟩

end Significance
