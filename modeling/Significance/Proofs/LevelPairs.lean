import Mathlib.Data.Nat.Choose.Basic
import Mathlib.Data.Prod.Lex
import Mathlib.Data.String.Basic
import Significance.Proofs.SharedVariance

/-! # Pairs of levels

A test of labelled values exists exactly for repeated labels whose values vary. It compares every
two of the labels once, each comparison in the order of the labels and all of them in the order of
their first and then their second label. -/

namespace Significance

open Success Exact Significance.Descriptive Text Factor

namespace TukeyTest

/-! ## Pairs of an increasing list -/

section

variable {β : Type} [Preorder β] {xs : List β}

theorem mem_pairs (h : xs.Pairwise (· < ·)) {a b : β} :
    (a, b) ∈ pairs xs ↔ a ∈ xs ∧ b ∈ xs ∧ a < b := by
  induction xs with
  | nil => simp [pairs]
  | cons x xs ih =>
      obtain ⟨hhead, htail⟩ := List.pairwise_cons.mp h
      rw [pairs, List.mem_append, ih htail, List.mem_cons, List.mem_cons]
      constructor
      · rintro (hfirst | ⟨ha, hb, hlt⟩)
        · obtain ⟨y, hy, heq⟩ := List.mem_map.mp hfirst
          obtain ⟨rfl, rfl⟩ := Prod.mk.inj heq
          exact ⟨Or.inl rfl, Or.inr hy, hhead y hy⟩
        · exact ⟨Or.inr ha, Or.inr hb, hlt⟩
      · rintro ⟨rfl | ha, rfl | hb, hlt⟩
        · exact absurd hlt (lt_irrefl _)
        · exact Or.inl (List.mem_map_of_mem hb)
        · exact absurd hlt (hhead a ha).not_gt
        · exact Or.inr ⟨ha, hb, hlt⟩

/-- Pairs stand in the order of their first and then of their second members. -/
theorem pairwise_pairs (h : xs.Pairwise (· < ·)) :
    (pairs xs).Pairwise (Prod.Lex (· < ·) (· < ·)) := by
  induction xs with
  | nil => exact List.Pairwise.nil
  | cons x xs ih =>
      obtain ⟨hhead, htail⟩ := List.pairwise_cons.mp h
      rw [pairs, List.pairwise_append, List.pairwise_map]
      refine ⟨htail.imp fun hlt => Prod.Lex.right x hlt, ih htail, ?_⟩
      rintro first hfirst ⟨a, b⟩ hlater
      obtain ⟨y, -, rfl⟩ := List.mem_map.mp hfirst
      exact Prod.Lex.left _ _ (hhead a ((mem_pairs htail).mp hlater).1)

theorem nodup_pairs (h : xs.Pairwise (· < ·)) : (pairs xs).Nodup := by
  apply (pairwise_pairs h).imp
  rintro ⟨a, b⟩ other hlt rfl
  rcases hlt with ⟨_, _, hlt⟩ | ⟨_, hlt⟩
  · exact lt_irrefl a hlt
  · exact lt_irrefl b hlt

end

theorem mem_pairs_range {k i j : ℕ} : (i, j) ∈ pairs (List.range k) ↔ i < j ∧ j < k := by
  rw [mem_pairs List.pairwise_lt_range, List.mem_range, List.mem_range]
  omega

theorem length_pairs {β : Type} (xs : List β) : (pairs xs).length = xs.length.choose 2 := by
  induction xs with
  | nil => rfl
  | cons x xs ih =>
      rw [pairs, List.length_append, List.length_map, ih, List.length_cons, Nat.choose_succ_succ,
        Nat.choose_one_right]

/-- The pairs of a list are its members at the pairs of its positions. -/
theorem pairs_eq_map {β : Type} [Inhabited β] (xs : List β) :
    pairs xs = (pairs (List.range xs.length)).map fun place => (xs[place.1]!, xs[place.2]!) := by
  have hxs : xs = (List.range xs.length).map fun i => xs[i]! := by
    apply List.ext_getElem
    · simp
    · intro i hi hi'
      simp [hi]
  conv_lhs => rw [hxs, pairs_map]
  rfl

/-! ## Labelled values -/

section

variable (labels : List String) (values : List ℝ)

/-- The degrees of freedom that the labels leave. -/
def freedomOf : ℕ :=
  labels.length - (sortedDistinct labels).length

/-- The variance of the values within the labels. -/
noncomputable def pooled : ℝ :=
  ((sortedDistinct labels).map fun level => spread (valuesOf labels values level)).sum /
    freedomOf labels

noncomputable def meanOf (level : String) : ℝ :=
  average (valuesOf labels values level)

/-- The standard error of the difference of the means of two labels. -/
noncomputable def errorOf (a b : String) : ℝ :=
  deviation (pooled labels values) (labels.count a) (labels.count b)

theorem nodup_sortedDistinct : (sortedDistinct labels).Nodup :=
  nodup_levels "" labels

theorem mem_pairs_sortedDistinct {labels : List String} {pair : String × String} :
    pair ∈ pairs (sortedDistinct labels) ↔
      pair.1 ∈ labels ∧ pair.2 ∈ labels ∧ pair.1 < pair.2 := by
  obtain ⟨a, b⟩ := pair
  rw [mem_pairs (pairwise_sortedDistinct labels), mem_sortedDistinct, mem_sortedDistinct]

theorem sum_count : ((sortedDistinct labels).map labels.count).sum = labels.length := by
  have hperm : (sortedDistinct labels).Perm labels.dedup := by
    rw [List.perm_ext_iff_of_nodup (nodup_sortedDistinct labels) labels.nodup_dedup]
    intro label
    rw [mem_sortedDistinct, List.mem_dedup]
  rw [(hperm.map _).sum_eq, List.sum_map_count_dedup_eq_length]

variable {labels values}

/-- Labels that are repeated leave as many degrees of freedom as there are labels. -/
theorem two_mul_length_le (h : ∀ label ∈ labels, 2 ≤ labels.count label) :
    2 * (sortedDistinct labels).length ≤ labels.length := by
  have hle : ∀ count ∈ (sortedDistinct labels).map labels.count, 2 ≤ count := by
    rw [List.forall_mem_map]
    exact fun level hlevel => h level (mem_sortedDistinct.mp hlevel)
  have hsum := List.card_nsmul_le_sum _ 2 hle
  rw [sum_count, List.length_map, smul_eq_mul] at hsum
  omega

theorem two_le_length_iff :
    2 ≤ (sortedDistinct labels).length ↔ ∃ a ∈ labels, ∃ b ∈ labels, a ≠ b := by
  have hmem : (∃ a ∈ labels, ∃ b ∈ labels, a ≠ b) ↔
      ∃ a ∈ sortedDistinct labels, ∃ b ∈ sortedDistinct labels, a ≠ b := by
    simp only [mem_sortedDistinct]
  have hnodup := nodup_sortedDistinct labels
  rw [hmem]
  generalize sortedDistinct labels = levels at hnodup
  match levels with
  | [] => simp
  | [level] => simp
  | first :: second :: rest =>
      have hne : first ≠ second := fun heq =>
        (List.nodup_cons.mp hnodup).1 (heq ▸ List.mem_cons_self)
      exact iff_of_true (by simp) ⟨first, by simp, second, by simp, hne⟩

theorem length_flatten_groups (name : String) (h : values.length = labels.length) :
    ((ofLabels name labels).groups values).flatten.length = labels.length := by
  have hlengths : (sortedDistinct labels).map (List.length ∘ valuesOf labels values) =
      (sortedDistinct labels).map labels.count :=
    List.map_congr_left fun level _ => length_valuesOf h level
  rw [List.length_flatten, groups_ofLabels, List.map_map]
  exact (congrArg List.sum hlengths).trans (sum_count labels)

/-- Values vary within the labels exactly if two records of one label differ in them. -/
theorem pooled_pos_iff (hlt : (sortedDistinct labels).length < labels.length) :
    0 < pooled labels values ↔
      ∃ label v w, (label, v) ∈ labels.zip values ∧ (label, w) ∈ labels.zip values ∧ v ≠ w := by
  have hdf : 0 < (freedomOf labels : ℝ) := by
    rw [Nat.cast_pos, freedomOf]
    omega
  have hnonneg : ∀ s ∈ (sortedDistinct labels).map fun level =>
      spread (valuesOf labels values level), 0 ≤ s := by
    rw [List.forall_mem_map]
    exact fun level _ => spread_nonneg _
  rw [pooled, div_pos_iff_of_pos_right hdf]
  constructor
  · intro hpos
    by_contra hnone
    have hzero : ∀ s ∈ (sortedDistinct labels).map fun level =>
        spread (valuesOf labels values level), s = 0 := by
      rw [List.forall_mem_map]
      intro level _
      refine le_antisymm (not_lt.mp ?_) (spread_nonneg _)
      intro hlevel
      obtain ⟨v, hv, w, hw, hne⟩ := spread_pos_iff.mp hlevel
      exact hnone ⟨level, v, w, mem_valuesOf.mp hv, mem_valuesOf.mp hw, hne⟩
    rw [List.sum_eq_zero hzero] at hpos
    exact lt_irrefl 0 hpos
  · rintro ⟨label, v, w, hv, hw, hne⟩
    have hlevel : 0 < spread (valuesOf labels values label) :=
      spread_pos_iff.mpr ⟨v, mem_valuesOf.mpr hv, w, mem_valuesOf.mpr hw, hne⟩
    have hmem : label ∈ sortedDistinct labels := mem_sortedDistinct.mpr (List.of_mem_zip hv).1
    exact hlevel.trans_le (List.single_le_sum hnonneg _ (List.mem_map_of_mem hmem))

theorem valuesOf_ne_nil (h : values.length = labels.length) {level : String}
    (hlevel : level ∈ labels) : valuesOf labels values level ≠ [] := by
  apply List.ne_nil_of_length_pos
  rw [length_valuesOf h]
  exact List.count_pos_iff.mpr hlevel

end

variable [Wording] {d : Distribution Exact} {name : String} {labels : List String}
  {values : List ℝ} {alpha : Exact}

theorem pooledVariance_ofLabels (h : values.length = labels.length)
    (hlt : (sortedDistinct labels).length < labels.length) :
    pooledVariance ((ofLabels name labels).groups (values.map real)) =
      (real (pooled labels values), freedomOf labels) := by
  have hcount : ((ofLabels name labels).groups values).length = (sortedDistinct labels).length :=
    length_groups values
  have hspread : ((ofLabels name labels).groups values).map spread =
      (sortedDistinct labels).map fun level => spread (valuesOf labels values level) := by
    rw [groups_ofLabels, List.map_map]
    rfl
  rw [groups_map, pooledVariance_real, length_flatten_groups name h, hcount,
    if_neg (not_le.mpr hlt),
    hspread, pooled, freedomOf]

theorem summaries_ofLabels (h : values.length = labels.length) :
    summaries (ofLabels name labels) (values.map real) =
      (sortedDistinct labels).map fun level =>
        ⟨level, labels.count level, real (meanOf labels values level)⟩ := by
  rw [summaries_real, groups_ofLabels, ← List.map_prod_left_eq_zip, List.map_map]
  apply List.map_congr_left
  intro level hlevel
  have hne := valuesOf_ne_nil h (mem_sortedDistinct.mp hlevel)
  rw [Function.comp_apply, mean_real hne, length_valuesOf h]
  rfl

/-! ## When a test exists -/

/-- There is something to compare: some labels, each of them repeated, and values that are not the
same for all records of a label. -/
structure Testable (labels : List String) (values : List ℝ) (alpha : Exact) : Prop where
  length_eq : values.length = labels.length
  pos : 0.0 < alpha
  lt_one : alpha < 1.0
  different : ∃ a ∈ labels, ∃ b ∈ labels, a ≠ b
  repeated : ∀ label ∈ labels, 2 ≤ labels.count label
  varied : ∃ label v w, (label, v) ∈ labels.zip values ∧ (label, w) ∈ labels.zip values ∧ v ≠ w

namespace Testable

theorem two_le (h : Testable labels values alpha) : 2 ≤ (sortedDistinct labels).length :=
  two_le_length_iff.mpr h.different

theorem length_lt (h : Testable labels values alpha) :
    (sortedDistinct labels).length < labels.length := by
  have htwo := h.two_le
  have hle := two_mul_length_le h.repeated
  omega

theorem two_le_freedomOf (h : Testable labels values alpha) : 2 ≤ freedomOf labels := by
  have htwo := h.two_le
  have hle := two_mul_length_le h.repeated
  rw [freedomOf]
  omega

theorem pooled_pos (h : Testable labels values alpha) : 0 < pooled labels values :=
  (pooled_pos_iff h.length_lt).mpr h.varied

end Testable

omit [Wording] in
theorem repeated_iff (h : values.length = labels.length) :
    (∀ group ∈ (ofLabels name labels).groups (values.map real), 2 ≤ group.length) ↔
      ∀ label ∈ labels, 2 ≤ labels.count label := by
  rw [groups_map, groups_ofLabels, List.forall_mem_map, List.forall_mem_map]
  simp only [List.length_map, length_valuesOf h]
  exact forall_congr' fun label => imp_congr_left mem_sortedDistinct

/-- The checks find no fault exactly in what can be tested. -/
theorem fault?_eq_none_iff :
    fault? (ofLabels name labels) (values.map real) alpha = none ↔
      Testable labels values alpha := by
  have hsize : (ofLabels name labels).size = labels.length := by
    simp [Factor.size, ofLabels]
  rw [fault?_eq_none, List.length_map, hsize]
  constructor
  · rintro ⟨hlength, ⟨hpos, hlt⟩, hlevels, hgroups, -, hvariance, -⟩
    have hrepeated := (repeated_iff hlength).mp hgroups
    have htwo : 2 ≤ (sortedDistinct labels).length := hlevels
    have hle := two_mul_length_le hrepeated
    have hfree : (sortedDistinct labels).length < labels.length := by omega
    rw [pooledVariance_ofLabels hlength hfree, zero_eq, real_lt, pooled_pos_iff hfree] at hvariance
    exact ⟨hlength, hpos, hlt, two_le_length_iff.mp htwo, hrepeated, hvariance⟩
  · intro h
    rw [pooledVariance_ofLabels h.length_eq h.length_lt, zero_eq, real_lt, ← zero_eq]
    exact ⟨h.length_eq, ⟨h.pos, h.lt_one⟩, h.two_le, (repeated_iff h.length_eq).mpr h.repeated,
      h.two_le_freedomOf, h.pooled_pos, isFinite_real _⟩

/-- Repeated labels leave enough degrees of freedom, so that check never fails. -/
theorem fault?_ne_residualDf (df : ℕ) :
    fault? (ofLabels name labels) (values.map real) alpha ≠ some (.residualDf df) := by
  intro hfault
  obtain ⟨hlength, hlevels, hgroups, hdf⟩ := of_fault?_eq_residualDf hfault
  have hsize : values.length = labels.length := by simpa [Factor.size, ofLabels] using hlength
  have hle := two_mul_length_le ((repeated_iff hsize).mp hgroups)
  have htwo : 2 ≤ (sortedDistinct labels).length := hlevels
  rw [pooledVariance_ofLabels hsize (by omega), freedomOf] at hdf
  omega

/-! ## The test of labelled values -/

section

variable (d name labels values alpha)

noncomputable def differenceOf (a b : String) : ℝ :=
  meanOf labels values b - meanOf labels values a

/-- The comparison of two labels against a critical value. -/
noncomputable def comparisonOf (q : ℝ) (a b : String) : PairComparison Exact :=
  let error := errorOf labels values a b
  let difference := differenceOf labels values a b
  let below := d.rangeBelow (real (|difference| / error))
    (Scalar.ofNat (sortedDistinct labels).length) (Scalar.ofNat (freedomOf labels))
  let p := Scalar.clamp 0.0 1.0 (1.0 - below)
  { first := a, second := b, difference := real difference, p
    lower := real (difference - q * error), upper := real (difference + q * error)
    reject := p < alpha }

noncomputable def testOf (q : ℝ) : TukeyTest Exact where
  factor := name
  alpha := alpha
  levels := sortedDistinct labels
  sizes := (sortedDistinct labels).map labels.count
  means := (sortedDistinct labels).map fun level => real (meanOf labels values level)
  variance := real (pooled labels values)
  df := freedomOf labels
  critical := real q
  comparisons := (pairs (sortedDistinct labels)).map fun (a, b) =>
    comparisonOf d labels values alpha q a b

/-- The critical value of the range for the labels. -/
def IsCritical (q : ℝ) : Prop :=
  d.rangeQuantile (1.0 - alpha) (Scalar.ofNat (sortedDistinct labels).length)
    (Scalar.ofNat (freedomOf labels)) = real q

end

variable {q : ℝ} {test : TukeyTest Exact}

theorem compare_eq_comparisonOf (h : Testable labels values alpha) {a b : String} (ha : a ∈ labels)
    (hb : b ∈ labels) :
    compare d alpha (sortedDistinct labels).length (real (pooled labels values)) (freedomOf labels)
        (real q) ⟨a, labels.count a, real (meanOf labels values a)⟩
        ⟨b, labels.count b, real (meanOf labels values b)⟩ =
      comparisonOf d labels values alpha q a b := by
  have hcount : ∀ label ∈ labels, labels.count label ≠ 0 := fun label hlabel =>
    (List.count_pos_iff.mpr hlabel).ne'
  exact compare_real h.pooled_pos (hcount a ha) (hcount b hb) rfl rfl

theorem run_eq_testOf (h : Testable labels values alpha) (hq : IsCritical d labels alpha q) :
    run d (ofLabels name labels) (values.map real) alpha =
      .ok (testOf d name labels values alpha q) := by
  have hlevels : (ofLabels name labels).levels = sortedDistinct labels := rfl
  have hcomparisons : ((pairs (sortedDistinct labels)).map fun pair =>
      compare d alpha (sortedDistinct labels).length (real (pooled labels values))
        (freedomOf labels) (real q)
        ⟨pair.1, labels.count pair.1, real (meanOf labels values pair.1)⟩
        ⟨pair.2, labels.count pair.2, real (meanOf labels values pair.2)⟩) =
      (pairs (sortedDistinct labels)).map fun pair =>
        comparisonOf d labels values alpha q pair.1 pair.2 := by
    apply List.map_congr_left
    intro pair hpair
    obtain ⟨ha, hb⟩ := mem_of_mem_pairs hpair
    exact compare_eq_comparisonOf h (mem_sortedDistinct.mp ha) (mem_sortedDistinct.mp hb)
  rw [run_eq, fault?_eq_none_iff.mpr h]
  rw [IsCritical] at hq
  simp only [complete, hlevels, pooledVariance_ofLabels h.length_eq h.length_lt, hq, isFinite_real,
    Bool.not_true, Bool.false_eq_true, if_false, summaries_ofLabels h.length_eq, pairs_map,
    List.map_map]
  rw [testOf, ← hcomparisons]
  rfl

/-- A test exists exactly for what can be tested, where the range has a critical value. -/
theorem run_eq_ok_iff :
    run d (ofLabels name labels) (values.map real) alpha = .ok test ↔
      Testable labels values alpha ∧
        ∃ q, IsCritical d labels alpha q ∧ test = testOf d name labels values alpha q := by
  constructor
  · intro hrun
    obtain ⟨hfault, -⟩ := eq_of_run_eq_ok hrun
    have h := fault?_eq_none_iff.mp hfault
    have hlevels : (ofLabels name labels).levels = sortedDistinct labels := rfl
    have hfinite : Scalar.isFinite (d.rangeQuantile (1.0 - alpha)
        (Scalar.ofNat (sortedDistinct labels).length) (Scalar.ofNat (freedomOf labels))) := by
      rw [run_eq, hfault] at hrun
      simp only [complete, hlevels, pooledVariance_ofLabels h.length_eq h.length_lt] at hrun
      by_contra hnot
      rw [Bool.not_eq_true] at hnot
      simp only [hnot, Bool.not_false, if_true, reduceCtorEq] at hrun
    obtain ⟨q, hq⟩ := isFinite_iff.mp hfinite
    rw [run_eq_testOf h hq] at hrun
    exact ⟨h, q, hq, (Except.ok.inj hrun).symm⟩
  · rintro ⟨h, q, hq, rfl⟩
    exact run_eq_testOf h hq

/-! ## Looking up a comparison -/

/-- A comparison of two levels, in either order. -/
def Relates (c : PairComparison Exact) (a b : String) : Prop :=
  (c.first = a ∧ c.second = b) ∨ (c.first = b ∧ c.second = a)

section

variable {a b : String} {c : PairComparison Exact}

omit [Wording] in
theorem comparison?_comm (test : TukeyTest Exact) (a b : String) :
    test.comparison? a b = test.comparison? b a := by
  rw [comparison?, comparison?]
  congr 1
  funext c
  exact Bool.or_comm _ _

omit [Wording] in
theorem relates_of_comparison? (h : test.comparison? a b = some c) :
    c ∈ test.comparisons ∧ Relates c a b := by
  have hfound := List.find?_some h
  simp only [Bool.or_eq_true, Bool.and_eq_true, decide_eq_true_eq] at hfound
  exact ⟨List.mem_of_find?_eq_some h, hfound⟩

omit [Wording] in
theorem comparison?_eq_none :
    test.comparison? a b = none ↔ ∀ c ∈ test.comparisons, ¬Relates c a b := by
  simp only [comparison?, List.find?_eq_none, Bool.or_eq_true, Bool.and_eq_true, decide_eq_true_eq,
    Relates]

theorem mem_comparisons_testOf :
    c ∈ (testOf d name labels values alpha q).comparisons ↔
      ∃ a b, (a ∈ labels ∧ b ∈ labels ∧ a < b) ∧ c = comparisonOf d labels values alpha q a b := by
  rw [testOf, List.mem_map]
  constructor
  · rintro ⟨pair, hpair, rfl⟩
    exact ⟨pair.1, pair.2, mem_pairs_sortedDistinct.mp hpair, rfl⟩
  · rintro ⟨a, b, hpair, rfl⟩
    exact ⟨(a, b), mem_pairs_sortedDistinct.mpr hpair, rfl⟩

/-- Two levels have one comparison, in their order. -/
theorem relates_iff_of_lt (ha : a ∈ labels) (hb : b ∈ labels) (hlt : a < b) :
    (c ∈ (testOf d name labels values alpha q).comparisons ∧ Relates c a b) ↔
      c = comparisonOf d labels values alpha q a b := by
  rw [mem_comparisons_testOf]
  constructor
  · rintro ⟨⟨first, second, ⟨-, -, hown⟩, rfl⟩, ⟨rfl, rfl⟩ | ⟨rfl, rfl⟩⟩
    · rfl
    · exact absurd hown hlt.asymm
  · rintro rfl
    exact ⟨⟨a, b, ⟨ha, hb, hlt⟩, rfl⟩, Or.inl ⟨rfl, rfl⟩⟩

omit [Wording] in
theorem relates_comm : Relates c a b ↔ Relates c b a :=
  Or.comm

theorem comparison?_testOf (ha : a ∈ labels) (hb : b ∈ labels) (hne : a ≠ b) :
    ∃ c, (testOf d name labels values alpha q).comparison? a b = some c ∧
      ∀ other, (other ∈ (testOf d name labels values alpha q).comparisons ∧ Relates other a b) ↔
        other = c := by
  wlog hlt : a < b generalizing a b
  · have hgt : b < a := lt_of_le_of_ne (not_lt.mp hlt) hne.symm
    obtain ⟨c, hfound, hall⟩ := this hb ha hne.symm hgt
    simp only [comparison?_comm _ a b, relates_comm (a := a)]
    exact ⟨c, hfound, hall⟩
  · have hall : ∀ other, (other ∈ (testOf d name labels values alpha q).comparisons ∧
        Relates other a b) ↔ other = comparisonOf d labels values alpha q a b :=
      fun _ => relates_iff_of_lt ha hb hlt
    cases hfound : (testOf d name labels values alpha q).comparison? a b with
    | none =>
        obtain ⟨hmem, hrelates⟩ := (hall _).mpr rfl
        exact absurd hrelates (comparison?_eq_none.mp hfound _ hmem)
    | some c =>
        obtain rfl := (hall c).mp (relates_of_comparison? hfound)
        exact ⟨_, rfl, hall⟩

theorem comparison?_testOf_eq_none (h : a = b ∨ a ∉ labels ∨ b ∉ labels) :
    (testOf d name labels values alpha q).comparison? a b = none := by
  rw [comparison?_eq_none]
  intro c hc
  obtain ⟨first, second, ⟨hfirst, hsecond, hlt⟩, rfl⟩ := mem_comparisons_testOf.mp hc
  rintro (⟨rfl, rfl⟩ | ⟨rfl, rfl⟩)
  · rcases h with heq | hout | hout
    · exact hlt.ne heq
    · exact hout hfirst
    · exact hout hsecond
  · rcases h with heq | hout | hout
    · exact hlt.ne' heq
    · exact hout hsecond
    · exact hout hfirst

end

/-! ## What a test reports -/

/-- The comparison of the levels at two places, with an interval around their difference. -/
structure ComparesAt (test : TukeyTest Exact) (place : ℕ × ℕ) (c : PairComparison Exact) :
    Prop where
  first : test.levels[place.1]? = some c.first
  second : test.levels[place.2]? = some c.second
  lt : c.first < c.second
  difference : ∃ m n : ℝ, test.means[place.1]? = some (real m) ∧
    test.means[place.2]? = some (real n) ∧ c.difference = real (n - m)
  interval : ∃ (x v q : ℝ) (s t : ℕ), c.difference = real x ∧ test.variance = real v ∧
    test.critical = real q ∧ test.sizes[place.1]? = some s ∧ test.sizes[place.2]? = some t ∧
    c.lower = real (x - q * √(v / 2 * (1 / s + 1 / t))) ∧
    c.upper = real (x + q * √(v / 2 * (1 / s + 1 / t)))

/-- What the test of labelled values holds. -/
structure Reports (labels : List String) (values : List ℝ) (test : TukeyTest Exact) : Prop where
  increasing : test.levels.Pairwise (· < ·)
  mem_levels : ∀ label, label ∈ test.levels ↔ label ∈ labels
  sizes_eq : test.sizes = test.levels.map labels.count
  sum_sizes : test.sizes.sum = values.length
  means_eq : test.means = test.levels.map fun level =>
    real (average (valuesOf labels values level))
  df_eq : test.levels.length ≤ values.length ∧ test.df = values.length - test.levels.length
  length_comparisons :
    test.comparisons.length = test.levels.length * (test.levels.length - 1) / 2
  comparisons : ∃ places : List (ℕ × ℕ), places.Pairwise (Prod.Lex (· < ·) (· < ·)) ∧
    (∀ i j, (i, j) ∈ places ↔ i < j ∧ j < test.levels.length) ∧
    List.Forall₂ (ComparesAt test) places test.comparisons
  found : ∀ a ∈ labels, ∀ b ∈ labels, a ≠ b → ∃ c, test.comparison? a b = some c ∧
    test.comparison? b a = some c ∧
    ∀ other, (other ∈ test.comparisons ∧ Relates other a b) ↔ other = c
  not_found : ∀ a b, a = b ∨ a ∉ labels ∨ b ∉ labels → test.comparison? a b = none

theorem comparesAt_testOf {i j : ℕ} (hlt : i < j) (hj : j < (sortedDistinct labels).length) :
    ComparesAt (testOf d name labels values alpha q) (i, j)
      (comparisonOf d labels values alpha q (sortedDistinct labels)[i]!
        (sortedDistinct labels)[j]!) := by
  have hi : i < (sortedDistinct labels).length := hlt.trans hj
  rw [getElem!_pos _ i hi, getElem!_pos _ j hj]
  have hget := fun place hplace =>
    List.getElem?_eq_getElem (l := sortedDistinct labels) (i := place) hplace
  constructor
  · exact hget i hi
  · exact hget j hj
  · exact List.pairwise_iff_getElem.mp (pairwise_sortedDistinct labels) i j hi hj hlt
  · refine ⟨meanOf labels values (sortedDistinct labels)[i],
      meanOf labels values (sortedDistinct labels)[j], ?_, ?_, rfl⟩
    · rw [testOf, List.getElem?_map, hget i hi, Option.map_some]
    · rw [testOf, List.getElem?_map, hget j hj, Option.map_some]
  · refine ⟨differenceOf labels values (sortedDistinct labels)[i] (sortedDistinct labels)[j],
      pooled labels values, q, labels.count (sortedDistinct labels)[i],
      labels.count (sortedDistinct labels)[j], rfl, rfl, rfl, ?_, ?_, rfl, rfl⟩
    · rw [testOf, List.getElem?_map, hget i hi, Option.map_some]
    · rw [testOf, List.getElem?_map, hget j hj, Option.map_some]

theorem reports_testOf (h : Testable labels values alpha) :
    Reports labels values (testOf d name labels values alpha q) where
  increasing := pairwise_sortedDistinct labels
  mem_levels _ := mem_sortedDistinct
  sizes_eq := rfl
  sum_sizes := (sum_count labels).trans h.length_eq.symm
  means_eq := rfl
  df_eq := by
    rw [h.length_eq]
    exact ⟨h.length_lt.le, rfl⟩
  length_comparisons := by
    rw [testOf, List.length_map, length_pairs, Nat.choose_two_right]
  comparisons := by
    refine ⟨pairs (List.range (sortedDistinct labels).length),
      pairwise_pairs List.pairwise_lt_range, fun i j => mem_pairs_range, ?_⟩
    have hcomparisons : (testOf d name labels values alpha q).comparisons =
        (pairs (List.range (sortedDistinct labels).length)).map fun place =>
          comparisonOf d labels values alpha q (sortedDistinct labels)[place.1]!
            (sortedDistinct labels)[place.2]! := by
      rw [testOf, pairs_eq_map, List.map_map]
      rfl
    rw [hcomparisons, List.forall₂_map_right_iff, List.forall₂_same]
    rintro ⟨i, j⟩ hplace
    obtain ⟨hlt, hj⟩ := mem_pairs_range.mp hplace
    exact comparesAt_testOf hlt hj
  found a ha b hb hne := by
    obtain ⟨c, hfound, hall⟩ := comparison?_testOf ha hb hne
    exact ⟨c, hfound, (comparison?_comm _ b a).trans hfound, hall⟩
  not_found _ _ := comparison?_testOf_eq_none

theorem eq_real_of_lt (hpos : 0.0 < alpha) (hlt : alpha < 1.0) :
    ∃ a : ℝ, alpha = real a ∧ 0 < a ∧ a < 1 := by
  rw [zero_eq] at hpos
  rw [one_eq] at hlt
  cases alpha with
  | real a => exact ⟨a, rfl, hpos, hlt⟩
  | infinity => exact hlt.elim
  | negInfinity => exact hpos.elim
  | undefined => exact hpos.elim

/-- Where every quantile is finite, a test of labelled values exists exactly for what can be
tested. -/
theorem run_labelled
    (hfinite : ∀ (p : ℝ) (k df : ℕ), 0 < p → p < 1 → 2 ≤ k → 2 ≤ df →
      Scalar.isFinite (d.rangeQuantile (real p) (Scalar.ofNat k) (Scalar.ofNat df)))
    (name : String) (labels : List String) (values : List ℝ) (alpha : Exact) :
    ((∃ test, run d (ofLabels name labels) (values.map real) alpha = .ok test) ↔
        Testable labels values alpha) ∧
      (∀ other df, run d (ofLabels name labels) (values.map real) alpha ≠
        .error (.pairs other (.residualDf df))) ∧
      ∀ test, run d (ofLabels name labels) (values.map real) alpha = .ok test →
        test.factor = name ∧ test.alpha = alpha ∧ Reports labels values test := by
  refine ⟨⟨?_, ?_⟩, ?_, ?_⟩
  · rintro ⟨test, hrun⟩
    exact (run_eq_ok_iff.mp hrun).1
  · intro h
    obtain ⟨a, rfl, hpos, hlt⟩ := eq_real_of_lt h.pos h.lt_one
    have hquantile := hfinite (1 - a) (sortedDistinct labels).length (freedomOf labels)
      (by linarith) (by linarith) h.two_le h.two_le_freedomOf
    obtain ⟨q, hq⟩ := isFinite_iff.mp hquantile
    have hcritical : IsCritical d labels (real a) q := by
      rwa [IsCritical, one_eq, real_sub]
    exact ⟨_, run_eq_testOf h hcritical⟩
  · intro other df hrun
    exact fault?_ne_residualDf df (fault?_eq_of_run hrun)
  · intro test hrun
    obtain ⟨h, q, -, rfl⟩ := run_eq_ok_iff.mp hrun
    exact ⟨rfl, rfl, reports_testOf h⟩

end TukeyTest

namespace Sample

/-- Two levels of two records each that are far apart. -/
theorem testable_apart :
    TukeyTest.Testable ["s", "s", "t", "t"] [0, 1, 100, 101] (real 0.05) where
  length_eq := rfl
  pos := by
    rw [zero_eq, real_lt]
    norm_num
  lt_one := by
    rw [one_eq, real_lt]
    norm_num
  different := ⟨"s", by simp, "t", by simp, by decide⟩
  repeated := by decide
  varied := ⟨"s", 0, 1, by simp, by simp, zero_ne_one⟩

end Sample

open Sample in
theorem TukeyTest.run_labelled_apart : ∃ test,
    run Distribution.pairTails (ofLabels "a" ["s", "s", "t", "t"]) ([0, 1, 100, 101].map real)
        (real 0.05) = .ok test ∧
      Reports ["s", "s", "t", "t"] [0, 1, 100, 101] test := by
  obtain ⟨hiff, -, hall⟩ := run_labelled (d := Distribution.pairTails) (fun _ _ _ _ _ _ _ => rfl)
    "a" ["s", "s", "t", "t"] [0, 1, 100, 101] (real 0.05)
  obtain ⟨test, hrun⟩ := hiff.mpr testable_apart
  exact ⟨test, hrun, (hall test hrun).2.2⟩

end Significance
