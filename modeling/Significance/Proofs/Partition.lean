import Mathlib.Data.List.ProdSigma
import Significance.Proofs.Groups
import Significance.Proofs.OtherFields
import Significance.Proofs.TotalOrder

/-! # The groups of a comparison

A comparison parts the records by their labels: every pair of labels that occurs has one group with
the values of just the records of that pair. Groups stand in the order of the levels, which is that
of the written numbers where all labels are numbers. -/

namespace Significance

open Success Decimal

/-! ## The order of levels -/

section

variable {γ : Type} (key : γ → ℤ)

theorem key_le_trans (a b c : γ) (hab : decide (key a ≤ key b) = true)
    (hbc : decide (key b ≤ key c) = true) : decide (key a ≤ key c) = true :=
  decide_eq_true ((of_decide_eq_true hab).trans (of_decide_eq_true hbc))

theorem key_le_total (a b : γ) : (decide (key a ≤ key b) || decide (key b ≤ key a)) = true := by
  simp only [Bool.or_eq_true, decide_eq_true_eq]
  exact le_total _ _

/-- Members with one key are a sorted part of the list, which a stable sort keeps. -/
theorem filter_mergeSort_key (xs : List γ) (k : ℤ) :
    (xs.mergeSort fun a b => key a ≤ key b).filter (fun a => key a = k) =
      xs.filter fun a => key a = k := by
  have hsorted : (xs.filter fun a => key a = k).Pairwise fun a b => decide (key a ≤ key b) := by
    apply List.pairwise_of_forall_mem_list
    intro a ha b hb
    have hka := of_decide_eq_true (List.mem_filter.mp ha).2
    have hkb := of_decide_eq_true (List.mem_filter.mp hb).2
    exact decide_eq_true (hka.trans hkb.symm).le
  have hsub := (List.sublist_mergeSort (key_le_trans key) (key_le_total key) hsorted
    List.filter_sublist).filter fun a => key a = k
  rw [List.filter_filter] at hsub
  simp only [Bool.and_self] at hsub
  refine (hsub.eq_of_length ?_).symm
  exact ((List.mergeSort_perm xs _).filter _).length_eq.symm

/-- A stable sort by a key leaves members with one key in their order. -/
theorem pairwise_mergeSort_key {r : γ → γ → Prop} {xs : List γ} (h : xs.Pairwise r) :
    (xs.mergeSort fun a b => key a ≤ key b).Pairwise fun a b =>
      key a < key b ∨ (key a = key b ∧ r a b) := by
  rw [List.pairwise_iff_forall_sublist]
  intro a b hsub
  have hle : key a ≤ key b := of_decide_eq_true (List.pairwise_iff_forall_sublist.mp
    (List.pairwise_mergeSort (key_le_trans key) (key_le_total key) xs) hsub)
  rcases hle.lt_or_eq with hlt | heq
  · exact Or.inl hlt
  · have hboth := hsub.filter fun c => key c = key a
    rw [filter_mergeSort_key] at hboth
    simp only [List.filter_cons, heq, decide_true, if_true, List.filter_nil] at hboth
    exact Or.inr ⟨heq, List.pairwise_iff_forall_sublist.mp h (hboth.trans List.filter_sublist)⟩

end

namespace Comparison

/-- The order of labels that are written numbers; their characters decide between equal ones. -/
def Precedes (a b : String) : Prop :=
  ∃ v w, written? a = some v ∧ written? b = some w ∧ (v.Before w ∨ (v = w ∧ a < b))

/-- The distinct labels in their order. -/
structure LevelsOf (labels levels : List String) : Prop where
  nodup : levels.Nodup
  mem_iff : ∀ label, label ∈ levels ↔ label ∈ labels
  numeric : (∀ label ∈ labels, (read? label).isSome) → levels.Pairwise Precedes
  textual : (∃ label ∈ labels, read? label = none) → levels.Pairwise (· < ·)

theorem precedes_iff {a b : String} {r s : ℤ} (ha : rank? a = some r) (hb : rank? b = some s) :
    Precedes a b ↔ r < s ∨ (r = s ∧ a < b) := by
  rw [rank?_eq, Option.map_eq_some_iff] at ha hb
  obtain ⟨v, hv, rfl⟩ := ha
  obtain ⟨w, hw, rfl⟩ := hb
  rw [← Written.before_iff, Written.rank_injective.eq_iff]
  constructor
  · rintro ⟨v', w', hv', hw', h⟩
    obtain rfl := Option.some.inj (hv.symm.trans hv')
    obtain rfl := Option.some.inj (hw.symm.trans hw')
    exact h
  · intro h
    exact ⟨v, w, hv, hw, h⟩

theorem levelOrder_eq_of_none {labels : List String} (h : ∃ label ∈ labels, read? label = none) :
    levelOrder labels = Text.sortedDistinct labels := by
  obtain ⟨label, hlabel, hnone⟩ := h
  have hrank : rank? label = none := by rw [rank?, hnone, Option.map_none]
  have hranks : (Text.sortedDistinct labels).mapM rank? = none :=
    mapM_eq_none ⟨label, Text.mem_sortedDistinct.mpr hlabel, hrank⟩
  simp only [levelOrder, hranks]

/-- Labels that are all numbers are sorted by their ranks. -/
theorem exists_rank {labels : List String} (h : ∀ label ∈ labels, (read? label).isSome) :
    ∃ rankOf : String → ℤ, (∀ label ∈ labels, rank? label = some (rankOf label)) ∧
      levelOrder labels =
        (Text.sortedDistinct labels).mergeSort fun a b => rankOf a ≤ rankOf b := by
  let rankOf : String → ℤ := fun label => (rank? label).getD 0
  have hrank : ∀ label ∈ labels, rank? label = some (rankOf label) := by
    intro label hlabel
    obtain ⟨x, hx⟩ := Option.isSome_iff_exists.mp (h label hlabel)
    change rank? label = some ((rank? label).getD 0)
    rw [rank?, hx, Option.map_some, Option.getD_some]
  have hranks : (Text.sortedDistinct labels).mapM rank? =
      some ((Text.sortedDistinct labels).map rankOf) :=
    mapM_eq_some_map fun label hlabel => hrank label (Text.mem_sortedDistinct.mp hlabel)
  refine ⟨rankOf, hrank, ?_⟩
  simp only [levelOrder, hranks]
  rw [← List.map_prod_right_eq_zip]
  have hsnd : ((Text.sortedDistinct labels).map fun label => (rankOf label, label)).map Prod.snd =
      Text.sortedDistinct labels := by
    rw [List.map_map]
    exact List.map_id _
  conv_rhs => rw [← hsnd]
  apply List.map_mergeSort
  intro a ha b hb
  obtain ⟨label, -, rfl⟩ := List.mem_map.mp ha
  obtain ⟨other, -, rfl⟩ := List.mem_map.mp hb
  rfl

theorem perm_levelOrder (labels : List String) :
    (levelOrder labels).Perm (Text.sortedDistinct labels) := by
  by_cases h : ∀ label ∈ labels, (read? label).isSome
  · obtain ⟨rankOf, -, heq⟩ := exists_rank h
    rw [heq]
    exact List.mergeSort_perm _ _
  · push Not at h
    obtain ⟨label, hlabel, hnone⟩ := h
    rw [levelOrder_eq_of_none ⟨label, hlabel, by simpa using hnone⟩]

theorem levelsOf_levelOrder (labels : List String) : LevelsOf labels (levelOrder labels) := by
  have hperm := perm_levelOrder labels
  have hincreasing := Text.pairwise_sortedDistinct labels
  constructor
  · exact hperm.nodup_iff.mpr (Factor.nodup_levels "" labels)
  · intro label
    rw [hperm.mem_iff, Text.mem_sortedDistinct]
  · intro h
    obtain ⟨rankOf, hrank, heq⟩ := exists_rank h
    rw [heq]
    apply (pairwise_mergeSort_key rankOf hincreasing).imp_of_mem
    intro a b ha hb hbefore
    have hmem : ∀ c ∈ (Text.sortedDistinct labels).mergeSort fun a b => rankOf a ≤ rankOf b,
        c ∈ labels := fun c hc => Text.mem_sortedDistinct.mp (List.mem_mergeSort.mp hc)
    exact (precedes_iff (hrank a (hmem a ha)) (hrank b (hmem b hb))).mpr hbefore
  · intro h
    rw [levelOrder_eq_of_none h]
    exact hincreasing

/-! ## Groups of points -/

section

variable {α : Type}

/-- The values of the points with a label and a hue, in record order. -/
def valuesAt (points : List (Point α)) (x : String) (hue : Option String) : List α :=
  (points.filter fun point => point.x = x ∧ point.hue = hue).map Point.y

def keyOf (group : GroupSummary α) : Option String × String :=
  (group.hue, group.x)

theorem groupValues_eq (points : List (Point α)) (x : String) (hue : Option String) :
    groupValues points x hue = valuesAt points x hue :=
  Factor.filterMap_ite_some _ _ points

theorem valuesAt_eq_nil {points : List (Point α)} {x : String} {hue : Option String} :
    valuesAt points x hue = [] ↔ ¬∃ point ∈ points, point.x = x ∧ point.hue = hue := by
  rw [valuesAt, List.map_eq_nil_iff, List.filter_eq_nil_iff]
  simp only [decide_eq_true_eq, not_exists, not_and]

theorem length_valuesAt (points : List (Point α)) (x : String) (hue : Option String) :
    (valuesAt points x hue).length =
      (points.map fun point => (point.hue, point.x)).count (hue, x) := by
  rw [valuesAt, List.length_map, ← List.countP_eq_length_filter, List.count, List.countP_map]
  apply List.countP_congr
  intro point _
  simp [and_comm]

variable [Scalar α] {d : Distribution α} {points : List (Point α)} {xLevels : List String}
  {hues : List (Option String)}

/-- A pair of labels has a group where a point has both. -/
theorem summaries_eq : summaries d points xLevels hues = hues.flatMap fun hue =>
    (xLevels.filter fun x => ∃ point ∈ points, point.x = x ∧ point.hue = hue).map fun x =>
      summarize d x hue (valuesAt points x hue) := by
  rw [summaries]
  congr 1
  funext hue
  rw [← Factor.filterMap_ite_some]
  congr 1
  funext x
  rw [groupValues_eq]
  by_cases hoccurs : ∃ point ∈ points, point.x = x ∧ point.hue = hue
  · rw [if_pos hoccurs]
    cases hvalues : valuesAt points x hue with
    | nil => exact absurd hoccurs (valuesAt_eq_nil.mp hvalues)
    | cons value values => rfl
  · rw [if_neg hoccurs, valuesAt_eq_nil.mpr hoccurs]

theorem mem_summaries {group : GroupSummary α} : group ∈ summaries d points xLevels hues ↔
    ∃ hue ∈ hues, ∃ x ∈ xLevels, (∃ point ∈ points, point.x = x ∧ point.hue = hue) ∧
      summarize d x hue (valuesAt points x hue) = group := by
  simp only [summaries_eq, List.mem_flatMap, List.mem_map, List.mem_filter, decide_eq_true_eq,
    and_assoc]

/-- The groups stand in the order of the hues and then of the levels. -/
theorem keys_sublist :
    ((summaries d points xLevels hues).map keyOf).Sublist (hues ×ˢ xLevels) := by
  rw [summaries_eq]
  induction hues with
  | nil => exact List.Sublist.refl _
  | cons hue hues ih =>
      rw [List.flatMap_cons, List.map_append, List.map_map, List.product_cons]
      exact (List.filter_sublist.map (Prod.mk hue)).append ih

theorem nodup_keys (hlevels : xLevels.Nodup) (hhues : hues.Nodup) :
    ((summaries d points xLevels hues).map keyOf).Nodup :=
  keys_sublist.nodup (hhues.product hlevels)

theorem summary_of_mem {group : GroupSummary α} (h : group ∈ summaries d points xLevels hues) :
    group.count = (valuesAt points group.x group.hue).length ∧
      group.mean = Descriptive.mean (valuesAt points group.x group.hue) ∧
      group.deviation = Descriptive.standardDeviation (valuesAt points group.x group.hue) := by
  obtain ⟨hue, -, x, -, -, rfl⟩ := mem_summaries.mp h
  exact ⟨rfl, rfl, rfl⟩

section

variable (hx : ∀ point ∈ points, point.x ∈ xLevels) (hhue : ∀ point ∈ points, point.hue ∈ hues)

include hx hhue

theorem exists_summary_iff (x : String) (hue : Option String) :
    (∃ group ∈ summaries d points xLevels hues, group.x = x ∧ group.hue = hue) ↔
      ∃ point ∈ points, point.x = x ∧ point.hue = hue := by
  constructor
  · rintro ⟨group, hgroup, rfl, rfl⟩
    obtain ⟨hue, -, x, -, hoccurs, rfl⟩ := mem_summaries.mp hgroup
    exact hoccurs
  · rintro ⟨point, hpoint, rfl, rfl⟩
    exact ⟨_, mem_summaries.mpr ⟨_, hhue point hpoint, _, hx point hpoint,
      ⟨point, hpoint, rfl, rfl⟩, rfl⟩, rfl, rfl⟩

/-- Every point is counted in one group. -/
theorem sum_counts (hlevels : xLevels.Nodup) (hhues : hues.Nodup) :
    ((summaries d points xLevels hues).map GroupSummary.count).sum = points.length := by
  let keys := points.map fun point => (point.hue, point.x)
  have hperm : ((summaries d points xLevels hues).map keyOf).Perm keys.dedup := by
    rw [List.perm_ext_iff_of_nodup (nodup_keys hlevels hhues) keys.nodup_dedup]
    rintro ⟨hue, x⟩
    have hiff := exists_summary_iff (d := d) hx hhue x hue
    rw [List.mem_dedup, List.mem_map, List.mem_map]
    simp only [keyOf, Prod.mk.injEq, and_comm (a := _ = hue), hiff]
  have hcount : (summaries d points xLevels hues).map GroupSummary.count =
      ((summaries d points xLevels hues).map keyOf).map keys.count := by
    rw [List.map_map]
    apply List.map_congr_left
    intro group hgroup
    exact (summary_of_mem hgroup).1.trans (length_valuesAt points group.x group.hue)
  have hsum : (keys.dedup.map keys.count).sum = keys.length := by
    convert List.sum_map_count_dedup_eq_length keys
    rfl
  rw [hcount, (hperm.map _).sum_eq, hsum, List.length_map]

end

/-! ## Comparisons of points -/

/-- The mean of some values is their sum by their number, and their deviation is the root of the
squared deviations from it, summed and divided by one less than their number. A single value has no
deviation. -/
structure Describes (values : List α) (mean deviation : α) : Prop where
  mean_eq : values ≠ [] → mean = values.foldl (· + ·) (-0.0) / Scalar.ofNat values.length
  deviation_eq : 2 ≤ values.length → deviation =
    Scalar.sqrt ((values.map fun y => (y - mean) * (y - mean)).foldl (· + ·) (-0.0) /
      Scalar.ofNat (values.length - 1))
  undefined : values.length < 2 → deviation = Scalar.sqrt Scalar.undefined

theorem describes (values : List α) :
    Describes values (Descriptive.mean values) (Descriptive.standardDeviation values) := by
  constructor
  · intro hne
    rw [Descriptive.mean, if_neg (by simpa using hne)]
    rfl
  · intro hseveral
    rw [Descriptive.standardDeviation, Descriptive.variance, if_neg (by omega)]
    rfl
  · intro hfew
    rw [Descriptive.standardDeviation, Descriptive.variance, if_pos hfew]

/-- What the groups of a comparison are, by the points of its records. -/
structure Partitions (points : List (Point α)) (comparison : Comparison α) : Prop where
  xLevels : LevelsOf (points.map Point.x) comparison.xLevels
  hueLevels : LevelsOf (points.filterMap Point.hue) comparison.hueLevels
  exists_group_iff : ∀ x hue, (∃ group ∈ comparison.groups, group.x = x ∧ group.hue = hue) ↔
    ∃ point ∈ points, point.x = x ∧ point.hue = hue
  nodup : (comparison.groups.map keyOf).Nodup
  ordered : (comparison.groups.map keyOf).Sublist
    ((if comparison.hueField.isSome then comparison.hueLevels.map some else [none]) ×ˢ
      comparison.xLevels)
  summary : ∀ group ∈ comparison.groups,
    group.count = (valuesAt points group.x group.hue).length ∧
    group.mean = Descriptive.mean (valuesAt points group.x group.hue) ∧
    group.deviation = Descriptive.standardDeviation (valuesAt points group.x group.hue)
  described : ∀ group ∈ comparison.groups,
    Describes (valuesAt points group.x group.hue) group.mean group.deviation
  sum_counts : (comparison.groups.map GroupSummary.count).sum = points.length

/-- The hues that the groups stand by. -/
def hueKeys (points : List (Point α)) (hue : Option String) : List (Option String) :=
  if hue.isSome then (levelOrder (points.filterMap Point.hue)).map some else [none]

theorem ofColumns_eq (x y : String) (hue : Option String) (normalized : Bool)
    (points : List (Point α)) :
    ofColumns d x y hue normalized (points.map Point.x) (points.map Point.hue)
        (points.map Point.y) =
      { xField := x, yField := y, hueField := hue, normalized
        xLevels := levelOrder (points.map Point.x)
        hueLevels := levelOrder (points.filterMap Point.hue)
        groups := summaries d points (levelOrder (points.map Point.x)) (hueKeys points hue) } := by
  have hlevels : (points.map Point.hue).filterMap id = points.filterMap Point.hue := by
    rw [List.filterMap_map]
    rfl
  simp only [ofColumns, hlevels, List.zip_map', List.map_map, Function.comp_def, List.map_id',
    hueKeys]

omit [Scalar α] in
theorem mem_hueKeys {hue : Option String} (h : ∀ point ∈ points, point.hue.isSome = hue.isSome) :
    ∀ point ∈ points, point.hue ∈ hueKeys points hue := by
  intro point hpoint
  have hsome := h point hpoint
  rw [hueKeys]
  cases hhue : point.hue with
  | none =>
      rw [hhue, Option.isSome_none] at hsome
      rw [← hsome]
      simp
  | some label =>
      rw [hhue, Option.isSome_some] at hsome
      have hlabel : label ∈ points.filterMap Point.hue :=
        List.mem_filterMap.mpr ⟨point, hpoint, hhue⟩
      rw [← hsome, if_pos rfl]
      exact List.mem_map_of_mem (((levelsOf_levelOrder _).mem_iff label).mpr hlabel)

omit [Scalar α] in
theorem nodup_hueKeys (hue : Option String) : (hueKeys points hue).Nodup := by
  rw [hueKeys]
  split
  · exact (levelsOf_levelOrder _).nodup.map (Option.some_injective _)
  · exact List.nodup_singleton none

theorem partitions_ofColumns {x y : String} {hue : Option String} {normalized : Bool}
    (h : ∀ point ∈ points, point.hue.isSome = hue.isSome) :
    Partitions points (ofColumns d x y hue normalized (points.map Point.x)
      (points.map Point.hue) (points.map Point.y)) := by
  have hx : ∀ point ∈ points, point.x ∈ levelOrder (points.map Point.x) := fun point hpoint =>
    ((levelsOf_levelOrder _).mem_iff point.x).mpr (List.mem_map_of_mem hpoint)
  have hhue := mem_hueKeys h
  have hlevels := (levelsOf_levelOrder (points.map Point.x)).nodup
  have hkeys : (hueKeys points hue).Nodup := nodup_hueKeys hue
  rw [ofColumns_eq]
  constructor
  · exact levelsOf_levelOrder _
  · exact levelsOf_levelOrder _
  · exact exists_summary_iff hx hhue
  · exact nodup_keys hlevels hkeys
  · exact keys_sublist
  · exact fun group => summary_of_mem
  · intro group hgroup
    obtain ⟨-, hmean, hdeviation⟩ := summary_of_mem hgroup
    rw [hmean, hdeviation]
    exact describes _
  · exact sum_counts hx hhue hlevels hkeys

/-! ## Records as points -/

/-- The hue of a record, which has a label in the field of the hues if there is one. -/
def SeesHue (hue : Option String) (clean : Bool) (record : Record (Value α))
    (own : Option String) : Prop :=
  (hue = none → own = none) ∧
    ∀ name, hue = some name → ∃ label, (record.get? name).bind Value.label? = some label ∧
      own = some (if clean then Text.withoutParentheses label else label)

/-- What a comparison sees of a record. -/
structure Sees (x y : String) (hue : Option String) (clean : Bool) (record : Record (Value α))
    (point : Point α) : Prop where
  label : (record.get? x).bind Value.label? = some point.x
  hue : SeesHue hue clean record point.hue
  value : record.get? y = some (.number point.y) ∧ Scalar.isFinite point.y = true

theorem SeesHue.isSome_eq {hue own : Option String} {clean : Bool}
    {record : Record (Value α)} (h : SeesHue hue clean record own) :
    own.isSome = hue.isSome := by
  cases hue with
  | none => rw [h.1 rfl]
  | some name =>
      obtain ⟨label, -, rfl⟩ := h.2 name rfl
      rfl

variable {data : Dataset α} {name : String}

omit [Scalar α] in
/-- A column that can be read has for each record the result of reading it. -/
theorem forall₂_of_mapM {β : Type} (read : Record (Value α) → ℕ → Except (Error α) β) {ys : List β}
    (h : (data.records.zipIdx.mapM fun pair => read pair.1 pair.2) = .ok ys) :
    List.Forall₂ (fun record y => ∃ i, read record i = .ok y) data.records ys := by
  rw [← List.zipIdx_map_fst 0 data.records, List.forall₂_map_left_iff]
  exact (mapM_eq_ok.mp h).imp fun pair y hy => ⟨pair.2, hy⟩

theorem forall₂_of_categoricalColumn {labels : List String}
    (h : data.categoricalColumn name = .ok labels) :
    List.Forall₂ (fun record label => (record.get? name).bind Value.label? = some label)
      data.records labels := by
  apply (forall₂_of_mapM
    (fun record i => Dataset.field record i name >>= Dataset.category name i) h).imp
  rintro record label ⟨i, hread⟩
  rw [Dataset.field] at hread
  cases hvalue : record.get? name with
  | none => simp [hvalue, error_bind] at hread
  | some value =>
      rw [hvalue, ok_bind, Dataset.category] at hread
      rw [Option.bind_some]
      cases hlabel : value.label? with
      | none => simp [hlabel] at hread
      | some text =>
          rw [hlabel] at hread
          rw [Except.ok.inj hread]

theorem forall₂_of_numericColumn {values : List α} (h : data.numericColumn name = .ok values) :
    List.Forall₂ (fun record value => record.get? name = some (.number value) ∧
      Scalar.isFinite value = true) data.records values := by
  apply (forall₂_of_mapM
    (fun record i => Dataset.field record i name >>= Dataset.finiteNumber name i) h).imp
  rintro record value ⟨i, hread⟩
  rw [Dataset.field] at hread
  cases hvalue : record.get? name with
  | none => simp [hvalue, error_bind] at hread
  | some own =>
      rw [hvalue, ok_bind] at hread
      cases own with
      | number v =>
          rw [Dataset.finiteNumber] at hread
          split at hread
          · next hfinite =>
            obtain rfl := Except.ok.inj hread
            exact ⟨rfl, hfinite⟩
          · cases hread
      | null | bool | text | list => cases hread

theorem forall₂_of_hueLabels {hue : Option String} {clean : Bool} {hues : List (Option String)}
    (h : hueLabels data hue clean = .ok hues) :
    List.Forall₂ (SeesHue hue clean) data.records hues := by
  cases hue with
  | none =>
      obtain rfl := Except.ok.inj h
      rw [Dataset.size, ← List.map_const', List.forall₂_map_right_iff, List.forall₂_same]
      intro record _
      refine ⟨fun _ => rfl, ?_⟩
      intro name hname
      cases hname
  | some name =>
      simp only [hueLabels, bind_eq_ok, pure_eq_ok] at h
      obtain ⟨labels, hlabels, rfl⟩ := h
      rw [List.forall₂_map_right_iff]
      apply (forall₂_of_categoricalColumn hlabels).imp
      intro record label hlabel
      refine ⟨fun hnone => absurd hnone (Option.some_ne_none name), ?_⟩
      intro other hother
      cases hother
      exact ⟨label, hlabel, rfl⟩

/-- Columns of labels, hues and values are the points of the records. -/
theorem exists_points {x y : String} {hue : Option String} {clean : Bool}
    {records : List (Record (Value α))} {xs : List String} {hues : List (Option String)}
    {values : List α}
    (hxs : List.Forall₂ (fun record label => (record.get? x).bind Value.label? = some label)
      records xs)
    (hhues : List.Forall₂ (SeesHue hue clean) records hues)
    (hvalues : List.Forall₂ (fun record value => record.get? y = some (.number value) ∧
      Scalar.isFinite value = true) records values) :
    ∃ points : List (Point α), List.Forall₂ (Sees x y hue clean) records points ∧
      xs = points.map Point.x ∧ hues = points.map Point.hue ∧ values = points.map Point.y := by
  induction hxs generalizing hues values with
  | nil =>
      cases hhues
      cases hvalues
      exact ⟨[], .nil, rfl, rfl, rfl⟩
  | cons hlabel _ ih =>
      cases hhues with
      | cons hown hhues =>
          cases hvalues with
          | cons hvalue hvalues =>
              obtain ⟨points, hpoints, rfl, rfl, rfl⟩ := ih hhues hvalues
              exact ⟨⟨_, _, _⟩ :: points, .cons ⟨hlabel, hown, hvalue⟩ hpoints, rfl, rfl, rfl⟩

/-- A comparison is one of the columns that it reads from the prepared records. -/
theorem exists_columns_of_run {x y : String} {hue : Option String} {options : Options α}
    {comparison : Comparison α} (h : run d data x y hue options = .ok comparison) :
    ∃ prepared yField values xs hues,
      (if options.normalize then Deviation.normalize data y options.reference options.sense
        else .ok (data, y)) = .ok (prepared, yField) ∧
      prepared.size = data.size ∧ prepared.numericColumn yField = .ok values ∧
      prepared.categoricalColumn x = .ok xs ∧
      hueLabels prepared hue options.cleanLabels = .ok hues ∧
      comparison = ofColumns d x yField hue options.normalize xs hues values := by
  obtain ⟨normalize, given, sense, clean⟩ := options
  cases normalize with
  | true =>
      obtain ⟨-, prepared, yField, values, xs, hues, hprepared, hvalues, hxs, hhues, rfl⟩ :=
        run_eq_ok_of_normalized.mp h
      obtain ⟨_, _, -, -, hdeviations, -⟩ := Deviation.normalize_eq_ok.mp hprepared
      exact ⟨prepared, yField, values, xs, hues, hprepared,
        (Dataset.size_withField hdeviations).symm, hvalues, hxs, hhues, rfl⟩
  | false =>
      obtain ⟨-, values, xs, hues, hvalues, hxs, hhues, rfl⟩ := run_eq_ok_of_raw.mp h
      exact ⟨data, y, values, xs, hues, rfl, rfl, hvalues, hxs, hhues, rfl⟩

/-! ## Comparisons without hues -/

/-- The label of a group and the statistics of its values. -/
def statistics (group : GroupSummary α) : String × ℕ × α × α :=
  (group.x, group.count, group.mean, group.deviation)

/-- What a group of one label has as its statistics. -/
def statisticsOf (label : String) (values : List α) : String × ℕ × α × α :=
  (label, values.length, Descriptive.mean values, Descriptive.standardDeviation values)

/-- Without hues the groups are those of a factor, but for their order. -/
theorem perm_statistics {x y : String} {normalized : Bool}
    (h : ∀ point ∈ points, point.hue = none) :
    ((ofColumns d x y none normalized (points.map Point.x) (points.map Point.hue)
        (points.map Point.y)).groups.map statistics).Perm
      (List.zipWith statisticsOf (Factor.ofLabels x (points.map Point.x)).levels
        ((Factor.ofLabels x (points.map Point.x)).groups (points.map Point.y))) := by
  have hvalues : ∀ label, Factor.valuesOf (points.map Point.x) (points.map Point.y) label =
      valuesAt points label none := by
    intro label
    rw [Factor.valuesOf, List.zip_map', List.filter_map, List.map_map, valuesAt]
    congr 1
    apply List.filter_congr
    intro point hpoint
    simp [h point hpoint]
  have hoccurs : ∀ label ∈ levelOrder (points.map Point.x),
      decide (∃ point ∈ points, point.x = label ∧ point.hue = none) = true := by
    intro label hlabel
    obtain ⟨point, hpoint, rfl⟩ :=
      List.mem_map.mp (((levelsOf_levelOrder _).mem_iff label).mp hlabel)
    exact decide_eq_true ⟨point, hpoint, rfl, h point hpoint⟩
  rw [ofColumns_eq, Factor.groups_ofLabels, List.zipWith_map_right, List.zipWith_self]
  simp only [hueKeys, Option.isSome_none, Bool.false_eq_true, if_false, summaries_eq,
    List.flatMap_singleton, List.filter_eq_self.mpr hoccurs, List.map_map, hvalues]
  exact (perm_levelOrder _).map _

/-! ## Comparisons of records -/

/-- A comparison is one of the points of its records. -/
theorem exists_points_of_run {x y : String} {hue : Option String} {options : Options α}
    {comparison : Comparison α} (hrun : run d data x y hue options = .ok comparison) :
    ∃ prepared yField points,
      (if options.normalize then Deviation.normalize data y options.reference options.sense
        else .ok (data, y)) = .ok (prepared, yField) ∧
      List.Forall₂ (Sees x yField hue options.cleanLabels) prepared.records points ∧
      (∀ point ∈ points, point.hue.isSome = hue.isSome) ∧
      comparison = ofColumns d x yField hue options.normalize (points.map Point.x)
        (points.map Point.hue) (points.map Point.y) := by
  obtain ⟨prepared, yField, values, xs, hues, hprepared, -, hvalues, hxs, hhues, rfl⟩ :=
    exists_columns_of_run hrun
  obtain ⟨points, hsees, rfl, rfl, rfl⟩ := exists_points (forall₂_of_categoricalColumn hxs)
    (forall₂_of_hueLabels hhues) (forall₂_of_numericColumn hvalues)
  refine ⟨prepared, yField, points, hprepared, hsees, ?_, rfl⟩
  intro point hpoint
  obtain ⟨record, -, hsee⟩ := exists_of_mem_forall₂ hsees hpoint
  exact hsee.hue.isSome_eq

/-- A comparison parts the records: the pairs of labels that occur have one group each, with the
values of just their records, and the groups and the levels stand in the order of the labels. -/
theorem run_partitions {x y : String} {hue : Option String} {options : Options α}
    {comparison : Comparison α} (hrun : run d data x y hue options = .ok comparison) :
    ∃ prepared yField points,
      (if options.normalize then Deviation.normalize data y options.reference options.sense
        else .ok (data, y)) = .ok (prepared, yField) ∧
      List.Forall₂ (Sees x yField hue options.cleanLabels) prepared.records points ∧
      comparison.xField = x ∧ comparison.yField = yField ∧ comparison.hueField = hue ∧
      Partitions points comparison ∧
      (comparison.groups.map GroupSummary.count).sum = data.size ∧
      (hue = none → (comparison.groups.map statistics).Perm
        (List.zipWith statisticsOf (Factor.ofLabels x (points.map Point.x)).levels
          ((Factor.ofLabels x (points.map Point.x)).groups (points.map Point.y)))) := by
  obtain ⟨prepared, yField, values, xs, hues, hprepared, hsize, hvalues, hxs, hhues, rfl⟩ :=
    exists_columns_of_run hrun
  obtain ⟨points, hsees, rfl, rfl, rfl⟩ := exists_points (forall₂_of_categoricalColumn hxs)
    (forall₂_of_hueLabels hhues) (forall₂_of_numericColumn hvalues)
  have hhue : ∀ point ∈ points, point.hue.isSome = hue.isSome := by
    intro point hpoint
    obtain ⟨record, -, hpoint⟩ := exists_of_mem_forall₂ hsees hpoint
    exact hpoint.hue.isSome_eq
  have hpartitions : Partitions points (ofColumns d x yField hue options.normalize
      (points.map Point.x) (points.map Point.hue) (points.map Point.y)) :=
    partitions_ofColumns hhue
  refine ⟨prepared, yField, points, hprepared, hsees, rfl, rfl, rfl, hpartitions, ?_, ?_⟩
  · rw [hpartitions.sum_counts, ← hsees.length_eq]
    exact hsize
  · rintro rfl
    exact perm_statistics fun point hpoint => by simpa using hhue point hpoint

end

open Sample in
/-- Deviations parted by their own labels, which replace those of the caller. -/
theorem run_partitions_prices :
    ∃ comparison, run Distribution.standard prices "group" "cost" (some "costRpd")
        ⟨true, none, .lowerIsBetter, true⟩ = .ok comparison ∧
      ∃ prepared yField points,
        Deviation.normalize prices "cost" none .lowerIsBetter = .ok (prepared, yField) ∧
        List.Forall₂ (Sees "group" yField (some "costRpd") true) prepared.records points ∧
        Partitions points comparison ∧ (comparison.groups.map GroupSummary.count).sum = 4 := by
  have hsome : ((run Distribution.standard prices "group" "cost" (some "costRpd")
      ⟨true, none, .lowerIsBetter, true⟩).toOption).isSome := by decide +kernel
  obtain ⟨comparison, hcomparison⟩ := Option.isSome_iff_exists.mp hsome
  have hrun := toOption_eq_some.mp hcomparison
  obtain ⟨prepared, yField, points, hprepared, hsees, -, -, -, hpartitions, hcount, -⟩ :=
    run_partitions hrun
  exact ⟨comparison, hrun, prepared, yField, points, hprepared, hsees, hpartitions, hcount⟩

end Comparison

end Significance
