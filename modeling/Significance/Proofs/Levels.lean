import Significance.Proofs.Groups

/-! # Levels and codes

The levels of a factor are the labels that occur, in increasing order, and the code of a record is
the place of its label among them. So the records of a level, their number and their values can be
read off the codes, and none is missed or counted twice. -/

namespace Significance.Factor

variable {α : Type} {labels : List String}

/-! ## Places of labels -/

theorem pairwise_levels (name : String) (labels : List String) :
    (ofLabels name labels).levels.Pairwise (· < ·) :=
  Text.pairwise_sortedDistinct labels

theorem mem_levels_ofLabels {name level : String} :
    level ∈ (ofLabels name labels).levels ↔ level ∈ labels :=
  Text.mem_sortedDistinct

theorem getElem?_levels_idxOf {name label : String} (h : label ∈ labels) :
    (ofLabels name labels).levels[(ofLabels name labels).levels.idxOf label]? = some label :=
  List.getElem?_idxOf (mem_levels_ofLabels.mpr h)

/-- The search among the levels finds every label, so no code is the one it would fall back on. -/
theorem position?_levels {name label : String} (h : label ∈ labels) :
    Text.position? (ofLabels name labels).levels label =
      some ((ofLabels name labels).levels.idxOf label) :=
  (Text.position?_eq_some_iff (pairwise_levels name labels)).mpr (getElem?_levels_idxOf h)

/-! ## Records of a code -/

/-- The positions of the records with a code. -/
def places (codes : List ℕ) (start code : ℕ) : List ℕ :=
  (codes.zipIdx start).filterMap fun (c, i) => if c = code then some i else none

theorem mem_places {codes : List ℕ} {code i : ℕ} :
    i ∈ places codes 0 code ↔ codes[i]? = some code := by
  rw [places, List.mem_filterMap]
  constructor
  · rintro ⟨⟨c, j⟩, hmem, hcode⟩
    dsimp only at hcode
    split at hcode
    · next heq =>
      injection hcode with hcode
      subst heq hcode
      exact List.mk_mem_zipIdx_iff_getElem?.mp hmem
    · cases hcode
  · intro hcode
    exact ⟨(code, i), List.mk_mem_zipIdx_iff_getElem?.mpr hcode, if_pos rfl⟩

theorem pairwise_places (codes : List ℕ) (start code : ℕ) :
    (places codes start code).Pairwise (· < ·) := by
  have hindices : (codes.zipIdx start).Pairwise fun a b => a.2 < b.2 := by
    rw [← List.pairwise_map (f := Prod.snd), List.zipIdx_map_snd]
    exact List.pairwise_lt_range'
  refine hindices.filterMap _ ?_
  rintro ⟨c, i⟩ ⟨c', j⟩ hlt k hk k' hk'
  obtain ⟨-, hi⟩ := Option.ite_none_right_eq_some.mp hk
  obtain ⟨-, hj⟩ := Option.ite_none_right_eq_some.mp hk'
  injection hi with hi
  injection hj with hj
  exact hi ▸ hj ▸ hlt

/-- The values of a code are those at its records. -/
theorem group_eq_places (codes : List ℕ) (values before : List α) (code : ℕ)
    (h : values.length = codes.length) :
    ((codes.zip values).filterMap fun (c, v) => if c = code then some v else none) =
      (places codes before.length code).filterMap ((before ++ values)[·]?) := by
  induction codes generalizing values before with
  | nil => rfl
  | cons c codes ih =>
      cases values with
      | nil => cases h
      | cons v values =>
          have hrest := ih values (before ++ [v]) (Nat.succ.inj h)
          rw [List.append_assoc, List.singleton_append, List.length_append, List.length_singleton]
            at hrest
          rw [places, List.zipIdx_cons, List.zip_cons_cons, List.filterMap_cons, List.filterMap_cons]
          by_cases hc : c = code
          · have hhere : (before ++ v :: values)[before.length]? = some v := by simp
            simp only [if_pos hc]
            rw [List.filterMap_cons, hhere]
            exact congrArg (v :: ·) hrest
          · simp only [if_neg hc]
            exact hrest

/-! ## Records of a level -/

theorem recordsWithLevel_of_notMem {name level : String} (h : level ∉ labels) :
    (ofLabels name labels).recordsWithLevel level = [] := by
  have hnone : (ofLabels name labels).levels.idxOf? level = none :=
    List.idxOf?_eq_none_iff.mpr (mt mem_levels_ofLabels.mp h)
  rw [recordsWithLevel, hnone]

theorem recordsWithLevel_of_mem {name level : String} (h : level ∈ labels) :
    (ofLabels name labels).recordsWithLevel level =
      places (ofLabels name labels).codes 0 ((ofLabels name labels).levels.idxOf level) := by
  obtain ⟨code, hcode⟩ := Option.isSome_iff_exists.mp
    (List.isSome_idxOf?.mpr (@mem_levels_ofLabels labels name level |>.mpr h))
  rw [recordsWithLevel, List.idxOf_eq_getD_idxOf?, hcode]
  rfl

/-! ## The parts -/

/-- The values with some labels, label by label, are the values of all records with one of them. -/
theorem flatMap_valuesOf_perm (pairs : List (String × α)) {levels : List String}
    (hnodup : levels.Nodup) :
    (levels.flatMap fun level => (pairs.filter fun pair => pair.1 = level).map Prod.snd).Perm
      ((pairs.filter fun pair => pair.1 ∈ levels).map Prod.snd) := by
  induction levels with
  | nil => simp
  | cons level levels ih =>
      have ⟨hnew, hrest⟩ := List.nodup_cons.mp hnodup
      have hfirst : ((pairs.filter fun pair => pair.1 ∈ level :: levels).filter
          fun pair => pair.1 = level) = pairs.filter fun pair => pair.1 = level := by
        rw [List.filter_filter]
        apply List.filter_congr
        intro pair _
        simp +contextual
      have hothers : ((pairs.filter fun pair => pair.1 ∈ level :: levels).filter
          fun pair => !decide (pair.1 = level)) = pairs.filter fun pair => pair.1 ∈ levels := by
        rw [List.filter_filter]
        apply List.filter_congr
        intro pair _
        by_cases hlevel : pair.1 = level
        · simp [hlevel, hnew]
        · simp [hlevel]
      have hsplit := List.filter_append_perm (fun pair => decide (pair.1 = level))
        (pairs.filter fun pair => pair.1 ∈ level :: levels)
      rw [hfirst, hothers] at hsplit
      rw [List.flatMap_cons]
      refine ((ih hrest).append_left _).trans ?_
      rw [← List.map_append]
      exact hsplit.map _

/-- What it means that values, one per record, are parted by the levels of a factor. -/
structure Parted (factor : Factor) (values : List α) (groups : List (List α)) : Prop where
  length_eq : groups.length = factor.levels.length
  /-- The values of the records of a level, in the order of the records. -/
  group_eq : ∀ (code : ℕ) (level : String), factor.levels[code]? = some level →
    groups[code]? = some ((factor.recordsWithLevel level).filterMap (values[·]?))
  perm : groups.flatten.Perm values
  sizes : groups.map List.length = factor.levelCounts

/-- What it means that a factor stands for one label per record. -/
structure Represents (labels : List String) (factor : Factor) : Prop where
  increasing : factor.levels.Pairwise (· < ·)
  mem_levels : ∀ level, level ∈ factor.levels ↔ level ∈ labels
  found : ∀ label ∈ labels, (Text.position? factor.levels label).isSome
  length_codes : factor.codes.length = labels.length
  codes_lt : ∀ code ∈ factor.codes, code < factor.levels.length
  level_code : ∀ (i : ℕ) (label : String), labels[i]? = some label →
    ∃ code, factor.codes[i]? = some code ∧ factor.levels[code]? = some label
  records_increasing : ∀ level, (factor.recordsWithLevel level).Pairwise (· < ·)
  mem_records : ∀ (level : String) (i : ℕ),
    i ∈ factor.recordsWithLevel level ↔ labels[i]? = some level
  no_records : ∀ level, level ∉ labels → factor.recordsWithLevel level = []
  counts_eq : factor.levelCounts = factor.levels.map labels.count
  counts_pos : ∀ count ∈ factor.levelCounts, 0 < count
  counts_sum : factor.levelCounts.sum = labels.length
  parted : ∀ {α : Type} (values : List α), values.length = labels.length →
    Parted factor values (factor.groups values)

theorem parted_groups (name : String) (labels : List String) (values : List α)
    (h : values.length = labels.length) :
    Parted (ofLabels name labels) values ((ofLabels name labels).groups values) := by
  have hcodes : values.length = (ofLabels name labels).codes.length := by
    rw [codes_ofLabels, List.length_map, h]
  refine ⟨length_groups values, ?_, ?_, map_length_groups hcodes⟩
  · intro code level hlevel
    obtain ⟨hlt, rfl⟩ := List.getElem?_eq_some_iff.mp hlevel
    have hmem := mem_levels_ofLabels.mp (List.getElem_mem hlt)
    rw [recordsWithLevel_of_mem hmem, (nodup_levels name labels).idxOf_getElem code hlt,
      groups_eq_map_range, List.getElem?_map, List.getElem?_range hlt]
    exact congrArg some (group_eq_places _ values [] code hcodes)
  · have hall : ((labels.zip values).filter fun pair => pair.1 ∈ (ofLabels name labels).levels) =
        labels.zip values := by
      rw [List.filter_eq_self]
      intro pair hpair
      exact decide_eq_true (mem_levels_ofLabels.mpr (List.of_mem_zip hpair).1)
    have hperm := flatMap_valuesOf_perm (labels.zip values) (nodup_levels name labels)
    rw [hall, List.map_snd_zip h.le, List.flatMap_def] at hperm
    rw [groups_ofLabels]
    exact hperm

/-- The factor of some labels has the labels that occur as its levels, in increasing order, and for
each record the place of its label as its code. -/
theorem represents_ofLabels (name : String) (labels : List String) :
    Represents labels (ofLabels name labels) := by
  have hcounts : (ofLabels name labels).levelCounts =
      (ofLabels name labels).levels.map labels.count := by
    rw [← (parted_groups name labels labels rfl).sizes, groups_ofLabels, List.map_map]
    exact List.map_congr_left fun level _ => length_valuesOf rfl level
  have hmem : ∀ level, level ∈ (ofLabels name labels).levels ↔ level ∈ labels :=
    fun _ => mem_levels_ofLabels
  refine ⟨pairwise_levels name labels, hmem, ?_, ?_, ?_, ?_, ?_, ?_,
    fun level => recordsWithLevel_of_notMem, hcounts, ?_, ?_, parted_groups name labels⟩
  · intro label hlabel
    rw [position?_levels hlabel]
    rfl
  · rw [codes_ofLabels, List.length_map]
  · rw [codes_ofLabels, List.forall_mem_map]
    intro label hlabel
    exact List.idxOf_lt_length_of_mem ((hmem label).mpr hlabel)
  · intro i label hlabel
    refine ⟨(ofLabels name labels).levels.idxOf label, ?_,
      getElem?_levels_idxOf (List.mem_of_getElem? hlabel)⟩
    rw [codes_ofLabels, List.getElem?_map, hlabel]
    rfl
  · intro level
    by_cases hlevel : level ∈ labels
    · rw [recordsWithLevel_of_mem hlevel]
      exact pairwise_places _ _ _
    · rw [recordsWithLevel_of_notMem hlevel]
      exact List.Pairwise.nil
  · intro level i
    by_cases hlevel : level ∈ labels
    · rw [recordsWithLevel_of_mem hlevel, mem_places, codes_ofLabels, List.getElem?_map,
        Option.map_eq_some_iff]
      constructor
      · rintro ⟨label, hlabel, hcode⟩
        have hown := (hmem label).mpr (List.mem_of_getElem? hlabel)
        rwa [(List.idxOf_inj hown).mp hcode] at hlabel
      · intro hlabel
        exact ⟨level, hlabel, rfl⟩
    · rw [recordsWithLevel_of_notMem hlevel]
      exact iff_of_false List.not_mem_nil fun hlabel => hlevel (List.mem_of_getElem? hlabel)
  · rw [hcounts, List.forall_mem_map]
    intro level hlevel
    exact List.count_pos_iff.mpr ((hmem level).mp hlevel)
  · have hparted := parted_groups name labels labels rfl
    rw [← hparted.sizes, ← List.length_flatten, hparted.perm.length_eq]

end Significance.Factor
