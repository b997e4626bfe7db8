import Significance.Proofs.HeaderFields
import Significance.Proofs.Levels
import Significance.Proofs.NumberText
import Significance.Proofs.OtherFields
import Significance.Proofs.Parentheses
import Significance.Proofs.Partition

/-! # Labels of cells

A label is read back as the value that it names, but for the sign of a zero. So the cells of one
level are those with one value, and the levels that a report shows are read back as themselves. -/

namespace Significance

/-! ## White space at the ends -/

namespace Text

theorem trim_of_forall {text : String} (h : ∀ c ∈ text.toList, isBlank c = false) :
    trim text = text := by
  rw [trim, trimChars_of_trimmed, String.ofList_toList]
  exact ⟨fun c hc => isBlank_eq_false_iff.mp (h c (List.mem_of_head? hc)),
    fun c hc => isBlank_eq_false_iff.mp (h c (List.mem_of_getLast? hc))⟩

theorem trim_trim (text : String) : trim (trim text) = trim text := by
  rw [trim, trim, String.toList_ofList, trimChars_of_trimmed (trimmed_trimChars _)]

end Text

namespace Value

/-! ## Labels of values -/

def IsZero (x : Float) : Prop :=
  x = 0.0 ∨ x = -0.0

/-- A number with the sign of a zero dropped. -/
def unsignedZero (x : Float) : Float :=
  if x = -0.0 then 0.0 else x

/-- The value that a label is read back as. -/
def canonical : Value Float → Value Float
  | .number x => .number (unsignedZero x)
  | v => v

/-- A label that names the group it is read back into. -/
def Rereads (label : String) : Prop :=
  (ofCell label).label? = some label

theorem unsignedZero_eq_iff {x y : Float} :
    unsignedZero x = unsignedZero y ↔ x = y ∨ (IsZero x ∧ IsZero y) := by
  have hne : (0.0 : Float) ≠ -0.0 := by decide +kernel
  rw [unsignedZero, unsignedZero, IsZero, IsZero]
  by_cases hx : x = -0.0
  · by_cases hy : y = -0.0
    · simp [hx, hy]
    · simp [hx, hy, eq_comm, hne]
  · by_cases hy : y = -0.0
    · simp [hx, hy]
    · simp [hx, hy]
      rintro rfl rfl
      rfl

theorem whole?_negZero : Decimal.whole? (-0.0) = some 0 := by decide +kernel

/-- The label of a number is the digits of a whole number or the shortest text; the latter is never
that of a negative zero. -/
theorem numberLabel_cases (x : Float) :
    (∃ n, Decimal.whole? x = some n ∧ numberLabel x = Decimal.integral n) ∨
      (x ≠ -0.0 ∧ numberLabel x = Decimal.plain x) := by
  have hwhole : Scalar.whole? x = Decimal.whole? x := rfl
  have htext : Scalar.text x = Decimal.plain x := rfl
  rw [numberLabel, hwhole, htext]
  cases hx : Decimal.whole? x with
  | none =>
      refine Or.inr ⟨?_, rfl⟩
      rintro rfl
      rw [whole?_negZero] at hx
      cases hx
  | some n =>
      dsimp only
      split
      · exact Or.inl ⟨n, rfl, rfl⟩
      · next hlong =>
          refine Or.inr ⟨?_, rfl⟩
          rintro rfl
          rw [whole?_negZero] at hx
          cases hx
          exact hlong (Decimal.tenTo_pos 15)

theorem read?_numberLabel (x : Float) : Decimal.read? (numberLabel x) = some (unsignedZero x) := by
  rcases numberLabel_cases x with ⟨n, hn, hlabel⟩ | ⟨hne, hlabel⟩
  · rw [hlabel]
    exact Decimal.read?_integral hn
  · rw [hlabel, unsignedZero, if_neg hne, Decimal.read?_plain]

theorem trim_numberLabel (x : Float) : Text.trim (numberLabel x) = numberLabel x := by
  apply Text.trim_of_forall
  rcases numberLabel_cases x with ⟨n, -, hlabel⟩ | ⟨-, hlabel⟩
  · rw [hlabel]
    exact Decimal.isBlank_integral n
  · rw [hlabel]
    exact Decimal.isBlank_plain x

/-! ## Labels read back -/

/-- White space around a cell does not count. -/
theorem ofCell_trim (cell : String) : ofCell (Text.trim cell) = ofCell cell := by
  rw [ofCell, Text.trim_trim]
  rfl

theorem ofCell_of_read? {cell : String} {x : Float} (h : Text.trim cell = cell)
    (hread : Decimal.read? cell = some x) : ofCell cell = .number x := by
  have hne : cell ≠ "" := by
    rintro rfl
    have hnone : Decimal.read? "" = none := by decide +kernel
    rw [hnone] at hread
    cases hread
  simp only [ofCell, h, if_neg hne, hread]

theorem ofCell_numberLabel (x : Float) : ofCell (numberLabel x) = .number (unsignedZero x) :=
  ofCell_of_read? (trim_numberLabel x) (read?_numberLabel x)

theorem ofCell_truthText (b : Bool) : ofCell (truthText b) = .bool b := by
  have htrim : ∀ b, Text.trim (truthText b) = truthText b := by decide +kernel
  have hread : ∀ b, Decimal.read? (truthText b) = none := by decide +kernel
  cases b with
  | true =>
      rw [ofCell, htrim, hread]
      simp [truthText]
  | false =>
      rw [ofCell, htrim, hread]
      simp [truthText]

/-- A cell is blank, or what stands in it is a number, a truth value or the text of the cell. -/
theorem ofCell_cases (cell : String) :
    ofCell cell = .null ∨ (∃ x, ofCell cell = .number x) ∨ (∃ b, ofCell cell = .bool b) ∨
      ofCell cell = .text (Text.trim cell) := by
  rw [ofCell]
  split
  · exact Or.inl rfl
  · split
    · exact Or.inr (Or.inl ⟨_, rfl⟩)
    · split
      · exact Or.inr (Or.inr (Or.inl ⟨true, rfl⟩))
      · split
        · exact Or.inr (Or.inr (Or.inl ⟨false, rfl⟩))
        · exact Or.inr (Or.inr (Or.inr rfl))

theorem label?_canonical (v : Value Float) : v.canonical.label? = v.label? := by
  cases v with
  | number x =>
      by_cases hx : x = -0.0
      · rw [hx]
        decide +kernel
      · rw [canonical, unsignedZero, if_neg hx]
  | null | bool | text | list => rfl

/-- The value in a cell has a label, which is read back as the value. -/
theorem exists_label {cell : String} (h : ofCell cell ≠ .null) :
    ∃ label, (ofCell cell).label? = some label ∧ ofCell label = (ofCell cell).canonical := by
  rcases ofCell_cases cell with hnull | ⟨x, hx⟩ | ⟨b, hb⟩ | htext
  · exact absurd hnull h
  · rw [hx]
    exact ⟨numberLabel x, rfl, ofCell_numberLabel x⟩
  · rw [hb]
    exact ⟨truthText b, rfl, ofCell_truthText b⟩
  · rw [htext]
    exact ⟨Text.trim cell, rfl, (ofCell_trim cell).trans htext⟩

theorem label?_eq_iff {cell other : String} (h : ofCell cell ≠ .null) (h' : ofCell other ≠ .null) :
    (ofCell cell).label? = (ofCell other).label? ↔
      (ofCell cell).canonical = (ofCell other).canonical := by
  constructor
  · intro heq
    obtain ⟨label, hlabel, hread⟩ := exists_label h
    obtain ⟨label', hlabel', hread'⟩ := exists_label h'
    rw [hlabel, hlabel', Option.some.injEq] at heq
    rw [← hread, ← hread', heq]
  · intro heq
    rw [← label?_canonical, heq, label?_canonical]

theorem numberLabel_eq_iff {x y : Float} :
    numberLabel x = numberLabel y ↔ x = y ∨ (IsZero x ∧ IsZero y) := by
  rw [← unsignedZero_eq_iff]
  constructor
  · intro heq
    have hread := read?_numberLabel x
    rw [heq, read?_numberLabel, Option.some.injEq] at hread
    exact hread.symm
  · intro heq
    have hlabel := label?_canonical (.number x)
    rw [canonical, heq, ← canonical, label?_canonical] at hlabel
    exact (Option.some.inj hlabel).symm

/-- The label of the value in a cell is read back as itself. -/
theorem rereads_of_label? {cell label : String} (h : (ofCell cell).label? = some label) :
    Rereads label := by
  have hne : ofCell cell ≠ .null := by
    intro hnull
    rw [hnull] at h
    cases h
  obtain ⟨label', hlabel', hread⟩ := exists_label hne
  rw [h, Option.some.injEq] at hlabel'
  rw [Rereads, hlabel', hread, label?_canonical, h, hlabel']

end Value

/-! ## Data from cells -/

namespace Dataset

open Success

variable {data data' : Dataset Float} {name : String}

/-- Every value of the data could stand in a cell. -/
def HasCells (data : Dataset Float) : Prop :=
  ∀ record ∈ data.records, ∀ name v, record.get? name = some v → ∃ cell, v = Value.ofCell cell

theorem hasCells_of_readDelimited {path : String} {found : Loading.Found}
    (h : Loading.readDelimited path found = .ok data) : data.HasCells := by
  cases found with
  | nothing => cases h
  | directory => cases h
  | file bytes =>
      simp only [Loading.readDelimited, Loading.ofRows, bind_eq_ok, check_eq_ok, pure_eq_ok] at h
      obtain ⟨header, -, -, rows, -, rfl⟩ := h
      intro record hrecord name v hv
      obtain ⟨cells, -, rfl⟩ := List.mem_map.mp hrecord
      have hfield := Record.mem_of_mem_fields_ofList (Record.mem_fields_iff.mpr hv)
      obtain ⟨⟨_, cell⟩, -, hcell⟩ := List.mem_map.mp hfield
      exact ⟨cell, (congrArg Prod.snd hcell).symm⟩

/-- A number could stand in a cell. -/
theorem HasCells.withNumericField {values : List Float} (h : data.HasCells)
    (hdata : data.withNumericField name values = .ok data') : data'.HasCells := by
  obtain ⟨-, rfl⟩ := withField_eq_ok.mp hdata
  intro record hrecord other v hv
  obtain ⟨⟨old, value⟩, hpair, rfl⟩ := List.mem_map.mp hrecord
  obtain ⟨hold, hvalue⟩ := List.of_mem_zip hpair
  by_cases hname : other = name
  · subst hname
    obtain ⟨x, -, rfl⟩ := List.mem_map.mp hvalue
    rw [Record.get?_insert_self, Option.some.injEq] at hv
    refine ⟨Decimal.plain x, ?_⟩
    rw [← hv, Value.ofCell_of_read? (Text.trim_of_forall (Decimal.isBlank_plain x))
      (Decimal.read?_plain x)]
  · rw [Record.get?_insert_of_ne _ _ hname] at hv
    exact h old hold other v hv

theorem HasCells.rereads (h : data.HasCells) {record : Record (Value Float)}
    (hrecord : record ∈ data.records) {label : String}
    (hlabel : (record.get? name).bind Value.label? = some label) : Value.Rereads label := by
  obtain ⟨v, hv, hlabel⟩ := Option.bind_eq_some_iff.mp hlabel
  obtain ⟨cell, rfl⟩ := h record hrecord name v hv
  exact Value.rereads_of_label? hlabel

theorem HasCells.rereads_level (h : data.HasCells) {factor : Factor}
    (hfactor : Factor.ofDataset data name = .ok factor) {level : String}
    (hlevel : level ∈ factor.levels) : Value.Rereads level := by
  simp only [Factor.ofDataset, bind_eq_ok, pure_eq_ok] at hfactor
  obtain ⟨labels, hlabels, rfl⟩ := hfactor
  obtain ⟨record, hrecord, hlabel⟩ := exists_of_mem_forall₂
    (Comparison.forall₂_of_categoricalColumn hlabels) (Factor.mem_levels_ofLabels.mp hlevel)
  exact h.rereads hrecord hlabel

theorem HasCells.code_eq_iff (h : data.HasCells) {factor : Factor}
    (hfactor : Factor.ofDataset data name = .ok factor) (i j : Fin data.size) :
    factor.code i = factor.code j ↔
      ((data.record i).get? name).map Value.canonical =
        ((data.record j).get? name).map Value.canonical := by
  obtain ⟨hlevels, rfl⟩ := ofDataset_eq_ok.mp hfactor
  have hvalue : ∀ i : Fin data.size, ∃ cell, (data.record i).get? name = some (Value.ofCell cell) ∧
      Value.ofCell cell ≠ .null := by
    intro i
    obtain ⟨label, hlabel⟩ := Option.isSome_iff_exists.mp (hlevels i)
    obtain ⟨v, hv, hlabel⟩ := Option.bind_eq_some_iff.mp hlabel
    obtain ⟨cell, rfl⟩ := h _ (List.get_mem _ _) name v hv
    refine ⟨cell, hv, ?_⟩
    intro hnull
    rw [hnull] at hlabel
    cases hlabel
  obtain ⟨cell, hcell, hne⟩ := hvalue i
  obtain ⟨other, hother, hne'⟩ := hvalue j
  rw [hlevels.code_eq_iff, level?, level?, hcell, hother, Option.bind_some, Option.bind_some,
    Value.label?_eq_iff hne hne', Option.map_some, Option.map_some, Option.some.injEq]

end Dataset

/-! ## Levels that are shown -/

/-- The levels of all fields of the data tell its values apart, and whichever a report of the data
shows is read back as itself. Where labels are cleaned, a hue is shown by what is left of its level,
which may name another value. -/
structure Dataset.LevelsReread (data : Dataset Float) : Prop where
  levels : ∀ name factor, Factor.ofDataset data name = .ok factor →
    ∀ level ∈ factor.levels, Value.Rereads level
  codes : ∀ name factor, Factor.ofDataset data name = .ok factor → ∀ i j : Fin data.size,
    factor.code i = factor.code j ↔
      ((data.record i).get? name).map Value.canonical =
        ((data.record j).get? name).map Value.canonical
  tests : ∀ d target factors options analysis,
    Analysis.run d data target factors options = .ok analysis →
      ∀ test ∈ analysis.postHoc.completed, (∀ level ∈ test.levels, Value.Rereads level) ∧
        ∀ c ∈ test.comparisons, Value.Rereads c.first ∧ Value.Rereads c.second
  groups : ∀ d x y hue options comparison,
    Comparison.run d data x y hue options = .ok comparison →
      ∀ group ∈ comparison.groups, Value.Rereads group.x ∧
        ∀ shown ∈ group.hue, ∃ level, Value.Rereads level ∧
          shown = if options.cleanLabels then Text.withoutParentheses level else level

theorem TukeyTest.mem_levels_of_comparison {d : Distribution Float} {factor : Factor}
    {values : List Float} {alpha : Float} {test : TukeyTest Float}
    (h : run d factor values alpha = .ok test) {c : PairComparison Float}
    (hc : c ∈ test.comparisons) : c.first ∈ factor.levels ∧ c.second ∈ factor.levels := by
  obtain ⟨-, critical, rfl⟩ := eq_of_run_eq_ok h
  obtain ⟨⟨a, b⟩, hpair, rfl⟩ := List.mem_map.mp hc
  obtain ⟨ha, hb⟩ := mem_of_mem_pairs hpair
  rw [← map_level_summaries factor values]
  exact ⟨List.mem_map_of_mem ha, List.mem_map_of_mem hb⟩

namespace Dataset.HasCells

variable {data prepared : Dataset Float} {d : Distribution Float}

/-- What an analysis adds to the data are numbers. -/
theorem prepare {target field : String} {reference : Option Float}
    {options : Analysis.Options Float} (h : data.HasCells)
    (hprepare : Analysis.prepare data target options = .ok (prepared, field, reference)) :
    prepared.HasCells := by
  obtain ⟨normalize, given, sense⟩ := options
  cases normalize with
  | true =>
      obtain ⟨_, _, -, -, hprepared, -⟩ := Analysis.prepare_eq_ok.mp hprepare
      exact h.withNumericField hprepared
  | false =>
      obtain ⟨rfl, -⟩ := Analysis.prepare_eq_ok_of_raw.mp hprepare
      exact h

theorem rereads_test {target : String} {factors : List String} {options : Analysis.Options Float}
    {analysis : Analysis Float} {test : TukeyTest Float} (h : data.HasCells)
    (hrun : Analysis.run d data target factors options = .ok analysis)
    (htest : test ∈ analysis.postHoc.completed) :
    (∀ level ∈ test.levels, Value.Rereads level) ∧
      ∀ c ∈ test.comparisons, Value.Rereads c.first ∧ Value.Rereads c.second := by
  obtain ⟨prepared, field, reference, table, hprepare, -, rfl⟩ := Analysis.run_eq_ok.mp hrun
  obtain ⟨grouping, values, hgrouping, -, htest, hlevels, -⟩ := PostHoc.exists_grouping htest
  have hreread : ∀ level ∈ grouping.levels, Value.Rereads level :=
    fun level => (h.prepare hprepare).rereads_level hgrouping
  rw [hlevels]
  refine ⟨hreread, fun c hc => ?_⟩
  obtain ⟨hfirst, hsecond⟩ := TukeyTest.mem_levels_of_comparison htest hc
  exact ⟨hreread _ hfirst, hreread _ hsecond⟩

theorem rereads_hue {record : Record (Value Float)} {hue own : Option String} {clean : Bool}
    (h : data.HasCells) (hrecord : record ∈ data.records)
    (hsees : Comparison.SeesHue hue clean record own) :
    ∀ shown ∈ own, ∃ level, Value.Rereads level ∧
      shown = if clean then Text.withoutParentheses level else level := by
  intro shown hshown
  cases hue with
  | none =>
      rw [hsees.1 rfl] at hshown
      cases hshown
  | some name =>
      obtain ⟨level, hlevel, hleft⟩ := hsees.2 name rfl
      rw [hleft, Option.mem_some_iff] at hshown
      exact ⟨level, h.rereads hrecord hlevel, hshown.symm⟩

theorem rereads_group {x y : String} {hue : Option String} {options : Comparison.Options Float}
    {comparison : Comparison Float} {group : GroupSummary Float} (h : data.HasCells)
    (hrun : Comparison.run d data x y hue options = .ok comparison)
    (hgroup : group ∈ comparison.groups) :
    Value.Rereads group.x ∧ ∀ shown ∈ group.hue, ∃ level, Value.Rereads level ∧
      shown = if options.cleanLabels then Text.withoutParentheses level else level := by
  obtain ⟨prepared, yField, points, hprepare, hsees, -, rfl⟩ := Comparison.exists_points_of_run hrun
  have hcells : prepared.HasCells := by
    split at hprepare
    · obtain ⟨_, _, -, -, hprepared, -⟩ := Deviation.normalize_eq_ok.mp hprepare
      exact h.withNumericField hprepared
    · cases hprepare
      exact h
  rw [Comparison.ofColumns_eq] at hgroup
  obtain ⟨_, -, _, -, ⟨point, hpoint, rfl, rfl⟩, rfl⟩ := Comparison.mem_summaries.mp hgroup
  obtain ⟨record, hrecord, hsee⟩ := Success.exists_of_mem_forall₂ hsees hpoint
  exact ⟨hcells.rereads hrecord hsee.label, hcells.rereads_hue hrecord hsee.hue⟩

theorem levelsReread (h : data.HasCells) : data.LevelsReread where
  levels _ _ hfactor _ := h.rereads_level hfactor
  codes _ _ := h.code_eq_iff
  tests _ _ _ _ _ hrun _ := h.rereads_test hrun
  groups _ _ _ _ _ _ hrun _ := h.rereads_group hrun

end Dataset.HasCells

/-- The value in a cell that is not blank has a label, which is read back as the value. So cells
have one label exactly if they have one value, different numbers have different labels, and the
levels of a delimited file are read back as themselves. -/
theorem Value.cell_labels_canonical :
    (∀ cell, ofCell cell ≠ .null →
      ∃ label, (ofCell cell).label? = some label ∧ ofCell label = (ofCell cell).canonical ∧
        Rereads label) ∧
    (∀ cell other, ofCell cell ≠ .null → ofCell other ≠ .null →
      ((ofCell cell).label? = (ofCell other).label? ↔
        (ofCell cell).canonical = (ofCell other).canonical)) ∧
    (∀ x y : Float, numberLabel x = numberLabel y ↔ x = y ∨ (IsZero x ∧ IsZero y)) ∧
    ∀ path found data, Loading.readDelimited path found = .ok data → data.LevelsReread := by
  refine ⟨?_, fun _ _ => label?_eq_iff, fun _ _ => numberLabel_eq_iff,
    fun _ _ _ hdata => (Dataset.hasCells_of_readDelimited hdata).levelsReread⟩
  intro cell hcell
  obtain ⟨label, hlabel, hread⟩ := exists_label hcell
  exact ⟨label, hlabel, hread, rereads_of_label? hlabel⟩

theorem Value.cell_labels_canonical_spellings :
    (ofCell " 1e3 ").label? = (ofCell "1000.0").label? ∧
      numberLabel 999999999999999.0 ≠ numberLabel 1000000000000000.0 ∧
      ∃ data, Loading.readDelimited "runs.csv"
        (.file "level,cost\n 1e3 ,1\n1000.0,2\nTRUE,3\n".toUTF8) = .ok data ∧ data.LevelsReread := by
  obtain ⟨-, hsame, hnumbers, hdata⟩ := cell_labels_canonical
  refine ⟨?_, ?_, ?_⟩
  · have hpower : ofCell " 1e3 " = .number 1000.0 := by
      rw [← ofCell_trim]
      exact ofCell_of_read? (by decide +kernel) (by decide +kernel)
    have hpoint : ofCell "1000.0" = .number 1000.0 :=
      ofCell_of_read? (by decide +kernel) (by decide +kernel)
    refine (hsame _ _ ?_ ?_).mpr (by rw [hpower, hpoint])
    · rw [hpower]
      exact fun hnull => by cases hnull
    · rw [hpoint]
      exact fun hnull => by cases hnull
  · rw [Ne, hnumbers, IsZero, IsZero]
    decide +kernel
  · have hread : (Loading.readDelimited "runs.csv"
        (.file "level,cost\n 1e3 ,1\n1000.0,2\nTRUE,3\n".toUTF8)).toOption.isSome := by
      decide +kernel
    obtain ⟨data, hsome⟩ := Option.isSome_iff_exists.mp hread
    have hok := Success.toOption_eq_some.mp hsome
    exact ⟨data, hok, hdata _ _ _ hok⟩

end Significance
