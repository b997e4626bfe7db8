import Significance.Proofs.Places
import Significance.Proofs.WrittenRows

/-! # The files of a report

Every factor gets a stem of its own. So the files of one report have different names whatever its
factors are called, and none of them takes the place of another. -/

namespace Significance

/-! ## Paths of the files -/

namespace Path

/-- An ending without a slash only makes the last name of a path in a directory longer. -/
theorem exists_names_join (directory base : String) :
    ∃ before last, ∀ ending : String, 2 < ending.toList.length → '/' ∉ ending.toList →
      names (join directory (base ++ ending)) = before ++ [last ++ ending] := by
  obtain ⟨before, last, hnames⟩ := exists_names_append base
  by_cases habsolute : base.toList.head? = some '/'
  · refine ⟨before, last, fun ending hlong hslash => ?_⟩
    have hroot : (base ++ ending).toList.head? = some '/' := by
      rw [String.toList_append, List.head?_append, habsolute, Option.some_or]
    rw [join, if_pos hroot, hnames ending hlong hslash]
  · refine ⟨names directory ++ before, last, fun ending hlong hslash => ?_⟩
    have hroot := Text.head?_append_ne habsolute fun h => hslash (List.mem_of_mem_head? h)
    rw [names_join directory hroot, hnames ending hlong hslash, List.append_assoc]

end Path

/-! ## Files of one report -/

namespace Report

open Program

variable {directory base ending : String} {time : Moment} {analysis : Analysis Float}

theorem Ending.long {stems : List String} (h : Ending stems ending) : 2 < ending.toList.length := by
  cases h with
  | table => decide
  | tukey =>
      simp only [String.toList_append, List.length_append]
      have hfirst : "_tukey_".toList.length = 7 := rfl
      omega
  | summary => decide
  | json => decide

theorem Ending.slashFree (h : Ending (stems analysis) ending) : '/' ∉ ending.toList := by
  cases h with
  | table => decide
  | tukey hstem =>
      have hsafe := FileStem.slash_notMem_of_mem_unique hstem
      simpa using hsafe
  | summary => decide
  | json => decide

theorem isName_of_ending (hbase : '/' ∉ base.toList) (h : Ending (stems analysis) ending) :
    Path.IsName (base ++ ending) := by
  apply Path.isName_of_long
  · rw [String.toList_append, List.length_append]
    have hlong := h.long
    omega
  · rw [String.toList_append, List.mem_append]
    exact not_or.mpr ⟨hbase, h.slashFree⟩

theorem isName_of_mem_bundle (hbase : '/' ∉ base.toList) {artifact : Artifact}
    (hmem : artifact ∈ bundle base time analysis) : Path.IsName artifact.name := by
  obtain ⟨ending, hending, hname⟩ := exists_artifact_iff.mp ⟨artifact, hmem, rfl⟩
  rw [hname]
  exact isName_of_ending hbase hending

theorem nodup_endings (analysis : Analysis Float) : (endings analysis).Nodup := by
  have hinjective : Function.Injective fun stem : String => "_tukey_" ++ stem ++ ".csv" := by
    intro stem other h
    exact (String.append_right_inj _).mp ((String.append_left_inj _).mp h)
  have hapart : ∀ {stem ending : String}, 'k' ∉ ending.toList →
      ending ≠ "_tukey_" ++ stem ++ ".csv" := by
    rintro stem ending hletter rfl
    exact hletter (by simp)
  rw [endings, List.cons_append, List.nodup_cons, List.nodup_append]
  refine ⟨?_, (FileStem.nodup_unique _).map hinjective, by decide, ?_⟩
  · rw [List.mem_append, List.mem_map]
    rintro (⟨stem, -, h⟩ | h)
    · exact hapart (by decide) h.symm
    · revert h
      decide
  · intro file hfile other hother
    obtain ⟨stem, -, rfl⟩ := List.mem_map.mp hfile
    refine (hapart ?_).symm
    rcases List.mem_cons.mp hother with rfl | hother
    · decide
    · rw [List.mem_singleton.mp hother]
      decide

theorem staysIn_writeInto (directory : String) (hbase : '/' ∉ base.toList) :
    ∀ action ∈ (bundle base time analysis).map (writeInto directory), StaysIn directory action := by
  rw [List.forall_mem_map]
  exact fun artifact hmem => ⟨artifact.name, isName_of_mem_bundle hbase hmem, rfl⟩

/-- What a job that succeeds writes is its report. -/
theorem writtenFiles_resultActions (directory base : String) (time : Moment)
    (analysis : Analysis Float) :
    writtenFiles (resultActions directory time (base, .ok analysis)) =
      (bundle base time analysis).map fun artifact =>
        (Path.join directory artifact.name, artifact.content) := by
  let fileOf (artifact : Artifact) : String × String :=
    (Path.join directory artifact.name, artifact.content)
  have hwrites : writtenFiles ((bundle base time analysis).map (writeInto directory)) =
      (bundle base time analysis).map fileOf := by
    rw [writtenFiles, List.filterMap_map]
    exact congrFun (List.filterMap_eq_map (f := fileOf)) _
  exact hwrites

theorem map_names_writtenFiles (directory base : String) (time : Moment)
    (analysis : Analysis Float) :
    (writtenFiles (resultActions directory time (base, .ok analysis))).map
        (fun file => Path.names file.1) =
      (endings analysis).map fun ending => Path.names (Path.join directory (base ++ ending)) := by
  have hnames := congrArg (List.map fun name => Path.names (Path.join directory name))
    (map_name_bundle base time analysis)
  rw [List.map_map, List.map_map] at hnames
  rw [writtenFiles_resultActions, List.map_map]
  exact hnames

/-- The files of a report have the same directories and different last names. -/
theorem exists_names_writtenFiles (directory base : String) (time : Moment)
    (analysis : Analysis Float) :
    ∃ before, ∃ last : List String, last.Nodup ∧ (∀ name ∈ last, name ≠ "..") ∧
      (writtenFiles (resultActions directory time (base, .ok analysis))).map
          (fun file => Path.names file.1) =
        last.map fun name => before ++ [name] := by
  obtain ⟨before, first, hnames⟩ := Path.exists_names_join directory base
  refine ⟨before, (endings analysis).map fun ending => first ++ ending, ?_, ?_, ?_⟩
  · exact (nodup_endings analysis).map fun _ _ h => (String.append_right_inj _).mp h
  · rw [List.forall_mem_map]
    intro ending hmem
    refine Path.ne_of_long ?_ ".." (by decide)
    rw [String.toList_append, List.length_append]
    have hlong := (mem_endings_iff.mp hmem).long
    omega
  · rw [map_names_writtenFiles, List.map_map]
    refine List.map_congr_left fun ending hmem => ?_
    have hending := mem_endings_iff.mp hmem
    exact hnames ending hending.long hending.slashFree

theorem nodup_names_writtenFiles (directory base : String) (time : Moment)
    (analysis : Analysis Float) :
    ((writtenFiles (resultActions directory time (base, .ok analysis))).map
      fun file => Path.names file.1).Nodup := by
  obtain ⟨before, last, hnodup, -, heq⟩ := exists_names_writtenFiles directory base time analysis
  rw [heq]
  exact hnodup.map fun _ _ h => List.singleton_inj.mp ((List.append_right_inj _).mp h)

theorem nodup_destination_writtenFiles (directory base : String) (time : Moment)
    (analysis : Analysis Float) :
    ((writtenFiles (resultActions directory time (base, .ok analysis))).map
      fun file => FileTree.destination file.1).Nodup := by
  obtain ⟨before, last, hnodup, hpoints, heq⟩ :=
    exists_names_writtenFiles directory base time analysis
  have hplaces := congrArg (List.map (FileTree.resolve [])) heq
  rw [List.map_map, List.map_map] at hplaces
  have hlast : ∀ name ∈ last, FileTree.resolve [] (before ++ [name]) =
      FileTree.resolve [] before ++ [name] := by
    intro name hname
    rw [FileTree.resolve_append, FileTree.resolve_cons, if_neg (hpoints name hname)]
    rfl
  have hchildren := hplaces.trans (List.map_congr_left hlast)
  refine (congrArg List.Nodup hchildren).mpr ?_
  exact hnodup.map fun _ _ h => List.singleton_inj.mp ((List.append_right_inj _).mp h)

/-! ## The order of the files -/

theorem length_tukeyArtifacts (base : String) (analysis : Analysis Float) :
    (tukeyArtifacts base (completed analysis)).length = (completed analysis).length := by
  rw [tukeyArtifacts, List.length_map, List.length_zip, ← stems, length_stems, Nat.min_self]

/-- The comparisons of a factor follow the table at the place of the factor. -/
theorem getElem?_bundle_tukey {i : ℕ} {factor stem : String} {test : TukeyTest Float}
    (htest : (completed analysis)[i]? = some (factor, test))
    (hstem : (stems analysis)[i]? = some stem) :
    (bundle base time analysis)[i + 1]? =
      some { name := base ++ "_tukey_" ++ stem ++ ".csv", content := tukeyText test
             medium := .delimited } := by
  have hi : i < (tukeyArtifacts base (completed analysis)).length := by
    rw [length_tukeyArtifacts]
    exact (List.getElem?_eq_some_iff.mp htest).1
  have hpair : ((completed analysis).zip (stems analysis))[i]? = some ((factor, test), stem) :=
    List.getElem?_zip_eq_some.mpr ⟨htest, hstem⟩
  rw [bundle, List.getElem?_append_left (by rw [List.length_cons]; omega), List.getElem?_cons_succ,
    tukeyArtifacts, List.getElem?_map, ← stems, hpair]
  rfl

theorem getElem?_bundle_last (base : String) (time : Moment) (analysis : Analysis Float) (i : ℕ) :
    (bundle base time analysis)[(completed analysis).length + 1 + i]? =
      [summaryArtifact base time analysis, jsonArtifact base time analysis][i]? := by
  have hlength : (tableArtifact base analysis :: tukeyArtifacts base (completed analysis)).length =
      (completed analysis).length + 1 := by
    rw [List.length_cons, length_tukeyArtifacts]
  rw [bundle, List.getElem?_append_right (by omega), hlength, Nat.add_sub_cancel_left]

/-! ## What the tables tell -/

/-- The names of the columns of a file of comparisons. -/
def comparisonColumns : List String :=
  ["group1", "group2", "meandiff", "p-adj", "lower", "upper", "reject"]

/-- What a file of comparisons tells about one of them. -/
def comparisonCells (c : PairComparison Float) : List String :=
  [c.first, c.second, Decimal.fixed 4 c.difference, Decimal.fixed 4 c.p, Decimal.fixed 4 c.lower,
    Decimal.fixed 4 c.upper, if c.reject then "True" else "False"]

/-- The file of a test reads as the comparisons of its levels. -/
theorem rows_tukeyText (test : TukeyTest Float) :
    Delimited.rows (Text.utf8 (tukeyText test)) =
      (comparisonColumns :: test.comparisons.map comparisonCells).map (List.map Text.utf8) := by
  have hfirst : (Text.utf8 (Delimited.writtenRow comparisonColumns)).head? = some 0x67 := by
    rw [Text.utf8_eq]
    decide +kernel
  have hcells : ∀ row ∈ comparisonColumns :: test.comparisons.map comparisonCells, row ≠ [] := by
    rw [List.forall_mem_cons, List.forall_mem_map]
    exact ⟨by decide, fun c _ => List.cons_ne_nil _ _⟩
  exact Delimited.rows_written hcells hfirst (by decide)

/-- The file of a table reads as lines that start with the names of its rows. -/
theorem map_head?_rows_tableText (table : VarianceTable Float) :
    (Delimited.rows (Text.utf8 (tableText table))).map List.head? =
      ("term" :: table.effects.map Effect.name ++ ["Residual"]).map
        fun name => some (Text.utf8 name) := by
  have hfirst : (Text.utf8 (Delimited.writtenRow ["term", "sum_sq", "df", "F", "PR(>F)"])).head? =
      some 0x74 := by
    rw [Text.utf8_eq]
    decide +kernel
  simp only [tableText, List.cons_append]
  rw [Delimited.rows_written ?_ hfirst (by decide)]
  · simp [VarianceTable.residualName]
  · rw [List.forall_mem_cons, List.forall_mem_append, List.forall_mem_map]
    simp

/-! ## All files of a report -/

/-- The comparisons that were completed among some outcomes, each with its factor, in their order.
The rules look at the outcomes only. -/
inductive Completions : List (FactorOutcome Float) → List (String × TukeyTest Float) → Prop
  | nil : Completions [] []
  | completed {factor : String} {test : TukeyTest Float} {entries tests} :
      Completions entries tests →
      Completions (⟨factor, .completed test⟩ :: entries) ((factor, test) :: tests)
  | skipped {factor reason : String} {entries tests} : Completions entries tests →
      Completions (⟨factor, .skipped reason⟩ :: entries) tests

theorem completions_completed (analysis : Analysis Float) :
    Completions analysis.postHoc.entries (completed analysis) := by
  unfold completed
  induction analysis.postHoc.entries with
  | nil => exact .nil
  | cons entry entries ih =>
      obtain ⟨factor, test | reason⟩ := entry
      · exact .completed ih
      · exact .skipped ih

/-- Steps that write a report with some completed comparisons into a directory: its table, the
comparisons of each factor, in their order, the summary and the whole report. No file takes the
place of another one, so each holds at the end what was written to it. Only a directory of its name
or a name that is too long stands in the way of a file. -/
structure FilesApart (actions : List Action) (directory base : String) (time : Moment)
    (analysis : Analysis Float) (tests : List (String × TukeyTest Float)) : Prop where
  length_eq : (writtenFiles actions).length = 3 + tests.length
  table : (writtenFiles actions)[0]? =
    some (Path.join directory (base ++ "_anova_table.csv"), tableText analysis.table)
  table_rows : (Delimited.rows (Text.utf8 (tableText analysis.table))).map List.head? =
    ("term" :: analysis.table.effects.map Effect.name ++ ["Residual"]).map
      fun name => some (Text.utf8 name)
  comparisons : ∀ (i : ℕ) (factor : String) (test : TukeyTest Float),
    tests[i]? = some (factor, test) →
      ∃ stem, (FileStem.unique (tests.map Prod.fst))[i]? = some stem ∧
        (writtenFiles actions)[i + 1]? =
          some (Path.join directory (base ++ "_tukey_" ++ stem ++ ".csv"), tukeyText test)
  comparison_rows : ∀ (factor : String) (test : TukeyTest Float), (factor, test) ∈ tests →
    Delimited.rows (Text.utf8 (tukeyText test)) =
      (comparisonColumns :: test.comparisons.map comparisonCells).map (List.map Text.utf8)
  summary : (writtenFiles actions)[tests.length + 1]? =
    some (Path.join directory (base ++ "_anova_summary.txt"), analysis.text time.clock)
  json : (writtenFiles actions)[tests.length + 2]? =
    some (Path.join directory (base ++ "_report.json"), (analysis.toJson time.stamp).pretty)
  apart : ((writtenFiles actions).map fun file => Path.names file.1).Nodup
  kept : ∀ tree tree', carryOut? tree actions = some tree' → ∀ file ∈ writtenFiles actions,
    tree'.content? (FileTree.destination file.1) = some file.2
  written_iff : '/' ∉ base.toList → ∀ tree tree', tree.makeDirectories? directory = some tree' →
    ((carryOut? tree actions).isSome ↔ ∀ artifact ∈ bundle base time analysis,
      ¬tree'.isDirectory (FileTree.destination directory ++ [artifact.name]) ∧
        artifact.name.utf8ByteSize ≤ 255)

/-- A job that succeeds writes its report. -/
theorem filesApart (directory base : String) (time : Moment) (analysis : Analysis Float) :
    FilesApart (resultActions directory time (base, .ok analysis)) directory base time analysis
      (completed analysis) := by
  have hlast := getElem?_bundle_last base time analysis
  have hfiles := writtenFiles_resultActions directory base time analysis
  constructor
  case length_eq =>
    rw [hfiles, List.length_map, bundle, List.length_append, List.length_cons,
      length_tukeyArtifacts]
    simp only [List.length_cons, List.length_nil]
    omega
  case table => rfl
  case table_rows => exact map_head?_rows_tableText analysis.table
  case comparisons =>
    intro i factor test htest
    have hi : i < (stems analysis).length := by
      rw [length_stems]
      exact (List.getElem?_eq_some_iff.mp htest).1
    refine ⟨_, List.getElem?_eq_getElem hi, ?_⟩
    rw [hfiles, List.getElem?_map, getElem?_bundle_tukey htest (List.getElem?_eq_getElem hi)]
    rfl
  case comparison_rows => exact fun _ test _ => rows_tukeyText test
  case summary =>
    rw [hfiles, List.getElem?_map]
    exact congrArg _ (hlast 0)
  case json =>
    rw [hfiles, List.getElem?_map]
    exact congrArg _ (hlast 1)
  case apart => exact nodup_names_writtenFiles directory base time analysis
  case kept =>
    rintro tree tree' h ⟨path, content⟩ hfile
    obtain ⟨action, haction, hwrites⟩ := List.mem_filterMap.mp hfile
    cases action with
    | write path content medium =>
        cases hwrites
        refine content?_of_mem h ?_ haction
        rw [← map_fst_writtenFiles, List.map_map]
        exact nodup_destination_writtenFiles directory base time analysis
    | say text => cases hwrites
    | complain text => cases hwrites
    | makeDirectories path => cases hwrites
  case written_iff =>
    intro hbase tree tree' hmake
    obtain ⟨hplace, hdirectory⟩ := FileTree.place?_of_makeDirectories hmake
    rw [resultActions, carryOut?, carryOut?, hmake, Option.bind_some,
      isSome_carryOut?_iff hplace hdirectory (staysIn_writeInto directory hbase),
      writtenPaths_map_writeInto]
    simp only [List.mem_map]
    constructor
    · exact fun h artifact hmem =>
        h artifact.name (isName_of_mem_bundle hbase hmem) ⟨artifact, hmem, rfl⟩
    · rintro h name hname ⟨artifact, hmem, hpath⟩
      obtain rfl := (Path.join_inj (isName_of_mem_bundle hbase hmem).head?_ne hname.head?_ne).mp
        hpath
      exact h artifact hmem

/-- The stems of names are different and safe. The files of a report, with those of the comparisons
that were completed among the outcomes, are all there in the end, whatever its factors are called. -/
theorem stems_and_files_apart :
    (∀ names, FileStem.StemsFor names (FileStem.unique names)) ∧
      ∀ directory base time analysis, ∃ tests, Completions analysis.postHoc.entries tests ∧
        FilesApart (resultActions directory time (base, .ok analysis)) directory base time
          analysis tests :=
  ⟨FileStem.stemsFor_unique, fun directory base time analysis =>
    ⟨_, completions_completed analysis, filesApart directory base time analysis⟩⟩

end Report

end Significance
