import Significance.Proofs.Stems

/-! # Names of report files

The reports of different inputs start with different stems, but a stem may be the start of another
one. Two reports have a file in common exactly if one of the stems continues the other by what makes
a file of comparisons out of it. -/

namespace Significance

/-! ## Endings -/

namespace Report

/-- What follows the stem in the name of a file, for the stems of the factors that were compared. -/
inductive Ending (stems : List String) : String → Prop
  | table : Ending stems "_anova_table.csv"
  | tukey {stem : String} (h : stem ∈ stems) : Ending stems ("_tukey_" ++ stem ++ ".csv")
  | summary : Ending stems "_anova_summary.txt"
  | json : Ending stems "_report.json"

def stems (analysis : Analysis Float) : List String :=
  FileStem.unique ((completed analysis).map (·.1))

/-- What follows the stem in the names of the files, in the order in which they are written. -/
def endings (analysis : Analysis Float) : List String :=
  "_anova_table.csv" :: ((stems analysis).map fun stem => "_tukey_" ++ stem ++ ".csv") ++
    ["_anova_summary.txt", "_report.json"]

theorem length_stems (analysis : Analysis Float) :
    (stems analysis).length = (completed analysis).length := by
  rw [stems, FileStem.length_unique, List.length_map]

theorem mem_endings_iff {analysis : Analysis Float} {ending : String} :
    ending ∈ endings analysis ↔ Ending (stems analysis) ending := by
  constructor
  · intro hmem
    simp only [endings, List.cons_append, List.mem_cons, List.mem_append, List.mem_map,
      List.not_mem_nil, or_false] at hmem
    rcases hmem with rfl | ⟨stem, hstem, rfl⟩ | rfl | rfl
    · exact .table
    · exact .tukey hstem
    · exact .summary
    · exact .json
  · intro hending
    cases hending with
    | table => simp [endings]
    | tukey h => simp [endings, h]
    | summary => simp [endings]
    | json => simp [endings]

theorem map_name_bundle (base : String) (time : Moment) (analysis : Analysis Float) :
    (bundle base time analysis).map Artifact.name =
      (endings analysis).map fun ending => base ++ ending := by
  have htukey : (tukeyArtifacts base (completed analysis)).map Artifact.name =
      (stems analysis).map fun stem => base ++ ("_tukey_" ++ stem ++ ".csv") := by
    conv_rhs => rw [← List.map_snd_zip (Nat.le_of_eq (length_stems analysis))]
    rw [tukeyArtifacts, List.map_map, List.map_map]
    apply List.map_congr_left
    intro pair _
    simp [String.append_assoc]
  rw [bundle, List.map_append, List.map_cons, htukey]
  simp [endings, tableArtifact, summaryArtifact, jsonArtifact]

theorem exists_artifact_iff {base name : String} {time : Moment} {analysis : Analysis Float} :
    (∃ artifact ∈ bundle base time analysis, artifact.name = name) ↔
      ∃ ending, Ending (stems analysis) ending ∧ name = base ++ ending := by
  rw [← List.mem_map, map_name_bundle, List.mem_map]
  simp only [mem_endings_iff, eq_comm]

end Report

/-! ## One stem the start of another -/

namespace Text

theorem append_eq_append_iff {s t u v : String} :
    s ++ t = u ++ v ↔
      (∃ more, u = s ++ more ∧ t = more ++ v) ∨ ∃ more, s = u ++ more ∧ v = more ++ t := by
  constructor
  · intro h
    have hlists : s.toList ++ t.toList = u.toList ++ v.toList := by
      rw [← String.toList_append, h, String.toList_append]
    rcases List.append_eq_append_iff.mp hlists with ⟨more, hu, ht⟩ | ⟨more, hs, hv⟩
    · refine Or.inl ⟨String.ofList more, ?_, ?_⟩
      · exact String.toList_inj.mp (by simpa using hu)
      · exact String.toList_inj.mp (by simpa using ht)
    · refine Or.inr ⟨String.ofList more, ?_, ?_⟩
      · exact String.toList_inj.mp (by simpa using hs)
      · exact String.toList_inj.mp (by simpa using hv)
  · rintro (⟨more, rfl, rfl⟩ | ⟨more, rfl, rfl⟩)
    · rw [String.append_assoc]
    · rw [String.append_assoc]

theorem append_eq_right_iff {s t : String} : s ++ t = t ↔ s = "" := by
  constructor
  · intro h
    exact (String.append_left_inj t).mp (h.trans String.empty_append.symm)
  · rintro rfl
    exact String.empty_append

theorem append_ne_of_getLast? {s t u : String} (ht : t ≠ "")
    (hlast : t.toList.getLast? ≠ u.toList.getLast?) : s ++ t ≠ u := by
  rintro rfl
  have hne : t.toList ≠ [] := by simpa using ht
  rw [String.toList_append, List.getLast?_append_of_ne_nil _ hne] at hlast
  exact hlast rfl

theorem append_ne_of_mem {s t u : String} {c : Char} (ht : c ∈ t.toList) (hu : c ∉ u.toList) :
    s ++ t ≠ u := by
  rintro rfl
  rw [String.toList_append] at hu
  exact hu (List.mem_append_right _ ht)

theorem head?_append_ne {s t : String} {c : Char} (hs : s.toList.head? ≠ some c)
    (ht : t.toList.head? ≠ some c) : (s ++ t).toList.head? ≠ some c := by
  rw [String.toList_append, List.head?_append]
  cases hhead : s.toList.head? with
  | none => exact ht
  | some d =>
      rw [hhead] at hs
      exact hs

end Text

namespace Path

theorem join_of_head?_ne {path : String} (directory : String)
    (h : path.toList.head? ≠ some '/') :
    join directory path =
      if directory = "" ∨ directory.toList.getLast? = some '/' then directory ++ path
      else directory ++ "/" ++ path :=
  if_neg h

theorem join_inj {directory s t : String} (hs : s.toList.head? ≠ some '/')
    (ht : t.toList.head? ≠ some '/') : join directory s = join directory t ↔ s = t := by
  rw [join_of_head?_ne directory hs, join_of_head?_ne directory ht]
  split
  · exact String.append_right_inj _
  · exact String.append_right_inj _

end Path

namespace Report

theorem Ending.head? {stems : List String} {ending : String} (h : Ending stems ending) :
    ending.toList.head? = some '_' := by
  cases h with
  | table => rfl
  | tukey => simp
  | summary => rfl
  | json => rfl

theorem Ending.head?_append_ne {stems : List String} {base ending : String}
    (h : Ending stems ending) (hbase : base.toList.head? ≠ some '/') :
    (base ++ ending).toList.head? ≠ some '/' :=
  Text.head?_append_ne hbase (by rw [h.head?]; decide)

/-- A text before an underscore that makes a file of comparisons. No underscore stands inside the
word for comparisons, so the whole word belongs to one side or to the other. -/
theorem append_eq_tukey_iff {rest word stem : String} (hrest : rest ≠ "") :
    rest ++ ("_" ++ word) = "_tukey_" ++ stem ↔
      ∃ more, rest = "_tukey" ++ more ∧ "_" ++ stem = more ++ ("_" ++ word) := by
  have hword : "_tukey_" ++ stem = "_tukey" ++ ("_" ++ stem) := by
    rw [← String.append_assoc]
    rfl
  rw [hword, Text.append_eq_append_iff]
  refine ⟨?_, Or.inr⟩
  rintro (⟨more, hmore, hstem⟩ | h)
  · have hrestChars : rest.toList ≠ [] := by simpa using hrest
    obtain ⟨d, before, hbefore⟩ := List.exists_cons_of_ne_nil hrestChars
    cases hchars : more.toList with
    | nil =>
        obtain rfl : more = "" := by simpa using hchars
        rw [String.append_empty] at hmore
        rw [String.empty_append] at hstem
        exact ⟨"", by rw [hmore, String.append_empty], by rw [hstem, String.empty_append]⟩
    | cons c after =>
        have hfirst := congrArg String.toList hstem
        have hall := congrArg String.toList hmore
        simp only [String.toList_append, hchars, hbefore] at hfirst hall
        obtain rfl : '_' = c := (List.cons.inj hfirst).1
        have hmem : '_' ∈ "tukey".toList := by
          have htail : "tukey".toList = before ++ '_' :: after := (List.cons.inj hall).2
          simp [htail]
        exact absurd hmem (by decide)
  · exact h

theorem append_csv_eq_tukey_iff {rest word stem : String} (hrest : rest ≠ "") :
    rest ++ ("_" ++ word ++ ".csv") = "_tukey_" ++ stem ++ ".csv" ↔
      ∃ more, rest = "_tukey" ++ more ∧ "_" ++ stem = more ++ ("_" ++ word) := by
  rw [← String.append_assoc, String.append_left_inj, append_eq_tukey_iff hrest]

/-- Only an ending of comparisons can end in another ending, which is then that of a table or of
comparisons: the others differ in the last letter, or hold no `k`. -/
theorem Ending.tukey_of_append {stems others : List String} {rest ending : String}
    (hrest : rest ≠ "") (hending : Ending others ending) (hwhole : Ending stems (rest ++ ending)) :
    (∃ stem ∈ stems, rest ++ ending = "_tukey_" ++ stem ++ ".csv") ∧
      (ending = "_anova_table.csv" ∨ ∃ other ∈ others, ending = "_tukey_" ++ other ++ ".csv") := by
  have hletter : ∀ other : String, 'k' ∈ ("_tukey_" ++ other ++ ".csv").toList := by
    simp
  have hlast : ∀ stem : String, ("_tukey_" ++ stem ++ ".csv").toList.getLast? = some 'v' := by
    intro stem
    rw [String.toList_append, List.getLast?_append_of_ne_nil _ (by decide)]
    rfl
  have hself : rest ++ ending ≠ ending := fun h => hrest (Text.append_eq_right_iff.mp h)
  generalize heq : rest ++ ending = whole at hwhole
  cases hwhole with
  | tukey hstem =>
      refine ⟨⟨_, hstem, rfl⟩, ?_⟩
      cases hending with
      | table => exact Or.inl rfl
      | tukey hother => exact Or.inr ⟨_, hother, rfl⟩
      | summary =>
          exact absurd heq (Text.append_ne_of_getLast? (by decide) (by rw [hlast]; decide))
      | json =>
          exact absurd heq (Text.append_ne_of_getLast? (by decide) (by rw [hlast]; decide))
  | table =>
      cases hending with
      | tukey h => exact absurd heq (Text.append_ne_of_mem (hletter _) (by decide))
      | table => exact absurd heq hself
      | summary => exact absurd heq (Text.append_ne_of_getLast? (by decide) (by decide))
      | json => exact absurd heq (Text.append_ne_of_getLast? (by decide) (by decide))
  | summary =>
      cases hending with
      | tukey h => exact absurd heq (Text.append_ne_of_mem (hletter _) (by decide))
      | table => exact absurd heq (Text.append_ne_of_getLast? (by decide) (by decide))
      | summary => exact absurd heq hself
      | json => exact absurd heq (Text.append_ne_of_getLast? (by decide) (by decide))
  | json =>
      cases hending with
      | tukey h => exact absurd heq (Text.append_ne_of_mem (hletter _) (by decide))
      | table => exact absurd heq (Text.append_ne_of_getLast? (by decide) (by decide))
      | summary => exact absurd heq (Text.append_ne_of_getLast? (by decide) (by decide))
      | json => exact absurd heq hself

/-- A file of a report is a file of another one, with a longer stem, exactly if it is a file of
comparisons whose name holds the rest of that stem. -/
theorem Ending.append_iff {stems others : List String} {rest : String} (hrest : rest ≠ "") :
    (∃ ending, Ending others ending ∧ Ending stems (rest ++ ending)) ↔
      ∃ more, rest = "_tukey" ++ more ∧ ∃ stem ∈ stems, "_" ++ stem = more ++ "_anova_table" ∨
        ∃ other ∈ others, "_" ++ stem = more ++ ("_tukey_" ++ other) := by
  have htable : "_anova_table.csv" = "_" ++ "anova_table" ++ ".csv" := rfl
  have htukey : ∀ other : String, "_tukey_" ++ other = "_" ++ ("tukey_" ++ other) := by
    intro other
    rw [← String.append_assoc]
    rfl
  constructor
  · rintro ⟨ending, hending, hwhole⟩
    obtain ⟨⟨stem, hstem, hname⟩, rfl | ⟨other, hother, rfl⟩⟩ :=
      hending.tukey_of_append hrest hwhole
    · rw [htable] at hname
      obtain ⟨more, hmore, heq⟩ := (append_csv_eq_tukey_iff hrest).mp hname
      exact ⟨more, hmore, stem, hstem, Or.inl heq⟩
    · rw [htukey other] at hname
      obtain ⟨more, hmore, heq⟩ := (append_csv_eq_tukey_iff hrest).mp hname
      exact ⟨more, hmore, stem, hstem, Or.inr ⟨other, hother, (htukey other).symm ▸ heq⟩⟩
  · rintro ⟨more, rfl, stem, hstem, heq | ⟨other, hother, heq⟩⟩
    · have hname : "_tukey" ++ more ++ "_anova_table.csv" = "_tukey_" ++ stem ++ ".csv" := by
        rw [htable]
        exact (append_csv_eq_tukey_iff hrest).mpr ⟨more, rfl, heq⟩
      exact ⟨_, .table, hname ▸ .tukey hstem⟩
    · have hname : "_tukey" ++ more ++ ("_tukey_" ++ other ++ ".csv") =
          "_tukey_" ++ stem ++ ".csv" := by
        rw [htukey] at heq ⊢
        exact (append_csv_eq_tukey_iff hrest).mpr ⟨more, rfl, heq⟩
      exact ⟨_, .tukey hother, hname ▸ .tukey hstem⟩

end Report

/-! ## Files of two jobs -/

namespace Program

open Report

/-- The paths of the files that are written. -/
def writtenPaths (actions : List Action) : List String :=
  actions.filterMap fun
    | .write path _ _ => some path
    | _ => none

/-- The path of the file that a step writes, and what the file is to hold. -/
def Action.file? : Action → Option (String × String)
  | .write path content _ => some (path, content)
  | _ => none

/-- The files that are written, in their order. -/
def writtenFiles (actions : List Action) : List (String × String) :=
  actions.filterMap Action.file?

theorem map_fst_writtenFiles (actions : List Action) :
    (writtenFiles actions).map Prod.fst = writtenPaths actions := by
  rw [writtenFiles, writtenPaths, List.map_filterMap]
  apply List.filterMap_congr
  intro action _
  cases action <;> rfl

/-- A report makes a file of comparisons that is a file of another report, whose stem continues its
own. -/
def Shadows (stem : String) (analysis : Analysis Float) (other : String)
    (otherAnalysis : Analysis Float) : Prop :=
  ∃ more, other = stem ++ ("_tukey" ++ more) ∧ ∃ factor ∈ Report.stems analysis,
    "_" ++ factor = more ++ "_anova_table" ∨
      ∃ otherFactor ∈ Report.stems otherAnalysis, "_" ++ factor = more ++ ("_tukey_" ++ otherFactor)

theorem writtenPaths_map_writeInto (directory : String) (artifacts : List Artifact) :
    writtenPaths (artifacts.map (writeInto directory)) =
      artifacts.map fun artifact => Path.join directory artifact.name := by
  let pathOf (artifact : Artifact) : String := Path.join directory artifact.name
  rw [writtenPaths, List.filterMap_map]
  exact congrFun (List.filterMap_eq_map (f := pathOf)) artifacts

theorem mem_writtenPaths_iff {output path name : String} {time : Moment}
    {analysis : Analysis Float} :
    path ∈ writtenPaths (resultActions output time (name, .ok analysis)) ↔
      ∃ ending, Ending (Report.stems analysis) ending ∧
        path = Path.join output (name ++ ending) := by
  have hpaths : writtenPaths (resultActions output time (name, .ok analysis)) =
      (bundle name time analysis).map fun artifact => Path.join output artifact.name :=
    writtenPaths_map_writeInto output _
  rw [hpaths, List.mem_map]
  constructor
  · rintro ⟨artifact, hmem, rfl⟩
    obtain ⟨ending, hending, hname⟩ := exists_artifact_iff.mp ⟨artifact, hmem, rfl⟩
    exact ⟨ending, hending, congrArg _ hname⟩
  · rintro ⟨ending, hending, rfl⟩
    obtain ⟨artifact, hmem, hname⟩ := exists_artifact_iff.mpr ⟨ending, hending, rfl⟩
    exact ⟨artifact, hmem, congrArg _ hname⟩

/-- A report with a longer stem writes a file of the report with the shorter one exactly if it is
shadowed. -/
theorem exists_shared_append_iff {output m rest : String} {time : Moment} {a b : Analysis Float}
    (hm : m.toList.head? ≠ some '/') (hn : (m ++ rest).toList.head? ≠ some '/')
    (hrest : rest ≠ "") :
    (∃ path, path ∈ writtenPaths (resultActions output time (m, .ok a)) ∧
        path ∈ writtenPaths (resultActions output time (m ++ rest, .ok b))) ↔
      Shadows m a (m ++ rest) b := by
  simp only [mem_writtenPaths_iff, Shadows, String.append_right_inj]
  rw [← Ending.append_iff hrest]
  constructor
  · rintro ⟨_, ⟨ending, hending, rfl⟩, other, hother, heq⟩
    have hsame :=
      (Path.join_inj (hending.head?_append_ne hm) (hother.head?_append_ne hn)).mp heq
    rw [String.append_assoc, String.append_right_inj] at hsame
    exact ⟨other, hother, hsame ▸ hending⟩
  · rintro ⟨other, hother, hending⟩
    exact ⟨_, ⟨_, hending, rfl⟩, other, hother, by rw [String.append_assoc]⟩

theorem exists_shared_iff {output m n : String} {time : Moment} {a b : Analysis Float}
    (hm : m.toList.head? ≠ some '/') (hn : n.toList.head? ≠ some '/') (hne : m ≠ n) :
    (∃ path, path ∈ writtenPaths (resultActions output time (m, .ok a)) ∧
        path ∈ writtenPaths (resultActions output time (n, .ok b))) ↔
      Shadows m a n b ∨ Shadows n b m a := by
  have hrest : ∀ {s t rest : String}, s ≠ t → t = s ++ rest → rest ≠ "" := by
    rintro s t rest hne heq rfl
    exact hne (heq.trans String.append_empty).symm
  constructor
  · rintro ⟨path, ha, hb⟩
    obtain ⟨ending, hending, hpath⟩ := mem_writtenPaths_iff.mp ha
    obtain ⟨ending', hending', hpath'⟩ := mem_writtenPaths_iff.mp hb
    have hnames := (Path.join_inj (hending.head?_append_ne hm) (hending'.head?_append_ne hn)).mp
      (hpath.symm.trans hpath')
    rcases Text.append_eq_append_iff.mp hnames with ⟨rest, rfl, -⟩ | ⟨rest, rfl, -⟩
    · exact Or.inl ((exists_shared_append_iff hm hn (hrest hne rfl)).mp ⟨path, ha, hb⟩)
    · exact Or.inr ((exists_shared_append_iff hn hm (hrest hne.symm rfl)).mp ⟨path, hb, ha⟩)
  · rintro (h | h)
    · obtain ⟨more, rfl, -⟩ := id h
      exact (exists_shared_append_iff hm hn (hrest hne rfl)).mpr h
    · obtain ⟨more, rfl, -⟩ := id h
      obtain ⟨path, hb, ha⟩ := (exists_shared_append_iff hn hm (hrest hne.symm rfl)).mpr h
      exact ⟨path, ha, hb⟩

/-- The reports of two inputs have a file in common exactly if one of them shadows the other. -/
theorem shared_path_iff (inputs : List String) (output : String) (time : Moment) {i j : ℕ}
    {m n : String} (hm : (FileStem.unique (inputs.map baseName))[i]? = some m)
    (hn : (FileStem.unique (inputs.map baseName))[j]? = some n) (hij : i ≠ j)
    (a b : Analysis Float) :
    (∃ path, path ∈ writtenPaths (resultActions output time (m, .ok a)) ∧
        path ∈ writtenPaths (resultActions output time (n, .ok b))) ↔
      Shadows m a n b ∨ Shadows n b m a := by
  have hhead : ∀ {k : ℕ} {stem : String},
      (FileStem.unique (inputs.map baseName))[k]? = some stem → stem.toList.head? ≠ some '/' :=
    fun hget hslash => FileStem.slash_notMem_of_mem_unique (List.mem_of_getElem? hget)
      (List.mem_of_mem_head? hslash)
  apply exists_shared_iff (hhead hm) (hhead hn)
  rintro rfl
  have hnodup := FileStem.nodup_unique (inputs.map baseName)
  obtain ⟨hlt, -⟩ := List.getElem?_eq_some_iff.mp hm
  exact hij ((List.getElem?_inj hlt hnodup).mp (hm.trans hn.symm))

/-! ## A factor named like a table -/

def comparedTable : TukeyTest Float :=
  ⟨"anova_table", 0.05, ["s", "t"], [2, 2], [1.5, 5.5], 0.5, 2, 6,
    [⟨"s", "t", 4, 0.03, 1, 7, true⟩]⟩

/-- An analysis by a field whose name is that of a table in a file name. -/
def tableAnalysis : Analysis Float where
  target := "cost"
  field := "cost"
  normalized := false
  reference := none
  factors := ["anova_table"]
  table := ⟨.oneWay, "cost", "cost ~ anova_table", [⟨⟨["anova_table"]⟩, 16, 1, 32, 0.03⟩],
    ⟨1, 2⟩, 4⟩
  postHoc := ⟨[⟨"anova_table", .completed comparedTable⟩]⟩
  data := ⟨[]⟩

theorem stems_tableAnalysis : Report.stems tableAnalysis = ["anova_table"] := by
  decide +kernel

/-- The comparisons of one input and the table of another are written to one file. Unrelated stems
have no file in common. -/
theorem shared_path_iff_runs :
    (∃ path, path ∈ writtenPaths (resultActions "out" ⟨"", ""⟩ ("runs", .ok tableAnalysis)) ∧
      path ∈ writtenPaths (resultActions "out" ⟨"", ""⟩ ("runs_tukey", .ok tableAnalysis))) ∧
    ¬∃ path, path ∈ writtenPaths (resultActions "out" ⟨"", ""⟩ ("runs", .ok tableAnalysis)) ∧
      path ∈ writtenPaths (resultActions "out" ⟨"", ""⟩ ("trials", .ok tableAnalysis)) := by
  constructor
  · have hnames : FileStem.unique (["runs.csv", "runs_tukey.csv"].map baseName) =
        ["runs", "runs_tukey"] := by decide +kernel
    have hiff := shared_path_iff ["runs.csv", "runs_tukey.csv"] "out" ⟨"", ""⟩ (i := 0) (j := 1)
      (by rw [hnames]; rfl) (by rw [hnames]; rfl) (by decide) tableAnalysis tableAnalysis
    apply hiff.mpr
    exact Or.inl ⟨"", rfl, "anova_table", by rw [stems_tableAnalysis]; simp, Or.inl rfl⟩
  · have hnames : FileStem.unique (["runs.csv", "trials.csv"].map baseName) =
        ["runs", "trials"] := by decide +kernel
    have hiff := shared_path_iff ["runs.csv", "trials.csv"] "out" ⟨"", ""⟩ (i := 0) (j := 1)
      (by rw [hnames]; rfl) (by rw [hnames]; rfl) (by decide) tableAnalysis tableAnalysis
    rw [hiff]
    rintro (⟨more, hname, -⟩ | ⟨more, hname, -⟩)
    · simpa using congrArg (fun name : String => name.toList.head?) hname
    · simpa using congrArg (fun name : String => name.toList.head?) hname

/-- Different stems do not keep the files of two reports apart. -/
theorem not_forall_disjoint :
    ¬∀ (inputs : List String) (output : String) (time : Moment) (i j : ℕ) (m n : String),
      (FileStem.unique (inputs.map baseName))[i]? = some m →
      (FileStem.unique (inputs.map baseName))[j]? = some n → i ≠ j →
      ∀ a b : Analysis Float, ∀ path ∈ writtenPaths (resultActions output time (m, .ok a)),
        path ∉ writtenPaths (resultActions output time (n, .ok b)) := by
  intro hall
  have hdisjoint := hall ["runs.csv", "runs_tukey.csv"] "out" ⟨"", ""⟩ 0 1 "runs" "runs_tukey"
    (by decide +kernel) (by decide +kernel) (by decide) tableAnalysis tableAnalysis
    "out/runs_tukey_anova_table.csv"
  exact hdisjoint (by decide +kernel) (by decide +kernel)

end Program

end Significance
