import Significance.Proofs.ReportBundle
import Significance.Proofs.Success

/-! # Several inputs in one run

All inputs are read before anything is written. Then every input has the report of a run on it
alone: an analysis that fails is told and counted, and leaves the files of the others as they are.
Only a statistic without a tail ends all of them. -/

namespace Significance

open Success

namespace Program

open Report (Moment)

variable {d : Distribution Float} {arguments : AnovaArguments} {time : Moment}
  {found : String → Loading.Found}

/-! ## Results of the jobs -/

/-- The stems that the inputs have in the names of their files. -/
def outputStems (arguments : AnovaArguments) : List String :=
  FileStem.unique (arguments.inputs.map baseName)

/-- Whether an input can be read. -/
def Loads (found : String → Loading.Found) (path : String) : Prop :=
  ∃ data : Dataset Float, Loading.load path (found path) = .ok data

/-- The analysis of one input, whatever the other inputs are. -/
def analyzeAlone (d : Distribution Float) (arguments : AnovaArguments)
    (found : String → Loading.Found) (path : String) : Except (Error Float) (Analysis Float) := do
  let data ← Loading.load path (found path)
  Analysis.run d data arguments.target arguments.factors (analysisOptions arguments)

/-- The analyses of all inputs, each alone, under the stems of the inputs. -/
def resultsAlone (d : Distribution Float) (arguments : AnovaArguments)
    (found : String → Loading.Found) : List JobResult :=
  (outputStems arguments).zip (arguments.inputs.map (analyzeAlone d arguments found))

/-- A job on data that was read. -/
def jobOf (arguments : AnovaArguments) (entry : String × Dataset Float) : Analysis.Job Float :=
  { name := entry.1, data := entry.2, target := arguments.target, factors := arguments.factors
    options := analysisOptions arguments }

/-- Reading the inputs comes before all jobs. -/
theorem jobs_eq (arguments : AnovaArguments) (found : String → Loading.Found) :
    jobs arguments found =
      (arguments.inputs.mapM fun path => Loading.load path (found path)).map fun datas =>
        ((outputStems arguments).zip datas).map (jobOf arguments) := by
  have hlength : (outputStems arguments).length = arguments.inputs.length := by
    rw [outputStems, FileStem.length_unique, List.length_map]
  unfold jobs
  rw [← outputStems]
  dsimp only
  generalize outputStems arguments = names at hlength
  generalize arguments.inputs = inputs at hlength
  induction inputs generalizing names with
  | nil =>
      rw [List.length_nil, List.length_eq_zero_iff] at hlength
      subst hlength
      rfl
  | cons path inputs ih =>
      obtain ⟨name, names, rfl⟩ := List.exists_cons_of_length_eq_add_one hlength
      rw [List.length_cons, List.length_cons, Nat.add_right_cancel_iff] at hlength
      rw [List.zip_cons_cons, List.mapM_cons, List.mapM_cons, ih names hlength]
      cases Loading.load path (found path) with
      | error e => rfl
      | ok data =>
          cases inputs.mapM fun path => Loading.load path (found path) with
          | error e => rfl
          | ok datas => rfl

theorem batch_map_jobOf (names : List String) (datas : List (Dataset Float)) :
    Analysis.batch d ((names.zip datas).map (jobOf arguments)) =
      names.zip (datas.map fun data => Analysis.run d data arguments.target arguments.factors
        (analysisOptions arguments)) := by
  rw [Analysis.batch, List.map_map, List.zip_map_right]
  rfl

theorem planAnova_of_mapM_eq_ok {datas : List (Dataset Float)}
    (h : (arguments.inputs.mapM fun path => Loading.load path (found path)) = .ok datas) :
    planAnova d arguments time found =
      planResults arguments.output time (resultsAlone d arguments found) := by
  have hresults : datas.map (fun data => Analysis.run d data arguments.target arguments.factors
      (analysisOptions arguments)) = arguments.inputs.map (analyzeAlone d arguments found) := by
    apply map_of_mapM_eq_ok h
    intro path _ data hdata
    rw [analyzeAlone, hdata, ok_bind]
  rw [planAnova, jobs_eq, h]
  change planResults _ _ (Analysis.batch d _) = _
  rw [batch_map_jobOf, hresults, resultsAlone]

/-- Where all inputs can be read each is analysed as if it were alone. -/
theorem planAnova_of_loads (h : ∀ path ∈ arguments.inputs, Loads found path) :
    planAnova d arguments time found =
      planResults arguments.output time (resultsAlone d arguments found) := by
  obtain ⟨datas, hdatas⟩ := exists_mapM_eq_ok h
  exact planAnova_of_mapM_eq_ok hdatas

/-- The first input that cannot be read ends the program at once. -/
theorem planAnova_of_error {before after : List String} {path : String} {e : Error Float}
    (hinputs : arguments.inputs = before ++ path :: after)
    (hbefore : ∀ other ∈ before, Loads found other)
    (h : Loading.load path (found path) = .error e) :
    planAnova d arguments time found = failed e := by
  have hload : (arguments.inputs.mapM fun path => Loading.load path (found path)) = .error e := by
    obtain ⟨datas, hdatas⟩ := exists_mapM_eq_ok hbefore
    rw [hinputs, List.mapM_append, List.mapM_cons, hdatas, h]
    rfl
  rw [planAnova, jobs_eq, hload]
  rfl

theorem planAnova_eq_failed_or (d : Distribution Float) (arguments : AnovaArguments)
    (time : Moment) (found : String → Loading.Found) :
    (∃ e, planAnova d arguments time found = failed e) ∨
      planAnova d arguments time found =
        planResults arguments.output time (resultsAlone d arguments found) := by
  cases h : arguments.inputs.mapM fun path => Loading.load path (found path) with
  | error e =>
      refine Or.inl ⟨e, ?_⟩
      rw [planAnova, jobs_eq, h]
      rfl
  | ok datas => exact Or.inr (planAnova_of_mapM_eq_ok h)

/-! ## Steps of the jobs -/

/-- What a job says. -/
def reportText? (time : Moment) : JobResult → Option String
  | (_, .ok analysis) => some (analysis.text time.clock ++ "\n")
  | (_, .error _) => none

/-- What a job that failed complains about. -/
def complaint? : JobResult → Option String
  | (name, .error e) => some ("Error in " ++ name ++ ": " ++ e.message ++ "\n")
  | (_, .ok _) => none

/-- The files that a job writes. -/
def filesOf (time : Moment) : JobResult → List Report.Artifact
  | (name, .ok analysis) => Report.bundle name time analysis
  | (_, .error _) => []

variable {output : String} {results : List JobResult}

theorem writtenPaths_resultActions (output : String) (time : Moment) (result : JobResult) :
    writtenPaths (resultActions output time result) =
      (filesOf time result).map fun artifact => Path.join output artifact.name := by
  obtain ⟨name, e | analysis⟩ := result
  · rfl
  · exact writtenPaths_map_writeInto output (Report.bundle name time analysis)

theorem saidTexts_resultActions (output : String) (time : Moment) (result : JobResult) :
    saidTexts (resultActions output time result) = (reportText? time result).toList := by
  obtain ⟨name, e | analysis⟩ := result
  · rfl
  · simp [saidTexts, resultActions, reportText?, writeInto]

theorem complaintTexts_resultActions (output : String) (time : Moment) (result : JobResult) :
    complaintTexts (resultActions output time result) = (complaint? result).toList := by
  obtain ⟨name, e | analysis⟩ := result
  · rfl
  · simp [complaintTexts, resultActions, complaint?, writeInto]

theorem staysIn_resultActions {result : JobResult} (hname : '/' ∉ result.1.toList) :
    ∀ action ∈ resultActions output time result, StaysIn output action := by
  obtain ⟨name, e | analysis⟩ := result
  · simp [resultActions, StaysIn]
  · rw [resultActions, List.forall_mem_cons, List.forall_mem_cons]
    exact ⟨trivial, rfl, Report.staysIn_writeInto output hname⟩

theorem nodup_writtenPaths_resultActions (output : String) (time : Moment) (result : JobResult) :
    (writtenPaths (resultActions output time result)).Nodup := by
  obtain ⟨name, e | analysis⟩ := result
  · exact List.nodup_nil
  · rw [← map_fst_writtenFiles]
    apply List.Nodup.of_map Path.names
    rw [List.map_map]
    exact Report.nodup_names_writtenFiles output name time analysis

/-- Of files right in a directory only those at the same path are at the same place. -/
theorem nodup_destinations {actions : List Action}
    (hstays : ∀ action ∈ actions, StaysIn output action) (hnodup : (writtenPaths actions).Nodup) :
    ((writtenPaths actions).map FileTree.destination).Nodup := by
  have hname : ∀ path ∈ writtenPaths actions,
      ∃ name, Path.IsName name ∧ path = Path.join output name := by
    intro path hpath
    obtain ⟨action, haction, hwrites⟩ := List.mem_filterMap.mp hpath
    cases action with
    | write path content medium =>
        obtain rfl := Option.some.inj hwrites
        exact hstays _ haction
    | say text => cases hwrites
    | complain text => cases hwrites
    | makeDirectories path => cases hwrites
  refine hnodup.map_on fun path hpath other hother h => ?_
  obtain ⟨name, hname₁, rfl⟩ := hname path hpath
  obtain ⟨name', hname₂, rfl⟩ := hname other hother
  rw [FileTree.destination_join output hname₁, FileTree.destination_join output hname₂,
    List.append_right_inj, List.singleton_inj] at h
  rw [h]

/-! ## The plan -/

/-- No two jobs write a file at the same path. -/
def Apart (output : String) (time : Moment) (results : List JobResult) : Prop :=
  results.Pairwise fun a b => ∀ path ∈ writtenPaths (resultActions output time a),
    path ∉ writtenPaths (resultActions output time b)

theorem writtenPaths_flatMap (output : String) (time : Moment) (results : List JobResult) :
    writtenPaths (results.flatMap (resultActions output time)) =
      results.flatMap fun result => writtenPaths (resultActions output time result) :=
  List.filterMap_flatMap

theorem Apart.nodup (h : Apart output time results) :
    (writtenPaths (results.flatMap (resultActions output time))).Nodup := by
  rw [writtenPaths_flatMap, List.nodup_flatMap]
  exact ⟨fun result _ => nodup_writtenPaths_resultActions output time result, h⟩

theorem saidTexts_append (actions more : List Action) :
    saidTexts (actions ++ more) = saidTexts actions ++ saidTexts more :=
  List.filterMap_append

theorem complaintTexts_append (actions more : List Action) :
    complaintTexts (actions ++ more) = complaintTexts actions ++ complaintTexts more :=
  List.filterMap_append

theorem saidTexts_flatMap (output : String) (time : Moment) (results : List JobResult) :
    saidTexts (results.flatMap (resultActions output time)) =
      results.filterMap (reportText? time) := by
  have hresults : saidTexts (results.flatMap (resultActions output time)) =
      results.flatMap fun result => saidTexts (resultActions output time result) :=
    List.filterMap_flatMap
  rw [hresults, List.filterMap_eq_flatMap_toList]
  exact congrArg results.flatMap (funext (saidTexts_resultActions output time))

theorem complaintTexts_flatMap (output : String) (time : Moment) (results : List JobResult) :
    complaintTexts (results.flatMap (resultActions output time)) =
      results.filterMap complaint? := by
  have hresults : complaintTexts (results.flatMap (resultActions output time)) =
      results.flatMap fun result => complaintTexts (resultActions output time result) :=
    List.filterMap_flatMap
  rw [hresults, List.filterMap_eq_flatMap_toList]
  exact congrArg results.flatMap (funext (complaintTexts_resultActions output time))

theorem isBroken_iff {result : JobResult} :
    isBroken result = true ↔ result.2 = .error .undefinedTail := by
  unfold isBroken
  split
  · next h => simp [h]
  · next h => simpa using h

/-- The complaint about all jobs that failed. -/
def failureCount (results : List JobResult) : Action :=
  lastWords (.invalidInput (.failedAnalyses (results.countP isFailure) results.length))

theorem planResults_of_broken (h : ∃ result ∈ results, result.2 = .error .undefinedTail) :
    planResults output time results = ⟨[], brokenStatus⟩ := by
  obtain ⟨result, hmem, hbroken⟩ := h
  rw [planResults, if_pos (List.any_eq_true.mpr ⟨result, hmem, isBroken_iff.mpr hbroken⟩)]

theorem planResults_eq (output : String) (time : Moment)
    (h : ∀ result ∈ results, result.2 ≠ .error .undefinedTail) :
    planResults output time results =
      if results.countP isFailure = 0 then ⟨results.flatMap (resultActions output time), 0⟩
      else ⟨results.flatMap (resultActions output time) ++ [failureCount results], 1⟩ := by
  have hbroken : ¬results.any isBroken = true := by
    rw [List.any_eq_true]
    rintro ⟨result, hmem, hbroken⟩
    exact h result hmem (isBroken_iff.mp hbroken)
  rw [planResults, if_neg hbroken, failureCount, List.countP_eq_length_filter]

/-- A file of the report of an input whose analysis alone succeeds. -/
def IsReportFile (d : Distribution Float) (arguments : AnovaArguments) (time : Moment)
    (found : String → Loading.Found) (artifact : Report.Artifact) : Prop :=
  ∃ (i : ℕ) (path stem : String) (analysis : Analysis Float), arguments.inputs[i]? = some path ∧
    (outputStems arguments)[i]? = some stem ∧
    analyzeAlone d arguments found path = .ok analysis ∧
    artifact ∈ Report.bundle stem time analysis

theorem isReportFile_iff {artifact : Report.Artifact} :
    IsReportFile d arguments time found artifact ↔
      ∃ result ∈ resultsAlone d arguments found, artifact ∈ filesOf time result := by
  constructor
  · rintro ⟨i, path, stem, analysis, hpath, hstem, halone, hmem⟩
    have hresult : (resultsAlone d arguments found)[i]? = some (stem, .ok analysis) := by
      rw [resultsAlone, List.getElem?_zip_eq_some, List.getElem?_map, hpath, ← halone]
      exact ⟨hstem, rfl⟩
    exact ⟨_, List.mem_of_getElem? hresult, hmem⟩
  · rintro ⟨⟨stem, result⟩, hresult, hmem⟩
    obtain ⟨i, hget⟩ := List.mem_iff_getElem?.mp hresult
    rw [resultsAlone, List.getElem?_zip_eq_some, List.getElem?_map, Option.map_eq_some_iff] at hget
    obtain ⟨hstem, path, hpath, rfl⟩ := hget
    cases halone : analyzeAlone d arguments found path with
    | error e => simp [filesOf, halone] at hmem
    | ok analysis =>
        rw [filesOf.eq_def, halone] at hmem
        exact ⟨i, path, stem, analysis, hpath, hstem, halone, hmem⟩

/-- What analyses that do not touch each other lead to. Each report that a run on its input alone
gives is there under the stem of the input, and nothing else has changed. The program fails exactly
if some job did, and tells how many did. -/
structure Isolated (d : Distribution Float) (arguments : AnovaArguments) (time : Moment)
    (tree : FileTree) (outcome : Outcome) : Prop where
  written : ∀ artifact, IsReportFile d arguments time tree.find artifact →
    outcome.tree.content? (FileTree.destination (Path.join arguments.output artifact.name)) =
      some artifact.content
  kept : ∀ place, (∀ artifact, IsReportFile d arguments time tree.find artifact →
      place ≠ FileTree.destination (Path.join arguments.output artifact.name)) →
    outcome.tree.content? place = tree.content? place
  said_eq : outcome.said = (resultsAlone d arguments tree.find).filterMap (reportText? time)
  succeeded : (∀ path ∈ arguments.inputs, ∃ analysis,
      analyzeAlone d arguments tree.find path = .ok analysis) →
    outcome.status = 0 ∧ outcome.complaints = []
  failed : (∃ path ∈ arguments.inputs, ∃ e, analyzeAlone d arguments tree.find path = .error e) →
    outcome.status = 1 ∧ outcome.complaints =
      (resultsAlone d arguments tree.find).filterMap complaint? ++
        ["Error: " ++ (Error.invalidInput (.failedAnalyses
          (arguments.inputs.countP fun path =>
            !(analyzeAlone d arguments tree.find path).isOk)
          arguments.inputs.length) : Error Float).message ++ "\n"]

theorem map_snd_resultsAlone (d : Distribution Float) (arguments : AnovaArguments)
    (found : String → Loading.Found) :
    (resultsAlone d arguments found).map Prod.snd =
      arguments.inputs.map (analyzeAlone d arguments found) := by
  apply List.map_snd_zip
  simp only [List.length_map, outputStems, FileStem.length_unique, Nat.le_refl]

theorem exists_of_mem_resultsAlone {result : JobResult}
    (h : result ∈ resultsAlone d arguments found) :
    ∃ path ∈ arguments.inputs, analyzeAlone d arguments found path = result.2 := by
  have hmem := List.mem_map_of_mem (f := Prod.snd) h
  rw [map_snd_resultsAlone] at hmem
  exact List.mem_map.mp hmem

theorem countP_resultsAlone (d : Distribution Float) (arguments : AnovaArguments)
    (found : String → Loading.Found) :
    (resultsAlone d arguments found).countP isFailure =
      arguments.inputs.countP fun path => !(analyzeAlone d arguments found path).isOk := by
  have hfailure : isFailure = (fun result => !result.isOk) ∘ Prod.snd := by
    funext result
    obtain ⟨name, e | analysis⟩ := result
    · rfl
    · rfl
  rw [hfailure, ← List.countP_map, map_snd_resultsAlone, List.countP_map]
  rfl

theorem writeInto_mem (output : String) {result : JobResult} {artifact : Report.Artifact}
    (h : artifact ∈ filesOf time result) :
    writeInto output artifact ∈ resultActions output time result := by
  obtain ⟨name, e | analysis⟩ := result
  · simp [filesOf] at h
  · exact List.mem_cons_of_mem _ (List.mem_cons_of_mem _ (List.mem_map_of_mem h))

theorem staysIn_resultsAlone :
    ∀ action ∈ (resultsAlone d arguments found).flatMap (resultActions arguments.output time),
      StaysIn arguments.output action := by
  rw [List.forall_mem_flatMap]
  intro result hmem
  exact staysIn_resultActions
    (FileStem.slash_notMem_of_mem_unique (List.of_mem_zip (a := result.1) (b := result.2) hmem).1)

theorem carryOut?_complaints {tree tree' : FileTree} {actions : List Action} {text : String}
    (h : carryOut? tree (actions ++ [.complain text]) = some tree') :
    carryOut? tree actions = some tree' := by
  rw [carryOut?_append] at h
  obtain ⟨_, hactions, hlast⟩ := Option.bind_eq_some_iff.mp h
  rwa [Option.some.inj hlast] at hactions

/-- Reports that are apart are all there in the end, and nothing else has changed. -/
theorem content?_of_apart {tree tree' : FileTree}
    (hstays : ∀ action ∈ results.flatMap (resultActions output time), StaysIn output action)
    (hapart : Apart output time results)
    (h : carryOut? tree (results.flatMap (resultActions output time)) = some tree') :
    (∀ result ∈ results, ∀ artifact ∈ filesOf time result,
      tree'.content? (FileTree.destination (Path.join output artifact.name)) =
        some artifact.content) ∧
    ∀ place, (∀ result ∈ results, ∀ artifact ∈ filesOf time result,
      place ≠ FileTree.destination (Path.join output artifact.name)) →
        tree'.content? place = tree.content? place := by
  constructor
  · intro result hresult artifact hartifact
    have hmem := List.mem_flatMap_of_mem hresult (writeInto_mem output hartifact)
    exact content?_of_mem h (nodup_destinations hstays hapart.nodup) hmem
  · intro place hplace
    apply content?_of_notMem h
    rw [writtenPaths_flatMap, List.mem_map]
    rintro ⟨path, hpath, rfl⟩
    obtain ⟨result, hresult, hpath⟩ := List.mem_flatMap.mp hpath
    rw [writtenPaths_resultActions] at hpath
    obtain ⟨artifact, hartifact, rfl⟩ := List.mem_map.mp hpath
    exact hplace result hresult artifact hartifact rfl

theorem countP_isFailure_eq_zero_iff :
    (resultsAlone d arguments found).countP isFailure = 0 ↔
      ∀ path ∈ arguments.inputs, ∃ analysis,
        analyzeAlone d arguments found path = .ok analysis := by
  rw [countP_resultsAlone, List.countP_eq_zero]
  refine forall₂_congr fun path _ => ?_
  cases analyzeAlone d arguments found path with
  | error e => simp [Except.isOk, Except.toBool]
  | ok analysis => simp [Except.isOk, Except.toBool]

theorem length_resultsAlone (d : Distribution Float) (arguments : AnovaArguments)
    (found : String → Loading.Found) :
    (resultsAlone d arguments found).length = arguments.inputs.length := by
  have hlength := congrArg List.length (map_snd_resultsAlone d arguments found)
  rwa [List.length_map, List.length_map] at hlength

theorem filterMap_complaint?_eq_nil (h : results.countP isFailure = 0) :
    results.filterMap complaint? = [] := by
  rw [List.filterMap_eq_nil_iff]
  intro result hmem
  have hfailure := List.countP_eq_zero.mp h result hmem
  obtain ⟨name, e | analysis⟩ := result
  · exact absurd rfl hfailure
  · rfl

theorem isolated {tree tree' : FileTree}
    (hloads : ∀ path ∈ arguments.inputs, Loads tree.find path)
    (htails : ∀ path ∈ arguments.inputs,
      analyzeAlone d arguments tree.find path ≠ .error .undefinedTail)
    (hapart : Apart arguments.output time (resultsAlone d arguments tree.find))
    (h : carryOut? tree (planAnova d arguments time tree.find).actions = some tree') :
    Isolated d arguments time tree ((planAnova d arguments time tree.find).outcome tree) := by
  have hresults : ∀ result ∈ resultsAlone d arguments tree.find,
      result.2 ≠ .error .undefinedTail := by
    intro result hmem
    obtain ⟨path, hpath, halone⟩ := exists_of_mem_resultsAlone hmem
    exact halone ▸ htails path hpath
  have hplan := (planAnova_of_loads hloads).trans (planResults_eq _ time hresults)
  have hcarry : carryOut? tree
      ((resultsAlone d arguments tree.find).flatMap (resultActions arguments.output time)) =
        some tree' := by
    rw [hplan] at h
    split at h
    · exact h
    · exact carryOut?_complaints h
  obtain ⟨hwritten, hkept⟩ := content?_of_apart staysIn_resultsAlone hapart hcarry
  rw [Plan.outcome_eq h, hplan]
  constructor
  case written =>
    intro artifact hfile
    obtain ⟨result, hresult, hmem⟩ := isReportFile_iff.mp hfile
    exact hwritten result hresult artifact hmem
  case kept =>
    intro place hplace
    exact hkept place fun result hresult artifact hmem =>
      hplace artifact (isReportFile_iff.mpr ⟨result, hresult, hmem⟩)
  case said_eq =>
    dsimp only
    split
    · exact saidTexts_flatMap _ _ _
    · rw [saidTexts_append, saidTexts_flatMap]
      exact List.append_nil _
  case succeeded =>
    intro hall
    have hnone := countP_isFailure_eq_zero_iff.mpr hall
    rw [if_pos hnone]
    exact ⟨rfl, (complaintTexts_flatMap _ _ _).trans (filterMap_complaint?_eq_nil hnone)⟩
  case failed =>
    rintro ⟨path, hpath, e, he⟩
    have hsome : ¬(resultsAlone d arguments tree.find).countP isFailure = 0 := by
      intro hnone
      obtain ⟨analysis, hanalysis⟩ := countP_isFailure_eq_zero_iff.mp hnone path hpath
      rw [he] at hanalysis
      cases hanalysis
    rw [if_neg hsome, ← countP_resultsAlone, ← length_resultsAlone d arguments tree.find]
    refine ⟨rfl, ?_⟩
    rw [complaintTexts_append, complaintTexts_flatMap]
    rfl

theorem outcome_of_error {tree : FileTree} {before after : List String} {path : String}
    {e : Error Float} (hinputs : arguments.inputs = before ++ path :: after)
    (hbefore : ∀ other ∈ before, Loads tree.find other)
    (h : Loading.load path (tree.find path) = .error e) :
    (planAnova d arguments time tree.find).outcome tree =
      ⟨tree, [], ["Error: " ++ e.message ++ "\n"], 1⟩ := by
  rw [planAnova_of_error hinputs hbefore h]
  rfl

theorem planAnova_of_undefinedTail (hloads : ∀ path ∈ arguments.inputs, Loads found path)
    (h : ∃ path ∈ arguments.inputs,
      analyzeAlone d arguments found path = .error .undefinedTail) :
    planAnova d arguments time found = ⟨[], brokenStatus⟩ := by
  obtain ⟨path, hpath, halone⟩ := h
  have hmem := List.mem_map_of_mem (f := analyzeAlone d arguments found) hpath
  rw [← map_snd_resultsAlone, halone] at hmem
  obtain ⟨result, hresult, hbroken⟩ := List.mem_map.mp hmem
  rw [planAnova_of_loads hloads, planResults_of_broken ⟨result, hresult, hbroken⟩]

theorem outcome_of_undefinedTail {tree : FileTree}
    (hloads : ∀ path ∈ arguments.inputs, Loads tree.find path)
    (h : ∃ path ∈ arguments.inputs,
      analyzeAlone d arguments tree.find path = .error .undefinedTail) :
    (planAnova d arguments time tree.find).outcome tree = ⟨tree, [], [], brokenStatus⟩ := by
  rw [planAnova_of_undefinedTail hloads h]
  rfl

/-- The first input that cannot be read ends the program before anything is written. Otherwise what
was found in the inputs at the start decides: a statistic without a tail ends all jobs without a
file, and without one every job has what a run on its input alone gives. -/
theorem anova_isolates (d : Distribution Float) (arguments : AnovaArguments) (time : Moment)
    (tree : FileTree) :
    (∀ before path after e, arguments.inputs = before ++ path :: after →
      (∀ other ∈ before, Loads tree.find other) → Loading.load path (tree.find path) = .error e →
      (planAnova d arguments time tree.find).outcome tree =
        ⟨tree, [], ["Error: " ++ e.message ++ "\n"], 1⟩) ∧
    ((∀ path ∈ arguments.inputs, Loads tree.find path) →
      ((∃ path ∈ arguments.inputs,
          analyzeAlone d arguments tree.find path = .error .undefinedTail) →
        (planAnova d arguments time tree.find).outcome tree = ⟨tree, [], [], 101⟩) ∧
      ((∀ path ∈ arguments.inputs,
          analyzeAlone d arguments tree.find path ≠ .error .undefinedTail) →
        Apart arguments.output time (resultsAlone d arguments tree.find) →
        ∀ tree', carryOut? tree (planAnova d arguments time tree.find).actions = some tree' →
          Isolated d arguments time tree
            ((planAnova d arguments time tree.find).outcome tree))) :=
  ⟨fun _ _ _ _ => outcome_of_error, fun hloads =>
    ⟨outcome_of_undefinedTail hloads, fun htails hapart _ => isolated hloads htails hapart⟩⟩

/-! ## A statistic without a tail -/

/-- An analysis of `y` over `g`. -/
def analysisOf (inputs : List String) : AnovaArguments :=
  { inputs, target := "y", factors := ["g"], output := "out", raw := true, reference := none
    higherIsBetter := false, threads := 0 }

/-- Records that can be analysed, records without numbers, and records that differ so little within
a group that the statistic is too large for its distribution. -/
def recordFiles : FileTree :=
  ⟨[], [(["runs.csv"], "g,y\na,1\na,1\nb,2\nb,2\n"), (["words.csv"], "g,y\na,x\na,z\nb,x\n"),
    (["steep.csv"], "g,y\na,0\na,1e-150\nb,3290\nb,3290\nc,-3290\nc,-3290\n")]⟩

theorem loads_recordFiles :
    ∀ path ∈ ["runs.csv", "words.csv", "steep.csv"], Loads recordFiles.find path := by
  have hloads : ∀ path ∈ ["runs.csv", "words.csv", "steep.csv"],
      (Loading.load path (recordFiles.find path) :
        Except (Error Float) (Dataset Float)).toOption.isSome := by
    decide +kernel
  intro path hmem
  obtain ⟨data, hdata⟩ := Option.isSome_iff_exists.mp (hloads path hmem)
  exact ⟨data, toOption_eq_some.mp hdata⟩

/-- The result of the analysis of one of the files. -/
def resultOf (path : String) : Except (Error Float) (Analysis Float) :=
  analyzeAlone Distribution.standard (analysisOf []) recordFiles.find path

theorem exists_resultOf_runs : ∃ analysis, resultOf "runs.csv" = .ok analysis := by
  have hrun : (resultOf "runs.csv").toOption.isSome := by decide +kernel
  obtain ⟨analysis, hanalysis⟩ := Option.isSome_iff_exists.mp hrun
  exact ⟨analysis, toOption_eq_some.mp hanalysis⟩

theorem exists_resultOf_words :
    ∃ e, resultOf "words.csv" = .error e ∧ e ≠ .undefinedTail := by
  have hfails : (resultOf "words.csv").toOption.isNone := by decide +kernel
  have hbroken : ¬isBroken ("words", resultOf "words.csv") := by decide +kernel
  rw [isBroken_iff] at hbroken
  cases h : resultOf "words.csv" with
  | error e => exact ⟨e, rfl, fun he => hbroken (h.trans (congrArg _ he))⟩
  | ok analysis => simp [h, Except.toOption] at hfails

theorem resultOf_steep : resultOf "steep.csv" = .error .undefinedTail := by
  have hbroken : isBroken ("steep", resultOf "steep.csv") := by decide +kernel
  exact isBroken_iff.mp hbroken

/-- A job that failed writes nothing, so it is apart from the other one. -/
theorem apart_of_error {other : String} {e : Error Float} (time : Moment)
    (h : resultOf other = .error e) :
    Apart "out" time (resultsAlone Distribution.standard (analysisOf ["runs.csv", other])
      recordFiles.find) := by
  have hlength : (outputStems (analysisOf ["runs.csv", other])).length = 2 := by
    rw [outputStems, FileStem.length_unique]
    rfl
  obtain ⟨first, second, hstems⟩ := List.length_eq_two.mp hlength
  have hresults : resultsAlone Distribution.standard (analysisOf ["runs.csv", other])
      recordFiles.find = [(first, resultOf "runs.csv"), (second, .error e)] := by
    rw [resultsAlone, hstems, ← h]
    rfl
  rw [hresults, Apart, List.pairwise_pair]
  exact fun path _ => List.not_mem_nil

/-- What the analysis of some of the files leads to. -/
def outcomeOf (inputs : List String) : Outcome :=
  (planAnova Distribution.standard (analysisOf inputs) ⟨"", ""⟩ recordFiles.find).outcome
    recordFiles

theorem isReportFile_runs (other : String) {analysis : Analysis Float}
    (hruns : resultOf "runs.csv" = .ok analysis)
    (hstem : (outputStems (analysisOf ["runs.csv", other]))[0]? = some "runs") :
    IsReportFile Distribution.standard (analysisOf ["runs.csv", other]) ⟨"", ""⟩ recordFiles.find
      (Report.summaryArtifact "runs" ⟨"", ""⟩ analysis) :=
  ⟨0, "runs.csv", "runs", analysis, rfl, hstem, hruns, by simp [Report.bundle]⟩

/-- The report of one input is there though the other one cannot be analysed, and nothing is there
if the other one cannot be read or has a statistic without a tail. -/
theorem anova_isolates_runs :
    (∃ analysis, resultOf "runs.csv" = .ok analysis ∧
      (outcomeOf ["runs.csv", "words.csv"]).tree.content? ["out", "runs_anova_summary.txt"] =
        some (analysis.text "") ∧
      (outcomeOf ["runs.csv", "words.csv"]).status = 1) ∧
    outcomeOf ["runs.csv", "notes.txt"] =
      ⟨recordFiles, [],
        ["Error: " ++ (Error.unsupportedFormat "notes.txt" : Error Float).message ++ "\n"], 1⟩ ∧
    outcomeOf ["runs.csv", "steep.csv"] = ⟨recordFiles, [], [], 101⟩ := by
  have hbatch (inputs : List String) :=
    anova_isolates Distribution.standard (analysisOf inputs) ⟨"", ""⟩ recordFiles
  refine ⟨?_, ?_, ?_⟩
  · obtain ⟨analysis, hruns⟩ := exists_resultOf_runs
    obtain ⟨e, hwords, htail⟩ := exists_resultOf_words
    have hsubset : ["runs.csv", "words.csv"] ⊆ ["runs.csv", "words.csv", "steep.csv"] := by decide
    have htails : ∀ path ∈ ["runs.csv", "words.csv"], resultOf path ≠ .error .undefinedTail := by
      rw [List.forall_mem_cons, List.forall_mem_singleton, hruns, hwords]
      exact ⟨nofun, fun h => htail (Except.error.inj h)⟩
    have hcarry : (carryOut? recordFiles (planAnova Distribution.standard
        (analysisOf ["runs.csv", "words.csv"]) ⟨"", ""⟩ recordFiles.find).actions).isSome := by
      decide +kernel
    obtain ⟨tree', hcarry⟩ := Option.isSome_iff_exists.mp hcarry
    have hisolated := ((hbatch ["runs.csv", "words.csv"]).2 fun path hmem =>
      loads_recordFiles path (hsubset hmem)).2 htails (apart_of_error ⟨"", ""⟩ hwords) tree' hcarry
    have hplace : FileTree.destination (Path.join "out" ("runs" ++ "_anova_summary.txt")) =
        ["out", "runs_anova_summary.txt"] := by
      decide +kernel
    have hfile := isReportFile_runs "words.csv" hruns (by decide +kernel)
    have hwritten := hisolated.written _ hfile
    have hwords' : "words.csv" ∈ ["runs.csv", "words.csv"] := by decide
    refine ⟨analysis, hruns, ?_, (hisolated.failed ⟨"words.csv", hwords', e, hwords⟩).1⟩
    rw [← hplace]
    exact hwritten
  · have hfirst : ∀ path ∈ ["runs.csv"], Loads recordFiles.find path := by
      rw [List.forall_mem_singleton]
      exact loads_recordFiles "runs.csv" (by decide)
    have hformat : Loading.Format.ofPath? "notes.txt" = none := by decide +kernel
    have hload : Loading.load "notes.txt" (recordFiles.find "notes.txt") =
        .error (.unsupportedFormat "notes.txt") := by
      rw [Loading.load, hformat]
    exact (hbatch ["runs.csv", "notes.txt"]).1 ["runs.csv"] "notes.txt" [] _ rfl hfirst hload
  · have hsubset : ["runs.csv", "steep.csv"] ⊆ ["runs.csv", "words.csv", "steep.csv"] := by decide
    have hsteep : "steep.csv" ∈ ["runs.csv", "steep.csv"] := by decide
    exact ((hbatch ["runs.csv", "steep.csv"]).2 fun path hmem =>
      loads_recordFiles path (hsubset hmem)).1 ⟨"steep.csv", hsteep, resultOf_steep⟩

/-- One statistic without a tail takes the reports of all other inputs with it. -/
theorem not_forall_isolated :
    ¬∀ (d : Distribution Float) (arguments : AnovaArguments) (time : Moment)
      (tree tree' : FileTree), (∀ path ∈ arguments.inputs, Loads tree.find path) →
      Apart arguments.output time (resultsAlone d arguments tree.find) →
      carryOut? tree (planAnova d arguments time tree.find).actions = some tree' →
      ∀ artifact, IsReportFile d arguments time tree.find artifact →
        ((planAnova d arguments time tree.find).outcome tree).tree.content?
          (FileTree.destination (Path.join arguments.output artifact.name)) =
            some artifact.content := by
  intro hall
  obtain ⟨analysis, hruns⟩ := exists_resultOf_runs
  have hsubset : ["runs.csv", "steep.csv"] ⊆ ["runs.csv", "words.csv", "steep.csv"] := by decide
  have hloads : ∀ path ∈ (analysisOf ["runs.csv", "steep.csv"]).inputs,
      Loads recordFiles.find path := fun path hmem => loads_recordFiles path (hsubset hmem)
  have hsteep : "steep.csv" ∈ ["runs.csv", "steep.csv"] := by decide
  have hcarry : carryOut? recordFiles (planAnova Distribution.standard
      (analysisOf ["runs.csv", "steep.csv"]) ⟨"", ""⟩ recordFiles.find).actions =
        some recordFiles := by
    rw [planAnova_of_undefinedTail hloads ⟨"steep.csv", hsteep, resultOf_steep⟩]
    rfl
  have hfile := isReportFile_runs "steep.csv" hruns (by decide +kernel)
  have hwritten := hall _ _ _ _ _ hloads (apart_of_error _ resultOf_steep) hcarry _ hfile
  rw [outcome_of_undefinedTail hloads ⟨"steep.csv", hsteep, resultOf_steep⟩] at hwritten
  have hnothing : recordFiles.content? (FileTree.destination
      (Path.join "out" ("runs" ++ "_anova_summary.txt"))) = none := by
    decide +kernel
  exact Option.some_ne_none _ (hwritten.symm.trans hnothing)

end Program

end Significance
