import Significance.Proofs.Batch
import Significance.Proofs.OtherFields

/-! # Files outside the output directory

The reports of an analysis stay in the output directory whatever the fields and the inputs are
called. A comparison takes the names of its fields as they are, so it stays there exactly if they
hold no slash. -/

namespace Significance

open Success

/-! ## Names taken from a path -/

namespace Path

theorem slash_notMem_of_mem_pieces {text piece : List Char} (h : piece ∈ pieces text) :
    '/' ∉ piece := by
  induction text generalizing piece with
  | nil =>
      rw [pieces, List.mem_singleton] at h
      simp [h]
  | cons c rest ih =>
      rw [pieces] at h
      split at h
      · rcases List.mem_cons.mp h with rfl | h
        · simp
        · exact ih h
      · next hc =>
        split at h
        · next hrest => exact absurd hrest (pieces_ne_nil rest)
        · next first more hrest =>
          rcases List.mem_cons.mp h with rfl | h
          · rw [List.mem_cons, not_or]
            exact ⟨Ne.symm hc, ih (hrest ▸ List.mem_cons_self)⟩
          · exact ih (hrest ▸ List.mem_cons_of_mem first h)

theorem slash_notMem_of_mem_names {path name : String} (h : name ∈ names path) :
    '/' ∉ name.toList := by
  obtain ⟨piece, hpiece, rfl⟩ := List.mem_map.mp (List.mem_filter.mp h).1
  rw [String.toList_ofList]
  exact slash_notMem_of_mem_pieces hpiece

theorem mem_of_mem_stemOf {name : String} {c : Char} (h : c ∈ (stemOf name).toList) :
    c ∈ name.toList := by
  unfold stemOf at h
  split at h
  · exact h
  · exact h
  · next before after hsplit =>
    rw [String.toList_ofList] at h
    unfold splitLastPoint at hsplit
    split at hsplit
    · cases hsplit
    · next after' point before' hspan =>
      cases hsplit
      have hname : name.toList.reverse = after' ++ point :: before' := by
        rw [List.span_eq_takeWhile_dropWhile, Prod.mk.injEq] at hspan
        rw [← hspan.1, ← hspan.2, List.takeWhile_append_dropWhile]
      rw [← List.mem_reverse, hname]
      exact List.mem_append_right _ (List.mem_cons_of_mem _ (List.mem_reverse.mp h))

theorem slash_notMem_of_stem? {path stem : String} (h : stem? path = some stem) :
    '/' ∉ stem.toList := by
  obtain ⟨name, hname, rfl⟩ := Option.map_eq_some_iff.mp h
  have hmem : name ∈ names path := by
    unfold fileName? at hname
    split at hname
    · cases hname
    · exact List.mem_of_getLast? hname
  exact fun hslash => slash_notMem_of_mem_names hmem (mem_of_mem_stemOf hslash)

theorem isName_of_mem {name : String} {c : Char} (hmem : c ∈ name.toList) (hc : c ≠ '.')
    (hslash : '/' ∉ name.toList) : IsName name := by
  have hne : ∀ text : String, c ∉ text.toList → name ≠ text := fun text htext heq =>
    htext (heq ▸ hmem)
  exact ⟨hne "" (by simp), hne "." (by simpa using hc), hne ".." (by simpa using hc), hslash⟩

end Path

namespace Program

theorem slash_notMem_baseName (path : String) : '/' ∉ (baseName path).toList := by
  unfold baseName
  cases h : Path.stem? path with
  | none => decide
  | some stem => exact Path.slash_notMem_of_stem? h

variable {d : Distribution Float} {found : String → Loading.Found} {time : Report.Moment}

/-! ## Plans that stay in a directory -/

/-- A plan that touches one directory alone. Whatever the files are called, each of them is right in
the directory, and only a name that is too long or that of a directory keeps it from being there. -/
structure InOutput (directory : String) (plan : Plan) : Prop where
  steps : ∀ action ∈ plan.actions, StaysIn directory action
  files : ∀ (tree : FileTree) (place : List String),
    (plan.outcome tree).tree.content? place ≠ tree.content? place →
      ∃ name, Path.IsName name ∧ place = FileTree.destination directory ++ [name]
  succeeds : ∀ tree tree', tree.makeDirectories? directory = some tree' →
    ((carryOut? tree plan.actions).isSome ↔
      ∀ name, Path.IsName name → Path.join directory name ∈ writtenPaths plan.actions →
        ¬tree'.isDirectory (FileTree.destination directory ++ [name]) ∧
          name.utf8ByteSize ≤ FileTree.nameLimit)

/-- Steps of which none writes before the directory is made. -/
def MakesFirst (directory : String) : List Action → Prop
  | [] => True
  | .say _ :: rest => MakesFirst directory rest
  | .complain _ :: rest => MakesFirst directory rest
  | .makeDirectories path :: _ => path = directory
  | .write .. :: _ => False

theorem MakesFirst.isSome_carryOut?_iff {directory : String} {tree tree' : FileTree}
    {actions : List Action} (h : MakesFirst directory actions)
    (hmake : tree.makeDirectories? directory = some tree') :
    (carryOut? tree actions).isSome ↔ (carryOut? tree' actions).isSome := by
  induction actions with
  | nil => simp [carryOut?]
  | cons action actions ih =>
      cases action with
      | say text => exact ih h
      | complain text => exact ih h
      | makeDirectories path =>
          obtain rfl : path = directory := h
          obtain ⟨hplace, hdirectory⟩ := FileTree.place?_of_makeDirectories hmake
          rw [carryOut?, carryOut?, hmake, FileTree.makeDirectories?_self hplace hdirectory]
      | write path content medium => exact h.elim

theorem MakesFirst.append {directory : String} {actions more : List Action}
    (h : MakesFirst directory actions) (hmore : MakesFirst directory more) :
    MakesFirst directory (actions ++ more) := by
  induction actions with
  | nil => exact hmore
  | cons action actions ih =>
      cases action with
      | say text => exact ih h
      | complain text => exact ih h
      | makeDirectories path => exact h
      | write path content medium => exact h

theorem inOutput {directory : String} {plan : Plan}
    (hsteps : ∀ action ∈ plan.actions, StaysIn directory action)
    (hfirst : MakesFirst directory plan.actions) : InOutput directory plan where
  steps := hsteps
  files := fun _ _ => StaysIn.exists_place hsteps _
  succeeds := by
    intro tree tree' hmake
    obtain ⟨hplace, hdirectory⟩ := FileTree.place?_of_makeDirectories hmake
    rw [hfirst.isSome_carryOut?_iff hmake]
    exact isSome_carryOut?_iff hplace hdirectory hsteps

theorem inOutput_failed (directory : String) (e : Error Float) : InOutput directory (failed e) :=
  inOutput (List.forall_mem_singleton.mpr trivial) trivial

/-! ## The analysis -/

theorem makesFirst_resultActions (output : String) (time : Report.Moment)
    (results : List JobResult) :
    MakesFirst output (results.flatMap (resultActions output time)) := by
  induction results with
  | nil => trivial
  | cons result results ih =>
      rw [List.flatMap_cons]
      refine MakesFirst.append ?_ ih
      obtain ⟨name, e | analysis⟩ := result
      · trivial
      · rfl

theorem inOutput_planResults {output : String} {results : List JobResult}
    (hstays : ∀ action ∈ results.flatMap (resultActions output time), StaysIn output action) :
    InOutput output (planResults output time results) := by
  have hfirst := makesFirst_resultActions output time results
  unfold planResults
  dsimp only
  split
  · exact inOutput (fun _ h => nomatch h) trivial
  · split
    · exact inOutput hstays hfirst
    · refine inOutput (fun action hmem => ?_) (hfirst.append trivial)
      rcases List.mem_append.mp hmem with hmem | hmem
      · exact hstays action hmem
      · rw [List.mem_singleton.mp hmem]
        trivial

/-- An analysis stays in its output directory, whatever its inputs and fields are called. -/
theorem inOutput_planAnova (d : Distribution Float) (arguments : AnovaArguments)
    (time : Report.Moment) (found : String → Loading.Found) :
    InOutput arguments.output (planAnova d arguments time found) := by
  rcases planAnova_eq_failed_or d arguments time found with ⟨e, h⟩ | h
  · rw [h]
    exact inOutput_failed _ e
  · rw [h]
    exact inOutput_planResults staysIn_resultsAlone

/-! ## The comparison -/

/-- The comparison that is asked for. -/
def requestedComparison (d : Distribution Float) (arguments : CompareArguments)
    (found : String → Loading.Found) : Except (Error Float) (Comparison Float) := do
  let data ← Loading.load arguments.input (found arguments.input)
  Comparison.run d data arguments.x arguments.y arguments.hue (comparisonOptions arguments)

theorem planCompare_of_ok {arguments : CompareArguments} {comparison : Comparison Float}
    (h : requestedComparison d arguments found = .ok comparison) :
    planCompare d arguments found =
      ⟨[.makeDirectories arguments.output,
        writeInto arguments.output (comparisonArtifact arguments comparison)], 0⟩ := by
  unfold requestedComparison at h
  rw [planCompare, h]

theorem exists_yField {arguments : CompareArguments} {comparison : Comparison Float}
    (h : requestedComparison d arguments found = .ok comparison) :
    ∃ ending : String, '/' ∉ ending.toList ∧ comparison.yField = arguments.y ++ ending := by
  simp only [requestedComparison, bind_eq_ok] at h
  obtain ⟨data, -, hrun⟩ := h
  cases hraw : arguments.raw with
  | true =>
      simp only [comparisonOptions, hraw, Bool.not_true, Comparison.run_eq_ok_of_raw] at hrun
      obtain ⟨-, values, xs, hues, -, -, -, rfl⟩ := hrun
      exact ⟨"", by simp, String.append_empty.symm⟩
  | false =>
      simp only [comparisonOptions, hraw, Bool.not_false,
        Comparison.run_eq_ok_of_normalized] at hrun
      obtain ⟨-, prepared, yField, values, xs, hues, hnormalize, -, -, -, rfl⟩ := hrun
      obtain ⟨_, _, -, -, -, rfl⟩ := Deviation.normalize_eq_ok.mp hnormalize
      exact ⟨"Rpd", by decide, rfl⟩

theorem comparisonArtifact_name (arguments : CompareArguments) (comparison : Comparison Float) :
    (comparisonArtifact arguments comparison).name =
      baseName arguments.input ++ "_" ++ (arguments.x ++ "_" ++ comparison.yField) ++ ".csv" := by
  simp only [comparisonArtifact, String.append_assoc]

theorem head?_comparisonArtifact_ne (arguments : CompareArguments)
    (comparison : Comparison Float) :
    (comparisonArtifact arguments comparison).name.toList.head? ≠ some '/' := by
  have hbase : (baseName arguments.input).toList.head? ≠ some '/' :=
    fun h => slash_notMem_baseName _ (List.mem_of_mem_head? h)
  rw [comparisonArtifact_name, String.append_assoc, String.append_assoc]
  exact Text.head?_append_ne hbase (by simp)

/-- The file of a comparison is right in a directory exactly if the fields hold no slash. -/
theorem isName_comparison_iff {arguments : CompareArguments} {comparison : Comparison Float}
    (h : requestedComparison d arguments found = .ok comparison) :
    Path.IsName (comparisonArtifact arguments comparison).name ↔
      '/' ∉ arguments.x.toList ∧ '/' ∉ arguments.y.toList := by
  obtain ⟨ending, hending, hy⟩ := exists_yField h
  have hslash : '/' ∉ (comparisonArtifact arguments comparison).name.toList ↔
      '/' ∉ arguments.x.toList ∧ '/' ∉ arguments.y.toList := by
    simp [comparisonArtifact_name, hy, hending, slash_notMem_baseName]
  refine ⟨fun hname => hslash.mp hname.slashFree, fun hfree => ?_⟩
  refine Path.isName_of_mem ?_ (by decide : '_' ≠ '.') (hslash.mpr hfree)
  simp [comparisonArtifact_name]

/-- With a slash in a field the file of a comparison is looked for below another directory. -/
theorem exists_directory_of_slash {arguments : CompareArguments} {comparison : Comparison Float}
    (h : requestedComparison d arguments found = .ok comparison)
    (hslash : '/' ∈ arguments.x.toList ∨ '/' ∈ arguments.y.toList) :
    ∃ first rest, (comparisonArtifact arguments comparison).name = first ++ "/" ++ rest ∧
      Path.IsName first ∧ Path.names rest ≠ [] := by
  obtain ⟨ending, -, hy⟩ := exists_yField h
  have hfields : '/' ∈ (arguments.x ++ "_" ++ comparison.yField).toList := by
    rw [hy, String.toList_append, String.toList_append, String.toList_append]
    rcases hslash with hx | hy'
    · exact List.mem_append_left _ (List.mem_append_left _ hx)
    · exact List.mem_append_right _ (List.mem_append_left _ hy')
  obtain ⟨before, after, hchars, hbefore⟩ := List.eq_append_cons_of_mem hfields
  have htext : arguments.x ++ "_" ++ comparison.yField =
      String.ofList before ++ "/" ++ String.ofList after := by
    apply String.toList_inj.mp
    simpa using hchars
  refine ⟨baseName arguments.input ++ "_" ++ String.ofList before, String.ofList after ++ ".csv",
    ?_, ?_, ?_⟩
  · rw [comparisonArtifact_name, htext]
    simp only [String.append_assoc]
  · refine Path.isName_of_mem ?_ (by decide : '_' ≠ '.') ?_
    · simp
    · simp [hbefore, slash_notMem_baseName]
  · obtain ⟨names, last, hnames⟩ := Path.exists_names_append (String.ofList after)
    rw [hnames ".csv" (by decide) (by decide)]
    exact List.append_ne_nil_of_right_ne_nil _ (List.cons_ne_nil _ _)

theorem inOutput_planCompare_iff {arguments : CompareArguments} {comparison : Comparison Float}
    (h : requestedComparison d arguments found = .ok comparison) :
    InOutput arguments.output (planCompare d arguments found) ↔
      '/' ∉ arguments.x.toList ∧ '/' ∉ arguments.y.toList := by
  rw [planCompare_of_ok h, ← isName_comparison_iff h]
  constructor
  · intro hin
    obtain ⟨name, hname, hpath⟩ := hin.steps _ (List.mem_cons_of_mem _ List.mem_cons_self)
    have hhead := head?_comparisonArtifact_ne arguments comparison
    rwa [(Path.join_inj hhead hname.head?_ne).mp hpath]
  · intro hname
    refine inOutput (List.forall_mem_cons.mpr ⟨rfl, List.forall_mem_singleton.mpr ?_⟩) rfl
    exact ⟨_, hname, rfl⟩

/-- Where a slash asks for a directory that is not there nothing is written. -/
theorem outcome_of_missing {arguments : CompareArguments} {comparison : Comparison Float}
    {first rest : String} {tree tree' : FileTree}
    (h : requestedComparison d arguments found = .ok comparison)
    (hname : (comparisonArtifact arguments comparison).name = first ++ "/" ++ rest)
    (hfirst : Path.IsName first) (hrest : Path.names rest ≠ [])
    (hmake : tree.makeDirectories? arguments.output = some tree')
    (hmissing : ¬tree'.isDirectory (FileTree.destination arguments.output ++ [first])) :
    (planCompare d arguments found).outcome tree =
      ⟨tree', [], ["Error: " ++ (writeError .delimited).message ++ "\n"], 1⟩ := by
  obtain ⟨hplace, -⟩ := FileTree.place?_of_makeDirectories hmake
  have hwrite := FileTree.write?_eq_none (comparisonArtifact arguments comparison).content hplace
    hfirst hrest hmissing
  rw [← hname] at hwrite
  rw [planCompare_of_ok h, Plan.outcome, Outcome.follow, hmake]
  simp only [writeInto, Outcome.follow, hwrite]
  rfl

/-- Everything that an analysis writes is right in its output directory, whatever its inputs and
its fields are called. A comparison stays there exactly if neither of its two fields holds a slash;
with one it is not written unless the slash leads to a directory that is there. -/
theorem written_in_output (d : Distribution Float) :
    (∀ arguments time found, InOutput arguments.output (planAnova d arguments time found)) ∧
    ∀ arguments found comparison, requestedComparison d arguments found = .ok comparison →
      (InOutput arguments.output (planCompare d arguments found) ↔
        '/' ∉ arguments.x.toList ∧ '/' ∉ arguments.y.toList) ∧
      ('/' ∈ arguments.x.toList ∨ '/' ∈ arguments.y.toList →
        ∃ first rest, (comparisonArtifact arguments comparison).name = first ++ "/" ++ rest ∧
          Path.IsName first ∧
          ∀ tree tree', tree.makeDirectories? arguments.output = some tree' →
            ¬tree'.isDirectory (FileTree.destination arguments.output ++ [first]) →
            (planCompare d arguments found).outcome tree =
              ⟨tree', [], ["Error: " ++ (writeError .delimited).message ++ "\n"], 1⟩) := by
  refine ⟨inOutput_planAnova d, fun arguments found comparison h => ?_⟩
  refine ⟨inOutput_planCompare_iff h, fun hslash => ?_⟩
  obtain ⟨first, rest, hname, hfirst, hrest⟩ := exists_directory_of_slash h hslash
  exact ⟨first, rest, hname, hfirst, fun tree tree' hmake hmissing =>
    outcome_of_missing h hname hfirst hrest hmake hmissing⟩

/-! ## A field with a slash in its name -/

/-- A comparison of `cost` over another field. -/
def comparisonOver (x : String) : CompareArguments :=
  { input := "runs.csv", x, y := "cost", hue := none, output := "out", raw := true
    keepLabels := false }

/-- Records whose first field has a given name, beside some directories. -/
def fieldFiles (x : String) (directories : List (List String)) : FileTree :=
  ⟨directories, [(["runs.csv"], x ++ ",cost\n1,2\n1,3\n2,4\n2,6\n")]⟩

theorem exists_requested {x : String} (directories : List (List String))
    (h : (requestedComparison Distribution.standard (comparisonOver x)
      (fieldFiles x directories).find).toOption.isSome) :
    ∃ comparison, requestedComparison Distribution.standard (comparisonOver x)
      (fieldFiles x directories).find = .ok comparison := by
  obtain ⟨comparison, hcomparison⟩ := Option.isSome_iff_exists.mp h
  exact ⟨comparison, toOption_eq_some.mp hcomparison⟩

theorem written_in_output_fields :
    InOutput "out" (planAnova Distribution.standard (analysisOf ["runs.csv"]) ⟨"", ""⟩
      recordFiles.find) ∧
    InOutput "out" (planCompare Distribution.standard (comparisonOver "hours")
      (fieldFiles "hours" []).find) ∧
    (planCompare Distribution.standard (comparisonOver "cost/hour")
      (fieldFiles "cost/hour" [["out"]]).find).outcome (fieldFiles "cost/hour" [["out"]]) =
        ⟨fieldFiles "cost/hour" [["out"]], [],
          ["Error: " ++ (writeError .delimited).message ++ "\n"], 1⟩ := by
  obtain ⟨hanova, hcompare⟩ := written_in_output Distribution.standard
  refine ⟨hanova (analysisOf ["runs.csv"]) ⟨"", ""⟩ recordFiles.find, ?_, ?_⟩
  · obtain ⟨comparison, h⟩ := exists_requested (x := "hours") [] (by decide +kernel)
    exact (hcompare _ _ comparison h).1.mpr ⟨by decide, by decide⟩
  · obtain ⟨comparison, h⟩ := exists_requested (x := "cost/hour") [["out"]] (by decide +kernel)
    obtain ⟨first, rest, -, -, hmissing⟩ := (hcompare _ _ comparison h).2 (Or.inl (by decide))
    have hplace : (fieldFiles "cost/hour" [["out"]]).place? "out" = some ["out"] := by
      decide +kernel
    refine hmissing _ _ (FileTree.makeDirectories?_self hplace rfl) ?_
    have hout : FileTree.destination (comparisonOver "cost/hour").output = ["out"] := by
      decide +kernel
    simp [hout, FileTree.isDirectory, fieldFiles]

/-- A field whose name leads upwards takes the file of a comparison out of the output directory. -/
theorem not_forall_inOutput :
    ¬∀ (d : Distribution Float) (arguments : CompareArguments) (found : String → Loading.Found)
      (comparison : Comparison Float), requestedComparison d arguments found = .ok comparison →
        InOutput arguments.output (planCompare d arguments found) := by
  intro hall
  let tree := fieldFiles "/../../kind" [["out"], ["out", "runs_"]]
  obtain ⟨comparison, h⟩ := exists_requested (x := "/../../kind") [["out"], ["out", "runs_"]]
    (by decide +kernel)
  have hchanged : ((planCompare Distribution.standard (comparisonOver "/../../kind")
      tree.find).outcome tree).tree.content? ["kind_cost.csv"] ≠
        tree.content? ["kind_cost.csv"] := by
    have hwritten : (((planCompare Distribution.standard (comparisonOver "/../../kind")
        tree.find).outcome tree).tree.content? ["kind_cost.csv"]).isSome := by
      decide +kernel
    have hbefore : tree.content? ["kind_cost.csv"] = none := by decide +kernel
    rw [hbefore, ← Option.isSome_iff_ne_none]
    exact hwritten
  obtain ⟨name, -, hplace⟩ := (hall _ _ _ comparison h).files tree _ hchanged
  have hout : FileTree.destination (comparisonOver "/../../kind").output = ["out"] := by
    decide +kernel
  simp [hout] at hplace

end Program

end Significance
