import Significance.Proofs.OtherFields

/-! # Comparisons of the significant factors

A row of a table asks for comparisons exactly if it is the significant row of one listed factor.
What comes of it depends on the values of the target and of that factor alone, whatever else the
table and the records hold. -/

namespace Significance

open Success

/-- What is not a number is below nothing. -/
theorem Float.not_lt_of_isNaN {x y : Float} (h : x.isNaN = true) : ¬x < y := by
  intro hlt
  have hmodel : x.toModel.unpack.lt y.toModel.unpack = true := of_decide_eq_true hlt
  have hnan : x.toModel.unpack.isNaN = true := h
  generalize x.toModel.unpack = a at hmodel hnan
  cases a with
  | notANumber => cases hmodel
  | _ => cases hnan

namespace PostHoc

section

variable {α : Type} [Scalar α] {d : Distribution α} {data data' : Dataset α}
  {target factor : String}
  {table table' : VarianceTable α} {factors factors' : List String} {row : Effect α}

/-! ## Rows that ask -/

/-- The factor that a row asks to compare the levels of. -/
def asked? (factors : List String) (row : Effect α) : Option String :=
  row.term.sole?.filter fun factor => factor ∈ factors ∧ row.isSignificant

theorem asked?_eq_some :
    asked? factors row = some factor ↔
      row.term.factors = [factor] ∧ factor ∈ factors ∧ row.isSignificant := by
  rw [asked?, Option.filter_eq_some_iff, Term.sole?_eq_some, decide_eq_true_iff]

theorem asked?_eq_ite (row : Effect α) :
    asked? factors row = if asks factors row then some row.name else none := by
  obtain ⟨⟨names⟩, _, _, _, _⟩ := row
  match names with
  | [] => rfl
  | [factor] =>
      simp [asked?, Term.sole?, asks, Effect.isMain, Effect.name, Term.isMain, Term.order,
        Term.name, Option.filter]
  | _ :: _ :: _ => rfl

/-- The rows that ask are answered in their order. -/
theorem entries_eq :
    (run d data target table factors).entries =
      (table.effects.filterMap (asked? factors)).map (entry d data target) := by
  rw [run]
  induction table.effects with
  | nil => rfl
  | cons row rows ih =>
      rw [List.filterMap_cons, asked?_eq_ite]
      by_cases h : asks factors row
      · simpa [h] using ih
      · simpa [h] using ih

/-! ## Outcomes -/

/-- What comes of a comparison, step by step. The first step that fails gives the reason. -/
inductive Compared (d : Distribution α) (data : Dataset α) (target factor : String) :
    Outcome α → Prop
  | noValues {e : Error α} (h : data.numericColumn target = .error e) :
      Compared d data target factor (.skipped e.message)
  | noGrouping {values : List α} {e : Error α} (hvalues : data.numericColumn target = .ok values)
      (h : Factor.ofDataset data factor = .error e) :
      Compared d data target factor (.skipped e.message)
  | noTest {values : List α} {grouping : Factor} {e : Error α}
      (hvalues : data.numericColumn target = .ok values)
      (hgrouping : Factor.ofDataset data factor = .ok grouping)
      (h : TukeyTest.run d grouping values significanceLevel = .error e) :
      Compared d data target factor (.skipped e.message)
  | completed {values : List α} {grouping : Factor} {test : TukeyTest α}
      (hvalues : data.numericColumn target = .ok values)
      (hgrouping : Factor.ofDataset data factor = .ok grouping)
      (h : TukeyTest.run d grouping values significanceLevel = .ok test) :
      Compared d data target factor (.completed test)

theorem compared_iff {outcome : Outcome α} :
    Compared d data target factor outcome ↔ (entry d data target factor).outcome = outcome := by
  rw [entry, compareLevels]
  constructor
  · intro h
    cases h with
    | noValues h => rw [h]; rfl
    | noGrouping hvalues h => rw [hvalues, ok_bind, h]; rfl
    | noTest hvalues hgrouping h => rw [hvalues, ok_bind, hgrouping, ok_bind, h]
    | completed hvalues hgrouping h => rw [hvalues, ok_bind, hgrouping, ok_bind, h]
  · rintro rfl
    cases hvalues : data.numericColumn target with
    | error e => exact .noValues hvalues
    | ok values =>
        cases hgrouping : Factor.ofDataset data factor with
        | error e => exact .noGrouping hvalues hgrouping
        | ok grouping =>
            rw [ok_bind, ok_bind]
            cases htest : TukeyTest.run d grouping values significanceLevel with
            | error e => exact .noTest hvalues hgrouping htest
            | ok test => exact .completed hvalues hgrouping htest

/-- The completed tests are those of the rows that ask. -/
theorem mem_completed_iff {test : TukeyTest α} :
    test ∈ (run d data target table factors).completed ↔
      ∃ row ∈ table.effects, ∃ factor, asked? factors row = some factor ∧
        Compared d data target factor (.completed test) := by
  have htest : ∀ entry : FactorOutcome α,
      entry.test? = some test ↔ entry.outcome = .completed test := by
    rintro ⟨factor, outcome⟩
    cases outcome with
    | completed found => simp [FactorOutcome.test?]
    | skipped reason => simp [FactorOutcome.test?]
  simp only [completed, entries_eq, List.mem_filterMap, List.mem_map, htest, compared_iff]
  constructor
  · rintro ⟨_, ⟨factor, ⟨row, hrow, hasked⟩, rfl⟩, houtcome⟩
    exact ⟨row, hrow, factor, hasked, houtcome⟩
  · rintro ⟨row, hrow, factor, hasked, houtcome⟩
    exact ⟨_, ⟨factor, ⟨row, hrow, hasked⟩, rfl⟩, houtcome⟩

/-! ## What an entry depends on -/

theorem entry_congr (htarget : data'.column target = data.column target)
    (hfactor : data'.column factor = data.column factor) :
    entry d data' target factor = entry d data target factor := by
  have hcompare : compareLevels d data' target factor = compareLevels d data target factor := by
    rw [compareLevels, compareLevels, Dataset.numericColumn_eq, Dataset.numericColumn_eq, htarget,
      Dataset.ofDataset_congr hfactor]
  rw [entry, entry, hcompare]

/-- The entry of a row is its own: it stays as long as the target and the row's factor do. -/
theorem map_entry_asked (htarget : data'.column target = data.column target)
    (hrow : ∀ factor, row.term.factors = [factor] →
      data'.column factor = data.column factor ∧ (factor ∈ factors' ↔ factor ∈ factors)) :
    (asked? factors' row).map (entry d data' target) =
      (asked? factors row).map (entry d data target) := by
  rw [asked?, asked?]
  cases hsole : row.term.sole? with
  | none => rfl
  | some factor =>
      obtain ⟨hfactor, hmem⟩ := hrow factor (Term.sole?_eq_some.mp hsole)
      simp only [Option.filter, hmem]
      split
      · exact congrArg some (entry_congr htarget hfactor)
      · rfl

theorem filter_entries_eq :
    ((run d data target table factors).entries.filter fun entry => entry.factor = factor) =
      (table.effects.filter fun row => row.term.factors = [factor]).filterMap fun row =>
        (asked? factors row).map (entry d data target) := by
  rw [entries_eq]
  induction table.effects with
  | nil => rfl
  | cons row rows ih =>
      cases hasked : asked? factors row with
      | none =>
          rw [List.filterMap_cons_none hasked, ih, List.filter_cons]
          split
          · rw [List.filterMap_cons_none (by rw [hasked]; rfl)]
          · rfl
      | some name =>
          have hname := (asked?_eq_some.mp hasked).1
          rw [List.filterMap_cons_some hasked, List.map_cons, List.filter_cons, List.filter_cons,
            ih]
          by_cases heq : name = factor
          · subst heq
            simp [hname, hasked, entry]
          · simp [hname, heq, entry]

/-- Interactions ask for nothing. -/
theorem run_congr_of_main
    (hrows : (table'.effects.filter fun row => row.term.factors.length = 1) =
      table.effects.filter fun row => row.term.factors.length = 1) :
    run d data target table' factors = run d data target table factors := by
  have hmain : ∀ rows : List (Effect α), rows.filterMap (asked? factors) =
      (rows.filter fun row => row.term.factors.length = 1).filterMap (asked? factors) := by
    intro rows
    rw [List.filterMap_filter]
    apply List.filterMap_congr
    intro row _
    cases hasked : asked? factors row with
    | none => simp
    | some factor => simp [(asked?_eq_some.mp hasked).1]
  have hentries : (run d data target table' factors).entries =
      (run d data target table factors).entries := by
    rw [entries_eq, entries_eq, hmain table'.effects, hrows, ← hmain]
  exact congrArg PostHoc.mk hentries

/-- The entries of a factor come from its own rows, the target and its own field. -/
theorem filter_entries_congr (htarget : data'.column target = data.column target)
    (hfactor : data'.column factor = data.column factor)
    (hmem : factor ∈ factors' ↔ factor ∈ factors)
    (hrows : (table'.effects.filter fun row => row.term.factors = [factor]) =
      table.effects.filter fun row => row.term.factors = [factor]) :
    ((run d data' target table' factors').entries.filter fun entry => entry.factor = factor) =
      (run d data target table factors).entries.filter fun entry => entry.factor = factor := by
  rw [filter_entries_eq, filter_entries_eq, hrows]
  apply List.filterMap_congr
  intro row hrow
  have hterm : row.term.factors = [factor] := by simpa using (List.mem_filter.mp hrow).2
  apply map_entry_asked htarget
  intro name hname
  obtain rfl : factor = name := by simpa [hterm] using hname
  exact ⟨hfactor, hmem⟩

/-! ## Entries of an analysis -/

variable (h : Variance.analyze d data target factors = .ok table)

include h

/-- Each factor of an analysis has one row of its own. -/
theorem existsUnique_row (hfactor : factor ∈ factors) :
    ∃! row, row ∈ table.effects ∧ row.term.factors = [factor] := by
  obtain ⟨hnodup, hterms⟩ := Variance.analyze_terms h
  have hmem : (⟨[factor]⟩ : Term) ∈ table.effects.map Effect.term := by
    rw [hterms, Term.mem_all]
    exact ⟨List.singleton_sublist.mpr hfactor, by simp⟩
  obtain ⟨row, hrow, hterm⟩ := List.mem_map.mp hmem
  refine ⟨row, ⟨hrow, congrArg Term.factors hterm⟩, ?_⟩
  rintro other ⟨hother, hsame⟩
  have hinj := List.inj_on_of_nodup_map (hterms ▸ Term.nodup_all hnodup)
  have hterms : other.term = row.term := (congrArg Term.mk hsame).trans hterm.symm
  exact hinj hother hrow hterms

/-- An analysis answers its factors with significant rows, in their order. -/
theorem filterMap_asked_eq :
    table.effects.filterMap (asked? factors) = factors.filter fun factor =>
      ∃ row ∈ table.effects, row.term.factors = [factor] ∧ row.isSignificant := by
  obtain ⟨-, hterms⟩ := Variance.analyze_terms h
  conv_rhs =>
    rw [← Term.filterMap_sole_all factors, ← hterms, List.filterMap_map, List.filter_filterMap]
  apply List.filterMap_congr
  intro row hrow
  rw [asked?, Function.comp_apply]
  cases hsole : row.term.sole? with
  | none => rfl
  | some factor =>
      have hterm := Term.sole?_eq_some.mp hsole
      have hmem : row.term ∈ Term.all factors := hterms ▸ List.mem_map_of_mem hrow
      have hfactor : factor ∈ factors := by
        have hsub := (Term.mem_all.mp hmem).1
        rw [hterm] at hsub
        exact List.singleton_sublist.mp hsub
      have hiff : (factor ∈ factors ∧ row.isSignificant) ↔
          ∃ row ∈ table.effects, row.term.factors = [factor] ∧ row.isSignificant := by
        constructor
        · rintro ⟨-, hlt⟩
          exact ⟨row, hrow, hterm, hlt⟩
        · rintro ⟨other, hother, hsame, hlt⟩
          obtain rfl := (existsUnique_row h hfactor).unique ⟨hother, hsame⟩ ⟨hrow, hterm⟩
          exact ⟨hfactor, hlt⟩
      simp only [Option.filter, hiff]

end

/-! ## The comparisons of a table -/

/-- A table has its significant main effects compared, in the order of its rows. The entry of a row
is what comes of the steps of its comparison. It depends on its own row, on the target and on its
own factor. In an analysis every factor has one such row, in the order of the request. -/
theorem entries_of_significant (d : Distribution Float) (target : String) :
    (∀ row : Effect Float, row.isSignificant ↔ row.p < 0.05 ∧ row.p.isNaN = false) ∧
    (∀ factors (row : Effect Float) factor, asked? factors row = some factor ↔
      row.term.factors = [factor] ∧ factor ∈ factors ∧ row.isSignificant) ∧
    (∀ data table factors, (run d data target table factors).entries =
      (table.effects.filterMap (asked? factors)).map (entry d data target)) ∧
    (∀ data factor, (entry d data target factor).factor = factor ∧
      ∀ outcome, Compared d data target factor outcome ↔
        (entry d data target factor).outcome = outcome) ∧
    (∀ data data' factors factors' (row : Effect Float), data'.column target = data.column target →
      (∀ factor, row.term.factors = [factor] →
        data'.column factor = data.column factor ∧ (factor ∈ factors' ↔ factor ∈ factors)) →
      (asked? factors' row).map (entry d data' target) =
        (asked? factors row).map (entry d data target)) ∧
    (∀ data data' table table' factors factors' factor, data'.column target = data.column target →
      data'.column factor = data.column factor → (factor ∈ factors' ↔ factor ∈ factors) →
      ((table'.effects.filter fun row => row.term.factors = [factor]) =
        table.effects.filter fun row => row.term.factors = [factor]) →
      ((run d data' target table' factors').entries.filter fun entry => entry.factor = factor) =
        (run d data target table factors).entries.filter fun entry => entry.factor = factor) ∧
    (∀ data table table' factors,
      ((table'.effects.filter fun row => row.term.factors.length = 1) =
        table.effects.filter fun row => row.term.factors.length = 1) →
      run d data target table' factors = run d data target table factors) ∧
    (∀ data factors options analysis, Analysis.run d data target factors options = .ok analysis →
      factors.Nodup ∧
      (∀ factor ∈ factors,
        ∃! row, row ∈ analysis.table.effects ∧ row.term.factors = [factor]) ∧
      analysis.postHoc.entries = (factors.filter fun factor =>
        ∃ row ∈ analysis.table.effects, row.term.factors = [factor] ∧ row.isSignificant).map
          (entry d analysis.data analysis.field)) := by
  refine ⟨?_, fun _ _ _ => asked?_eq_some, fun _ _ _ => entries_eq,
    fun _ _ => ⟨rfl, fun _ => compared_iff⟩, fun _ _ _ _ _ => map_entry_asked,
    fun _ _ _ _ _ _ _ => filter_entries_congr, fun _ _ _ _ => run_congr_of_main, ?_⟩
  · intro row
    have hlt : row.isSignificant ↔ row.p < 0.05 := decide_eq_true_iff
    rw [hlt]
    refine ⟨fun h => ⟨h, ?_⟩, And.left⟩
    by_contra hnan
    exact Float.not_lt_of_isNaN (by simpa using hnan) h
  · intro data factors options analysis hrun
    obtain ⟨prepared, field, reference, table, -, htable, rfl⟩ := Analysis.run_eq_ok.mp hrun
    refine ⟨(Variance.analyze_terms htable).1, fun _ => existsUnique_row htable, ?_⟩
    exact entries_eq.trans (congrArg _ (filterMap_asked_eq htable))

end PostHoc

/-! ## A factor named like an interaction -/

namespace Sample

theorem pairwise_colon : ["a", "a:b", "b", "y"].Pairwise (· < ·) := by
  decide

def measured (a b : String) (y : Float) : Record (Value Float) :=
  ⟨[("a", .text a), ("a:b", .text "u"), ("b", .text b), ("y", .number y)],
    List.pairwise_map.mp pairwise_colon⟩

def measurements : Dataset Float :=
  ⟨[measured "s" "m" 1, measured "s" "n" 2, measured "t" "m" 5, measured "t" "n" 6]⟩

/-- The factor `a:b` and the interaction of `a` and `b` have rows of one name. -/
def colonTable : VarianceTable Float :=
  ⟨.multiWay, "y", "y ~ a + b + a:b", [⟨⟨["a"]⟩, 0, 0, 0 / 0, 0 / 0⟩, ⟨⟨["b"]⟩, 1, 1, 1, 0.2⟩,
    ⟨⟨["a:b"]⟩, 9, 1, 9, 0.01⟩, ⟨⟨["a", "b"]⟩, 9, 1, 9, 0.001⟩], ⟨1, 1⟩, 4⟩

end Sample

namespace PostHoc

open Sample

theorem entries_of_significant_colon :
    (run Distribution.standard measurements "y" colonTable ["a", "b", "a:b"]).entries =
      [entry Distribution.standard measurements "y" "a:b"] ∧
    run Distribution.standard measurements "y"
        { colonTable with effects := colonTable.effects.take 3 } ["a", "b", "a:b"] =
      run Distribution.standard measurements "y" colonTable ["a", "b", "a:b"] ∧
    ∃ analysis, Analysis.run Distribution.standard measurements "y" ["a"]
        ⟨false, none, .lowerIsBetter⟩ = .ok analysis ∧
      ∃! row, row ∈ analysis.table.effects ∧ row.term.factors = ["a"] := by
  obtain ⟨-, -, hentries, -, -, -, hmain, hanalyses⟩ :=
    entries_of_significant Distribution.standard "y"
  refine ⟨?_, ?_, ?_⟩
  · have hasked : colonTable.effects.filterMap (asked? ["a", "b", "a:b"]) = ["a:b"] := by
      decide +kernel
    rw [hentries, hasked, List.map_singleton]
  · exact hmain _ _ _ _ (by rfl)
  · have hrun : ((Analysis.run Distribution.standard measurements "y" ["a"]
        ⟨false, none, .lowerIsBetter⟩).toOption).isSome := by decide +kernel
    obtain ⟨analysis, hanalysis⟩ := Option.isSome_iff_exists.mp hrun
    rw [toOption_eq_some] at hanalysis
    exact ⟨analysis, hanalysis, (hanalyses _ _ _ analysis hanalysis).2.1 "a" (by simp)⟩

end PostHoc

end Significance
