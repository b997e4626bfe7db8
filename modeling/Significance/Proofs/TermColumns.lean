import Significance.Proofs.Columns

/-! # The columns of the terms

A design lists its columns, their names and the positions of the columns of each term side by side.
They keep step: the positions of the terms, one after another, are all positions behind the
intercept, and at those of a term stand the combinations of levels of its factors, each once and the
last factor varying fastest. So a selection of terms takes exactly their columns. -/

namespace Significance

variable {n : ℕ}

/-! ## Combinations of levels -/

namespace Column

/-- The columns of some factors ask for one level of each, but the first. -/
theorem mem_combinations_iff {factors : List Factor} {column : Column} :
    column ∈ combinations factors ↔
      column.map Requirement.factor = factors ∧
        ∀ requirement ∈ column,
          0 < requirement.level ∧ requirement.level < requirement.factor.levels.length := by
  induction factors generalizing column with
  | nil =>
      rw [combinations, List.mem_singleton, List.map_eq_nil_iff]
      constructor
      · rintro rfl
        exact ⟨rfl, List.forall_mem_nil _⟩
      · exact And.left
  | cons factor factors ih =>
      simp only [combinations, List.mem_flatMap, List.mem_map, List.mem_range'_1, ih]
      constructor
      · rintro ⟨level, hlevel, column, ⟨rfl, hcolumn⟩, rfl⟩
        exact ⟨rfl, List.forall_mem_cons.mpr ⟨⟨hlevel.1, by dsimp only; omega⟩, hcolumn⟩⟩
      · rintro ⟨hfactors, hlevels⟩
        cases column with
        | nil => cases hfactors
        | cons requirement column =>
            obtain ⟨rfl, hcolumn⟩ := List.cons.inj hfactors
            obtain ⟨hfirst, hrest⟩ := List.forall_mem_cons.mp hlevels
            exact ⟨requirement.level, by omega, column, ⟨hcolumn, hrest⟩, rfl⟩

/-- The levels of the last factor vary fastest. -/
theorem pairwise_combinations (factors : List Factor) :
    (combinations factors).Pairwise fun column other =>
      column.map Requirement.level < other.map Requirement.level := by
  induction factors with
  | nil => exact List.pairwise_singleton _ _
  | cons factor factors ih =>
      rw [combinations, List.pairwise_flatMap]
      constructor
      · intro level _
        rw [List.pairwise_map]
        exact ih.imp fun hlt => List.cons_lt_cons_iff.mpr (.inr ⟨rfl, hlt⟩)
      · apply (List.pairwise_lt_range').imp
        intro level other hlt column hcolumn column' hcolumn'
        obtain ⟨_, _, rfl⟩ := List.mem_map.mp hcolumn
        obtain ⟨_, _, rfl⟩ := List.mem_map.mp hcolumn'
        exact List.cons_lt_cons_iff.mpr (.inl hlt)

theorem prod_map_ite (p : Requirement → Prop) [DecidablePred p] (column : Column) :
    (column.map fun requirement => if p requirement then 1 else 0).prod =
      if ∀ requirement ∈ column, p requirement then 1 else 0 := by
  induction column with
  | nil => simp
  | cons requirement column ih =>
      rw [List.map_cons, List.prod_cons, ih]
      simp only [List.forall_mem_cons, ite_and, ite_mul, one_mul, zero_mul]

end Column

/-! ## Entries -/

namespace Design

/-- The entry of a record in a column. -/
def entry (design : Design) (i j : ℕ) : ℕ :=
  ((design.indicators.getD j []).getD i false).toNat

/-- The entries of all records in some columns. -/
def table (α : Type) [Scalar α] (design : Design) (places : List ℕ) : ModelMatrix α :=
  { rows := design.rows
    columns := places.map fun j =>
      (List.range design.rows).map fun i => if design.entry i j = 1 then 1.0 else 0.0 }

/-- Every column asks for levels of factors of as many records as the design has. -/
def Fits (design : Design) : Prop :=
  ∀ column ∈ design.columns, ∀ requirement ∈ column,
    requirement.factor.codes.length = design.rows

variable {design : Design}

/-- A record has the entry one where it has all levels of the column. -/
theorem Fits.entry_eq (h : design.Fits) {j : ℕ} {column : Column}
    (hcolumn : design.columns[j]? = some column) (i : Fin design.rows) :
    design.entry i j = if column.Holds i then 1 else 0 := by
  have hindicator : design.indicators.getD j [] =
      List.ofFn fun i : Fin design.rows => decide (column.Holds i) := by
    rw [← Column.indicator_eq (h column (List.mem_of_getElem? hcolumn)), indicators,
      List.getD_eq_getElem?_getD, List.getElem?_map, hcolumn]
    rfl
  rw [entry, hindicator]
  by_cases hi : column.Holds i
  · simp [hi]
  · simp [hi]

theorem Fits.holds_iff (h : design.Fits) {column : Column} (hcolumn : column ∈ design.columns)
    (i : Fin design.rows) :
    column.Holds i ↔
      ∀ requirement ∈ column, requirement.factor.codes[(i : ℕ)]? = some requirement.level := by
  apply forall₂_congr
  intro requirement hrequirement
  have hlt : (i : ℕ) < requirement.factor.codes.length :=
    i.isLt.trans_eq (h column hcolumn requirement hrequirement).symm
  rw [Factor.code, List.getD_eq_getElem _ _ hlt, List.getElem?_eq_getElem hlt, Option.some.injEq]

/-- The numbers of the columns at some positions are the entries there. -/
theorem Fits.numbers_eq {α : Type} [Scalar α] (h : design.Fits) {places : List ℕ}
    (hplaces : ∀ j ∈ places, j < design.columns.length) :
    (((places.map (design.columns.getD · [])).map (Column.indicator design.rows)).map
        fun column => column.map fun hit => if hit then (1.0 : α) else 0.0) =
      (design.table α places).columns := by
  rw [List.map_map, List.map_map, table]
  apply List.map_congr_left
  intro j hj
  have hcolumn : design.columns[j]? = some (design.columns.getD j []) := by
    rw [List.getD_eq_getElem _ _ (hplaces j hj), List.getElem?_eq_getElem (hplaces j hj)]
  rw [Function.comp_apply, Function.comp_apply,
    Column.indicator_eq (h _ (List.mem_of_getElem? hcolumn)), List.map_ofFn]
  apply List.ext_getElem
  · simp
  · intro i hi hi'
    have hrows : i < design.rows := by simpa using hi
    rw [List.getElem_ofFn, List.getElem_map, List.getElem_range,
      h.entry_eq hcolumn ⟨i, hrows⟩]
    simp

/-! ## What a design lists -/

/-- What it means that at some positions of a design stand the columns of a term: one for each
combination of levels of its factors, but the first, the last factor varying fastest. -/
structure TermColumns (factors : List Factor) (design : Design) (term : Term) (places : List ℕ)
    (own : List Factor) (columns : List Column) : Prop where
  names_own : own.map Factor.name = term.factors
  own_subset : own ⊆ factors
  length_eq : places.length = (own.map fun factor => factor.levels.length - 1).prod
  columns_eq : places.map (design.columns[·]?) = columns.map some
  names_eq : places.map (design.names[·]?) = columns.map fun column => some (column.name term)
  mem_iff : ∀ column, column ∈ columns ↔
    column.map Requirement.factor = own ∧ ∀ requirement ∈ column,
      0 < requirement.level ∧ requirement.level < requirement.factor.levels.length
  nodup : columns.Nodup
  increasing : columns.Pairwise fun column other =>
    column.map Requirement.level < other.map Requirement.level

/-- What it means that a selection of terms takes the columns at some positions: the intercept and
the columns of these terms, in the order of the design. -/
structure Selected (design : Design) (chosen : List Term) (places : List ℕ) : Prop where
  sublist : places.Sublist (List.range design.columns.length)
  mem_iff : ∀ j, j ∈ places ↔ j = 0 ∨ ∃ p ∈ design.positions, p.1 ∈ chosen ∧ j ∈ p.2
  matrix_eq : ∀ {α : Type} [Scalar α],
    Variance.modelMatrix (design.select chosen) = design.table α places

/-- What it means that a design lists the columns of some terms over factors of `rows` records. -/
structure Arranged (factors : List Factor) (rows : ℕ) (terms : List Term) (design : Design) :
    Prop where
  rows_eq : design.rows = rows
  length_names : design.names.length = design.columns.length
  terms_eq : design.positions.map Prod.fst = terms
  /-- The positions of the terms, one after another, are all but that of the intercept. -/
  positions_eq : design.positions.flatMap Prod.snd = List.range' 1 (design.columns.length - 1)
  term_columns : ∀ p ∈ design.positions,
    ∃ own columns, TermColumns factors design p.1 p.2 own columns
  matrix_eq : ∀ {α : Type} [Scalar α],
    Variance.modelMatrix design = design.table α (List.range design.columns.length)
  entry_zero : ∀ i < rows, design.entry i 0 = 1
  entry_eq : ∀ i < rows, ∀ j column, design.columns[j]? = some column →
    design.entry i j =
      if ∀ requirement ∈ column, requirement.factor.codes[i]? = some requirement.level then 1 else 0
  /-- A column is the product of the indicators of its levels. -/
  entry_eq_prod : ∀ i < rows, ∀ j column, design.columns[j]? = some column →
    design.entry i j = (column.map fun requirement =>
      if requirement.factor.codes[i]? = some requirement.level then 1 else 0).prod
  selected : ∀ chosen : List Term, ∃ places, Selected design chosen places
  /-- Neither the order nor the repetitions of a selection matter. -/
  select_congr : ∀ chosen others : List Term, (∀ term, term ∈ chosen ↔ term ∈ others) →
    design.select chosen = design.select others

variable {g : String → Factor} {terms : List Term}

theorem flatMap_positionsFrom (start : ℕ) (terms : List Term) :
    (positionsFrom g start terms).flatMap Prod.snd =
      List.range' start
        (terms.flatMap fun term => Column.combinations (term.factors.map g)).length := by
  induction terms generalizing start with
  | nil => rfl
  | cons term terms ih =>
      rw [positionsFrom, List.flatMap_cons, ih, List.flatMap_cons, List.length_append,
        ← List.range'_append, Nat.one_mul]

theorem fits_ofBlocks {names : List String} (h : ∀ name ∈ names, (g name).codes.length = n)
    (hsub : ∀ term ∈ terms, term.factors ⊆ names) : (ofBlocks n g terms).Fits := by
  intro column hcolumn requirement hrequirement
  rcases mem_columns.mp hcolumn with rfl | ⟨term, hterm, hmem⟩
  · cases hrequirement
  · obtain ⟨hfactors, -⟩ := Column.mem_combinations_iff.mp hmem
    have hfactor := List.mem_map_of_mem (f := Requirement.factor) hrequirement
    rw [hfactors] at hfactor
    obtain ⟨name, hname, heq⟩ := List.mem_map.mp hfactor
    rw [← heq]
    exact h name (hsub term hterm hname)

/-- The positions of a term are those of its columns. -/
theorem termColumns_ofBlocks {names : List String} (hname : ∀ name, (g name).name = name)
    (hsub : ∀ term ∈ terms, term.factors ⊆ names) {p : Term × List ℕ}
    (hp : p ∈ (ofBlocks n g terms).positions) :
    TermColumns (names.map g) (ofBlocks n g terms) p.1 p.2 (p.1.factors.map g)
      (Column.combinations (p.1.factors.map g)) := by
  have hterm : p.1 ∈ terms := by
    rw [← map_fst_positionsFrom (g := g) 1 terms]
    exact List.mem_map_of_mem hp
  have hcolumns : p.2.map ((ofBlocks n g terms).columns[·]?) =
      (Column.combinations (p.1.factors.map g)).map some :=
    map_getElem?_of_mem_positionsFrom (fun _ => rfl) [[]] hp
  have hnames : p.2.map ((ofBlocks n g terms).names[·]?) =
      ((Column.combinations (p.1.factors.map g)).map (Column.name p.1)).map some :=
    map_getElem?_of_mem_positionsFrom (fun _ => List.length_map _) ["Intercept"] hp
  refine ⟨?_, ?_, ?_, hcolumns, ?_, fun _ => Column.mem_combinations_iff,
    Column.nodup_combinations _, Column.pairwise_combinations _⟩
  · rw [List.map_map]
    exact List.map_id'' hname _
  · exact List.map_subset g (hsub p.1 hterm)
  · have hlength := congrArg List.length hcolumns
    rwa [List.length_map, List.length_map, Column.length_combinations] at hlength
  · rw [List.map_map] at hnames
    exact hnames

theorem selected_ofBlocks (h : (ofBlocks n g terms).Fits) (chosen : List Term) :
    ∃ places, Selected (ofBlocks n g terms) chosen places := by
  have hsublist : (0 :: (((ofBlocks n g terms).positions.filter
      fun p => chosen.contains p.1).flatMap Prod.snd)).Sublist
        (List.range (ofBlocks n g terms).columns.length) := by
    have hall : List.range (ofBlocks n g terms).columns.length =
        0 :: (ofBlocks n g terms).positions.flatMap Prod.snd := by
      rw [List.range_eq_range', ofBlocks, flatMap_positionsFrom]
      rfl
    rw [hall]
    exact (List.filter_sublist.flatMap _).cons_cons 0
  refine ⟨_, hsublist, ?_, ?_⟩
  · intro j
    simp [List.mem_flatMap, and_assoc]
  · intro α _
    have hnumbers := h.numbers_eq (α := α) fun j hj => List.mem_range.mp (hsublist.subset hj)
    exact congrArg (ModelMatrix.mk n) hnumbers

theorem arranged_ofBlocks {names : List String} (hname : ∀ name, (g name).name = name)
    (h : ∀ name ∈ names, (g name).codes.length = n)
    (hsub : ∀ term ∈ terms, term.factors ⊆ names) :
    Arranged (names.map g) n terms (ofBlocks n g terms) := by
  have hfits := fits_ofBlocks h hsub
  have hentry : ∀ i < n, ∀ j column, (ofBlocks n g terms).columns[j]? = some column →
      (ofBlocks n g terms).entry i j = if ∀ requirement ∈ column,
        requirement.factor.codes[i]? = some requirement.level then 1 else 0 := by
    intro i hi j column hcolumn
    rw [hfits.entry_eq hcolumn ⟨i, hi⟩]
    exact if_congr (hfits.holds_iff (List.mem_of_getElem? hcolumn) _) rfl rfl
  refine ⟨rfl, ?_, map_fst_positionsFrom 1 terms, flatMap_positionsFrom 1 terms, ?_, ?_, ?_,
    hentry, ?_, selected_ofBlocks hfits, ?_⟩
  · simp [ofBlocks, List.length_flatMap]
  · intro p hp
    exact ⟨_, _, termColumns_ofBlocks hname hsub hp⟩
  · intro α _
    have hall : (List.range (ofBlocks n g terms).columns.length).map
        ((ofBlocks n g terms).columns.getD · []) = (ofBlocks n g terms).columns := by
      apply List.ext_getElem
      · simp
      · intro j hj hj'
        simp [hj']
    have hnumbers := hfits.numbers_eq (α := α) fun j hj => List.mem_range.mp hj
    rw [hall] at hnumbers
    exact congrArg (ModelMatrix.mk n) hnumbers
  · intro i hi
    exact hentry i hi 0 [] rfl
  · intro i hi j column hcolumn
    rw [hentry i hi j column hcolumn, Column.prod_map_ite]
  · intro chosen others hsame
    have hcontains : ∀ term, chosen.contains term = others.contains term := by
      intro term
      rw [Bool.eq_iff_iff, List.contains_iff_mem, List.contains_iff_mem]
      exact hsame term
    simp only [select, hcontains]

/-! ## Any factors with different names -/

/-- The factor of a name, if there is one. -/
def named (factors : List Factor) (name : String) : Factor :=
  (factors.find? fun factor => factor.name = name).getD ⟨name, [], []⟩

theorem name_named (factors : List Factor) (name : String) : (named factors name).name = name := by
  rw [named]
  cases hfound : factors.find? fun factor => factor.name = name with
  | none => rfl
  | some factor => simpa using List.find?_some hfound

theorem map_named {factors : List Factor} (hnodup : (factors.map Factor.name).Nodup) :
    (factors.map Factor.name).map (named factors) = factors := by
  rw [List.map_map]
  refine (List.map_congr_left ?_).trans (List.map_id factors)
  intro factor hfactor
  have hsome : (factors.find? fun other => other.name = factor.name).isSome :=
    List.find?_isSome.mpr ⟨factor, hfactor, decide_eq_true rfl⟩
  obtain ⟨other, hother⟩ := Option.isSome_iff_exists.mp hsome
  have hname : other.name = factor.name := by simpa using List.find?_some hother
  rw [Function.comp_apply, named, hother]
  exact List.inj_on_of_nodup_map hnodup (List.mem_of_find?_eq_some hother) hfactor hname

/-- A design over factors with different names has the columns of its terms one after another: their
names and positions keep step with them, every entry is the product of the indicators of the levels
of its column, and a selection of terms takes exactly their columns. -/
theorem exists_arranged {α : Type} {factors : List Factor} {terms : List Term} (hne : factors ≠ [])
    (hnodup : (factors.map Factor.name).Nodup) (hn : 0 < n)
    (hsize : ∀ factor ∈ factors, factor.codes.length = n)
    (hterms : ∀ term ∈ terms, term.factors ⊆ factors.map Factor.name) :
    ∃ design, ofTerms (α := α) factors terms = .ok design ∧ Arranged factors n terms design := by
  have hfactors := map_named hnodup
  have hcodes : ∀ name ∈ factors.map Factor.name, (named factors name).codes.length = n := by
    intro name hname
    have hmem := List.mem_map_of_mem (f := named factors) hname
    rw [hfactors] at hmem
    exact hsize _ hmem
  have hnames : factors.map Factor.name ≠ [] := mt List.map_eq_nil_iff.mp hne
  have hok := ofTerms_eq_ofBlocks (α := α) (name_named factors) hnames hn hcodes hterms
  have harranged := arranged_ofBlocks (name_named factors) hcodes hterms
  rw [hfactors] at hok harranged
  exact ⟨_, hok, harranged⟩

/-- Two factors of two levels each, and a selection that repeats a term and has the others in another
order. -/
theorem exists_arranged_twoByTwo :
    let factors : List Factor := [⟨"a", ["x", "y"], [0, 0, 1, 1]⟩, ⟨"b", ["p", "q"], [0, 1, 0, 1]⟩]
    let terms : List Term := [⟨["a"]⟩, ⟨["b"]⟩, ⟨["a", "b"]⟩]
    (factors.map Factor.name).Nodup ∧ (∀ factor ∈ factors, factor.codes.length = 4) ∧
    (∀ term ∈ terms, term.factors ⊆ factors.map Factor.name) ∧
    ∃ design, ofTerms (α := Float) factors terms = .ok design ∧
      Arranged factors 4 terms design ∧
      design.select [⟨["b"]⟩, ⟨["a"]⟩, ⟨["b"]⟩] = design.select [⟨["a"]⟩, ⟨["b"]⟩] := by
  intro factors terms
  have hnodup : (factors.map Factor.name).Nodup := by decide
  have hsize : ∀ factor ∈ factors, factor.codes.length = 4 := by decide
  have hterms : ∀ term ∈ terms, term.factors ⊆ factors.map Factor.name := by decide
  obtain ⟨design, hok, harranged⟩ :=
    exists_arranged (α := Float) (List.cons_ne_nil _ _) hnodup (by decide) hsize hterms
  refine ⟨hnodup, hsize, hterms, design, hok, harranged, harranged.select_congr _ _ ?_⟩
  intro term
  simp only [List.mem_cons, List.not_mem_nil, or_false]
  exact ⟨by tauto, by tauto⟩

end Design

end Significance
