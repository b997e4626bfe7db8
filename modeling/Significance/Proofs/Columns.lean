import Significance.Proofs.Cells
import Significance.Proofs.Elimination
import Significance.Variance

/-! # Columns of a design

A column of a term is the indicator of one level, but the first, in each of its factors. The model
matrix of some terms has these columns after the one of the intercept. -/

namespace Significance

open Success

variable {n : ℕ}

namespace Column

/-- Whether a record has all levels of a column. -/
def Holds (column : Column) (i : Fin n) : Prop :=
  ∀ requirement ∈ column, requirement.factor.code i = requirement.level

instance (column : Column) (i : Fin n) : Decidable (column.Holds i) :=
  inferInstanceAs (Decidable (∀ requirement ∈ column, _))

def vector (n : ℕ) (column : Column) (i : Fin n) : ℝ :=
  if column.Holds i then 1 else 0

theorem holds_cons {requirement : Requirement} {column : Column} {i : Fin n} :
    Holds (requirement :: column) i ↔
      requirement.factor.code i = requirement.level ∧ column.Holds i :=
  List.forall_mem_cons

theorem vector_cons (requirement : Requirement) (column : Column) (i : Fin n) :
    vector n (requirement :: column) i =
      if requirement.factor.code i = requirement.level then vector n column i else 0 := by
  simp only [vector, holds_cons, ite_and]

theorem vector_nil : vector n [] = 1 := by
  funext i
  simp [vector, Holds]

/-- The indicator of a column marks the records that have its levels. -/
theorem indicator_eq {column : Column}
    (h : ∀ requirement ∈ column, requirement.factor.codes.length = n) :
    column.indicator n = List.ofFn fun i : Fin n => decide (column.Holds i) := by
  have hfold : ∀ (column : Column) (start : Fin n → Bool),
      (∀ requirement ∈ column, requirement.factor.codes.length = n) →
      column.foldl (fun hits requirement =>
          hits.zipWith (fun hit code => hit && code = requirement.level) requirement.factor.codes)
        (List.ofFn start) = List.ofFn fun i => start i && decide (column.Holds i) := by
    intro column
    induction column with
    | nil =>
        intro start _
        simp [Holds]
    | cons requirement column ih =>
        intro start h
        have hzip : (List.ofFn start).zipWith (fun hit code => hit && code = requirement.level)
            requirement.factor.codes =
              List.ofFn fun i =>
                start i && decide (requirement.factor.code i = requirement.level) := by
          rw [Factor.codes_eq_ofFn (h requirement List.mem_cons_self)]
          apply List.ext_getElem
          · simp
          · simp
        rw [List.foldl_cons, hzip, ih _ fun other hother => h other (List.mem_cons_of_mem _ hother)]
        simp [holds_cons, Bool.and_assoc]
  have hstart : List.replicate n true = List.ofFn fun _ : Fin n => true :=
    (List.ofFn_const n true).symm
  rw [indicator, hstart, hfold column _ h]
  simp

/-! ## The columns of a term -/

variable (g : String → Factor)

def ofLevels (names : List String) (a : String → ℕ) : Column :=
  names.map fun name => ⟨g name, a name⟩

variable {g}

theorem holds_ofLevels {names : List String} {a : String → ℕ} {i : Fin n} :
    (ofLevels g names a).Holds i ↔ ∀ name ∈ names, (g name).code i = a name :=
  List.forall_mem_map

/-- The columns of some factors are those of levels other than the first. -/
theorem mem_combinations {names : List String} (hnodup : names.Nodup) {column : Column} :
    column ∈ combinations (names.map g) ↔
      ∃ a : String → ℕ, (∀ name ∈ names, 0 < a name ∧ a name < (g name).levels.length) ∧
        column = ofLevels g names a := by
  induction names generalizing column with
  | nil => simp [combinations, ofLevels]
  | cons name names ih =>
      have ⟨hnew, htail⟩ := List.nodup_cons.mp hnodup
      simp only [List.map_cons, combinations, List.mem_flatMap, List.mem_map, List.mem_range'_1,
        ih htail, List.forall_mem_cons]
      constructor
      · rintro ⟨level, hlevel, _, ⟨a, ha, rfl⟩, rfl⟩
        have hagree : ∀ other ∈ names, Function.update a name level other = a other := by
          intro other hother
          exact Function.update_of_ne (fun heq : other = name => hnew (heq ▸ hother)) _ _
        refine ⟨Function.update a name level, ⟨?_, ?_⟩, ?_⟩
        · rw [Function.update_self]
          omega
        · intro other hother
          rw [hagree other hother]
          exact ha other hother
        · rw [ofLevels, ofLevels, List.map_cons, Function.update_self]
          congr 1
          apply List.map_congr_left
          intro other hother
          rw [hagree other hother]
      · rintro ⟨a, ⟨hfirst, ha⟩, rfl⟩
        exact ⟨a name, by omega, ofLevels g names a, ⟨a, ha, rfl⟩, rfl⟩

theorem nodup_combinations (factors : List Factor) : (combinations factors).Nodup := by
  induction factors with
  | nil => simp [combinations]
  | cons factor factors ih =>
      rw [combinations, List.nodup_flatMap]
      constructor
      · intro level _
        exact ih.map List.cons_injective
      · apply (List.nodup_range' (n := factor.levels.length - 1)).imp
        intro level other hne column hcolumn hother
        obtain ⟨_, _, rfl⟩ := List.mem_map.mp hcolumn
        obtain ⟨_, _, heq⟩ := List.mem_map.mp hother
        injection heq with heq
        injection heq with _ hlevel
        exact hne hlevel.symm

theorem length_combinations (factors : List Factor) :
    (combinations factors).length =
      (factors.map fun factor => factor.levels.length - 1).prod := by
  induction factors with
  | nil => rfl
  | cons factor factors ih =>
      simp only [List.map_cons, combinations, List.length_flatMap, List.length_map, ih,
        List.map_const', List.length_range', List.sum_replicate, List.prod_cons, smul_eq_mul]

end Column

/-! ## The columns of a model -/

namespace Design

/-! ### What the steps add -/

/-- The columns of a term stand behind those that were there, and its positions are theirs. -/
theorem foldl_addColumn (term : Term) (columns : List Column) (design : Design)
    (places : List ℕ) :
    columns.foldl (addColumn term) (design, places) =
      ({ design with
          columns := design.columns ++ columns
          names := design.names ++ columns.map (Column.name term) },
        places ++ List.range' design.names.length columns.length) := by
  induction columns generalizing design places with
  | nil => simp
  | cons column columns ih =>
      rw [List.foldl_cons, addColumn, ih, List.length_append, List.length_singleton,
        List.append_assoc, List.append_assoc, List.append_assoc, List.length_cons,
        List.range'_succ]
      rfl

variable (n) (g : String → Factor)

/-- Terms with the positions of their columns, the first of which is `start`. -/
def positionsFrom : ℕ → List Term → List (Term × List ℕ)
  | _, [] => []
  | start, term :: terms =>
    let count := (Column.combinations (term.factors.map g)).length
    (term, List.range' start count) :: positionsFrom (start + count) terms

/-- The design of some terms, with their columns block by block. -/
def ofBlocks (terms : List Term) : Design :=
  { rows := n
    columns := [] :: terms.flatMap fun term => Column.combinations (term.factors.map g)
    names := "Intercept" :: terms.flatMap fun term =>
      (Column.combinations (term.factors.map g)).map (Column.name term)
    positions := positionsFrom g 1 terms }

/-- The columns of some terms as vectors, the intercept first. -/
def vectors (terms : List Term) : List (Fin n → ℝ) :=
  (ofBlocks n g terms).columns.map (Column.vector n)

variable {n g}

theorem addTerm_eq {α : Type} {names : List String} (hname : ∀ name, (g name).name = name)
    {term : Term} (hsub : ∀ name ∈ term.factors, name ∈ names) (design : Design) :
    addTerm (α := α) (names.map g) design term =
      .ok { design with
        columns := design.columns ++ Column.combinations (term.factors.map g)
        names := design.names ++
          (Column.combinations (term.factors.map g)).map (Column.name term)
        positions := design.positions ++ positionsFrom g design.names.length [term] } := by
  rw [addTerm, Term.resolve_eq g hname hsub, ok_bind, foldl_addColumn, List.nil_append]
  rfl

theorem foldlM_addTerm {α : Type} {names : List String} (hname : ∀ name, (g name).name = name)
    {terms : List Term} (hsub : ∀ term ∈ terms, ∀ name ∈ term.factors, name ∈ names)
    (design : Design) :
    terms.foldlM (addTerm (α := α) (names.map g)) design =
      .ok { design with
        columns := design.columns ++
          terms.flatMap fun term => Column.combinations (term.factors.map g)
        names := design.names ++ terms.flatMap fun term =>
          (Column.combinations (term.factors.map g)).map (Column.name term)
        positions := design.positions ++ positionsFrom g design.names.length terms } := by
  induction terms generalizing design with
  | nil => simp [positionsFrom, pure, Except.pure]
  | cons term terms ih =>
      have ⟨hhead, htail⟩ := List.forall_mem_cons.mp hsub
      rw [List.foldlM_cons, addTerm_eq hname hhead, ok_bind, ih htail]
      simp [positionsFrom]

/-- The design of terms over some factors has the columns of the terms block by block. -/
theorem ofTerms_eq_ofBlocks {α : Type} {names : List String} {terms : List Term}
    (hname : ∀ name, (g name).name = name) (hne : names ≠ []) (hn : 0 < n)
    (h : ∀ name ∈ names, (g name).codes.length = n)
    (hsub : ∀ term ∈ terms, ∀ name ∈ term.factors, name ∈ names) :
    ofTerms (α := α) (names.map g) terms = .ok (ofBlocks n g terms) := by
  have hrows : ((names.map g).head?.map Factor.size).getD 0 = n := by
    cases names with
    | nil => exact absurd rfl hne
    | cons name names => exact h name List.mem_cons_self
  simp only [ofTerms, hrows, check_eq_ok]
  exact ⟨hn.ne', foldlM_addTerm hname hsub (intercept n)⟩

theorem ofTerms_eq {α : Type} {names : List String} (hname : ∀ name, (g name).name = name)
    (hne : names ≠ []) (hn : 0 < n) (h : ∀ name ∈ names, (g name).Coded n) :
    ofTerms (α := α) (names.map g) (Term.all names) = .ok (ofBlocks n g (Term.all names)) :=
  ofTerms_eq_ofBlocks hname hne hn (fun name hmem => (h name hmem).size_eq)
    fun _ hterm _ hmem => (Term.mem_all.mp hterm).1.subset hmem

/-! ### Positions -/

theorem map_fst_positionsFrom (start : ℕ) (terms : List Term) :
    (positionsFrom g start terms).map Prod.fst = terms := by
  induction terms generalizing start with
  | nil => rfl
  | cons term terms ih => rw [positionsFrom, List.map_cons, ih]

/-- Whatever stands term by term behind what was there before, at the positions of a term stands what
is its own. -/
theorem map_getElem?_of_mem_positionsFrom {γ : Type} {own : Term → List γ}
    (hlength : ∀ term, (own term).length = (Column.combinations (term.factors.map g)).length)
    (before : List γ) {terms : List Term} {p : Term × List ℕ}
    (hp : p ∈ positionsFrom g before.length terms) :
    p.2.map ((before ++ terms.flatMap own)[·]?) = (own p.1).map some := by
  induction terms generalizing before with
  | nil => cases hp
  | cons term terms ih =>
      rw [List.flatMap_cons]
      rcases List.mem_cons.mp hp with rfl | hrest
      · apply List.ext_getElem
        · simp [hlength]
        · intro i hi hi'
          rw [List.length_map] at hi'
          simp [List.getElem?_append_right, List.getElem?_append_left hi', hi']
      · rw [← List.append_assoc]
        apply ih (before ++ own term)
        rw [List.length_append, hlength]
        exact hrest

/-- At the positions of the chosen terms stands what is theirs, in the order of all terms. -/
theorem map_getD_positionsFrom {γ : Type} {own : Term → List γ}
    (hlength : ∀ term, (own term).length = (Column.combinations (term.factors.map g)).length)
    (chosen : Term → Bool) (before : List γ) (default : γ) (terms : List Term) :
    (((positionsFrom g before.length terms).filter (chosen ·.1)).flatMap Prod.snd).map
        ((before ++ terms.flatMap own).getD · default) =
      (terms.filter chosen).flatMap own := by
  have hown : ∀ p ∈ (positionsFrom g before.length terms).filter (chosen ·.1),
      p.2.map ((before ++ terms.flatMap own).getD · default) = own p.1 := by
    intro p hp
    have hall := congrArg (List.map (Option.getD · default))
      (map_getElem?_of_mem_positionsFrom hlength before (List.mem_of_mem_filter hp))
    simpa [Function.comp_def] using hall
  have hterms : ((positionsFrom g before.length terms).filter (chosen ·.1)).map Prod.fst =
      terms.filter chosen := by
    conv_rhs => rw [← map_fst_positionsFrom (g := g) before.length terms, List.filter_map]
    rfl
  rw [List.map_flatMap, List.flatMap_congr hown, ← hterms, List.flatMap_map]

theorem columns_select (terms chosen : List Term) :
    ((ofBlocks n g terms).select chosen).columns =
      (ofBlocks n g (terms.filter (chosen.contains ·))).columns :=
  congrArg ([] :: ·) (map_getD_positionsFrom (fun _ => rfl) (chosen.contains ·) [[]] [] terms)

/-- The model matrix of some terms of a design is that of the design of these terms. -/
theorem select_ofBlocks {α : Type} [Scalar α] (terms chosen : List Term) :
    (Variance.modelMatrix ((ofBlocks n g terms).select chosen) : ModelMatrix α) =
      Variance.modelMatrix (ofBlocks n g (terms.filter (chosen.contains ·))) := by
  simp only [Variance.modelMatrix, indicators, columns_select]
  rfl

theorem mem_columns {terms : List Term} {column : Column} :
    column ∈ (ofBlocks n g terms).columns ↔
      column = [] ∨ ∃ term ∈ terms, column ∈ Column.combinations (term.factors.map g) := by
  simp [ofBlocks]

theorem length_vectors (terms : List Term) :
    (vectors n g terms).length = 1 + (terms.map fun term =>
      (term.factors.map fun name => (g name).levels.length - 1).prod).sum := by
  simp only [vectors, ofBlocks, List.length_map, List.length_cons, List.length_flatMap,
    Column.length_combinations, List.map_map]
  exact add_comm _ _

/-- One more term brings as many columns as it has combinations of levels but the first. -/
theorem length_vectors_upTo {factors : List String} (hnodup : factors.Nodup) {term : Term}
    (hterm : term ∈ Term.all factors) :
    (vectors n g (Term.upTo factors term)).length =
      (vectors n g (Term.without factors term)).length +
        ∏ name ∈ term.support, ((g name).levels.length - 1) := by
  have hperm := (Term.upTo_perm hnodup hterm).map fun term =>
    (term.factors.map fun name => (g name).levels.length - 1).prod
  rw [length_vectors, length_vectors, hperm.sum_eq, List.map_cons, List.sum_cons, Term.support,
    List.prod_toFinset _ ((Term.mem_all.mp hterm).1.nodup hnodup)]
  omega

/-- The full model has as many columns as there are combinations of levels. -/
theorem length_vectors_all {factors : List String} (hnodup : factors.Nodup)
    (hlevels : ∀ name ∈ factors, 0 < (g name).levels.length) :
    (vectors n g (Term.all factors)).length =
      ∏ name ∈ factors.toFinset, (g name).levels.length := by
  have hterms : (Term.all factors).map (fun term =>
      (term.factors.map fun name => (g name).levels.length - 1).prod) =
        (Term.all factors).map fun term =>
          ∏ name ∈ term.support, ((g name).levels.length - 1) := by
    apply List.map_congr_left
    intro term hterm
    rw [Term.support, List.prod_toFinset _ ((Term.mem_all.mp hterm).1.nodup hnodup)]
  rw [length_vectors, hterms, Term.sum_all_prod hnodup hlevels]

variable [Exact.Wording]

theorem modelMatrix_eq {terms : List Term} {names : List String} (hnodup : names.Nodup)
    (hterms : ∀ term ∈ terms, term ∈ Term.all names) (h : ∀ name ∈ names, (g name).Coded n) :
    (Variance.modelMatrix (ofBlocks n g terms) : ModelMatrix Exact) =
      ⟨n, (vectors n g terms).map Exact.ofVector⟩ := by
  have hcolumn : ∀ column ∈ (ofBlocks n g terms).columns,
      (column.indicator n).map (fun hit => if hit then (1.0 : Exact) else 0.0) =
        Exact.ofVector (column.vector n) := by
    intro column hcolumn
    have hcoded : ∀ requirement ∈ column, requirement.factor.codes.length = n := by
      rcases mem_columns.mp hcolumn with rfl | ⟨term, hterm, hmem⟩
      · simp
      · have hsub := (Term.mem_all.mp (hterms term hterm)).1
        obtain ⟨a, -, rfl⟩ := (Column.mem_combinations (hsub.nodup hnodup)).mp hmem
        rw [Column.ofLevels, List.forall_mem_map]
        intro name hname
        exact (h name (hsub.subset hname)).size_eq
    rw [Column.indicator_eq hcoded, List.map_ofFn, Exact.ofVector]
    congr 1
    funext i
    by_cases hi : column.Holds i
    · simp [Column.vector, hi]
    · simp [Column.vector, hi]
  simp only [Variance.modelMatrix, indicators, vectors, List.map_map]
  congr 1
  apply List.map_congr_left
  exact hcolumn

end Design

end Significance
