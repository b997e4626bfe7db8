import Significance.Proofs.Columns
import Significance.Proofs.Labelling

/-! # Bounds of the cells

The numbers of cells and of their records fit a word of 64 bits. The product of all numbers of
levels may be larger, but terms of fewer factors are checked first, so the factors of a term before
its last have at most one combination of levels per record once the term is reached. -/

namespace Significance

variable {n : ℕ} {g : String → Factor} {names : List String}

theorem Factor.Coded.length_levels_le {factor : Factor} (h : factor.Coded n) :
    factor.levels.length ≤ n := by
  have hsub : Finset.range factor.levels.length ⊆
      Finset.univ.image fun i : Fin n => factor.code i := by
    intro c hc
    obtain ⟨i, hi⟩ := h.exists_code c (Finset.mem_range.mp hc)
    exact Finset.mem_image.mpr ⟨i, Finset.mem_univ i, hi⟩
  calc
    factor.levels.length = (Finset.range factor.levels.length).card := (Finset.card_range _).symm
    _ ≤ (Finset.univ.image fun i : Fin n => factor.code i).card := Finset.card_le_card hsub
    _ ≤ n := Finset.card_image_le.trans_eq (Finset.card_fin n)

namespace Cell

theorem count_eq_prod (factors : List Factor) :
    count factors = (factors.map fun factor => factor.levels.length).prod := by
  rw [List.prod_eq_foldl, List.foldl_map]
  rfl

/-- Records are in cells that are counted. -/
theorem lt_count_of_mem_numbers (h : ∀ name ∈ names, (g name).Coded n) {cell : ℕ}
    (hcell : cell ∈ numbers (names.map g)) : cell < count (names.map g) := by
  by_cases hne : names = []
  · subst hne
    simp [numbers] at hcell
  · rw [numbers_eq hne h] at hcell
    obtain ⟨i, rfl⟩ := List.mem_ofFn.mp hcell
    exact number_lt fun name hname => (h name hname).code_lt i

/-- Each combination of levels that occurs takes a record of its own. -/
theorem count_le_of_complete (hn : 0 < n) (hnodup : names.Nodup)
    (h : ∀ name ∈ names, (g name).Coded n) (hcomplete : Complete n g names.toFinset) :
    count (names.map g) ≤ n := by
  by_cases hne : names = []
  · subst hne
    exact hn
  · have hempty := (firstEmpty?_eq_none hne hnodup h).mpr hcomplete
    rw [firstEmpty?, findIdx?_marks_eq_none] at hempty
    have hsub : Finset.range (count (names.map g)) ⊆ (numbers (names.map g)).toFinset :=
      fun cell hcell => List.mem_toFinset.mpr (hempty cell (Finset.mem_range.mp hcell))
    calc
      count (names.map g) = (Finset.range (count (names.map g))).card := (Finset.card_range _).symm
      _ ≤ (numbers (names.map g)).toFinset.card := Finset.card_le_card hsub
      _ ≤ (numbers (names.map g)).length := List.toFinset_card_le _
      _ = n := by rw [numbers_eq hne h, List.length_ofFn]

/-! ## Words of 64 bits -/

/-- Nothing overflows while the cells of some factors are counted: neither a product of numbers of
levels, nor the number of a cell of the first of the factors, nor what the next factor makes of it.
And every record is in a cell that is counted. -/
structure WithinWords (own : List Factor) : Prop where
  count_lt : ∀ first, first <+: own → count first < 2 ^ 64
  cell_lt : ∀ first, first <+: own → ∀ cell ∈ numbers first, cell < 2 ^ 64
  scaled_lt : ∀ first next, first ++ [next] <+: own → ∀ cell ∈ numbers first,
    cell * next.levels.length < 2 ^ 64
  in_range : ∀ cell ∈ numbers own, cell < count own

/-- One more factor than has at most one combination of levels per record. -/
theorem withinWords (hn : n < 2 ^ 32) (h : ∀ name ∈ names, (g name).Coded n)
    (hcount : ∀ first name, first ++ [name] <+: names → count (first.map g) ≤ n) :
    WithinWords (names.map g) := by
  have hlast : ∀ first name, first ++ [name] <+: names →
      count (first.map g) * (g name).levels.length < 2 ^ 64 := by
    intro first name hfirst
    have hlevels := (h name (hfirst.subset (by simp))).length_levels_le
    calc
      count (first.map g) * (g name).levels.length ≤ n * n :=
        Nat.mul_le_mul (hcount first name hfirst) hlevels
      _ < 2 ^ 32 * 2 ^ 32 := Nat.mul_lt_mul'' hn hn
  have hproduct : ∀ first, first <+: names → count (first.map g) < 2 ^ 64 := by
    intro first hfirst
    rcases List.eq_nil_or_concat first with rfl | ⟨start, name, rfl⟩
    · exact Nat.one_lt_two_pow (by decide)
    · rw [List.concat_eq_append] at hfirst ⊢
      rw [count_concat]
      exact hlast start name hfirst
  have hcell : ∀ first, first <+: names → ∀ cell ∈ numbers (first.map g),
      cell < count (first.map g) :=
    fun first hfirst cell => lt_count_of_mem_numbers fun name hname => h name (hfirst.subset hname)
  constructor
  · intro first hfirst
    obtain ⟨own, hown, rfl⟩ := List.prefix_map_iff.mp hfirst
    exact hproduct own hown
  · intro first hfirst cell hmem
    obtain ⟨own, hown, rfl⟩ := List.prefix_map_iff.mp hfirst
    exact (hcell own hown cell hmem).trans (hproduct own hown)
  · intro first next hfirst cell hmem
    obtain ⟨own, hown, heq⟩ := List.prefix_map_iff.mp hfirst
    obtain ⟨first, last, rfl, rfl, hnext⟩ := List.append_eq_map_iff.mp heq
    obtain ⟨name, rfl, rfl⟩ := List.map_eq_singleton_iff.mp hnext
    have hle := (hcell first ((List.prefix_append first [name]).trans hown) cell hmem).le
    exact (Nat.mul_le_mul_right _ hle).trans_lt (hlast first name hown)
  · exact hcell names List.prefix_rfl

/-! ## The check of the lattice -/

variable {α : Type}

/-- The check reaches a term after all terms of fewer factors have passed. -/
theorem count_le_of_check (hname : ∀ name, (g name).name = name) (hn : 0 < n)
    (hnodup : names.Nodup) (h : ∀ name ∈ names, (g name).Coded n) {before after : List Term}
    {term : Term} (hall : Term.all names = before ++ term :: after)
    (hcheck : check (α := α) (names.map g) before = .ok ()) {first : List String} {name : String}
    (hfirst : first ++ [name] <+: term.factors) : count (first.map g) ≤ n := by
  have hmem : ∀ other ∈ before ++ term :: after, other ∈ Term.all names :=
    fun other hother => hall ▸ hother
  have hsub : first.Sublist names :=
    (List.sublist_append_left first [name]).trans
      (hfirst.sublist.trans (Term.mem_all.mp (hmem term (by simp))).1)
  apply count_le_of_complete hn (hsub.nodup hnodup) fun other hother => h other (hsub.subset hother)
  by_cases hnil : first = []
  · subst hnil
    exact fun a _ => ⟨⟨0, hn⟩, by simp⟩
  · have hlt : (⟨first⟩ : Term).order < term.order := by
      have hlength := hfirst.length_le
      rw [List.length_append, List.length_singleton] at hlength
      exact hlength
    have hbefore : ⟨first⟩ ∈ before :=
      Term.mem_before hall (Term.mem_all.mpr ⟨hsub, hnil⟩) hlt
    exact (check_eq_ok_iff_forall g hname hnodup
      (fun other hother => hmem other (List.mem_append_left _ hother)) h).mp hcheck _ hbefore

end Cell

/-- A design of all terms has a column per combination of levels. -/
theorem Design.length_columns_of_check {α : Type} (hname : ∀ name, (g name).name = name)
    (hn : 0 < n) (hne : names ≠ []) (hnodup : names.Nodup) (h : ∀ name ∈ names, (g name).Coded n)
    (hcheck : Cell.check (α := α) (names.map g) (Term.all names) = .ok ()) :
    (ofBlocks n g (Term.all names)).columns.length = Cell.count (names.map g) ∧
      Cell.count (names.map g) ≤ n := by
  have hcomplete := (Cell.check_eq_ok g hname hne hnodup h).mp hcheck
  refine ⟨?_, Cell.count_le_of_complete hn hnodup h hcomplete⟩
  have hlevels : ∀ name ∈ names, 0 < (g name).levels.length :=
    fun name hmem => ((h name hmem).code_lt ⟨0, hn⟩).pos
  calc
    (ofBlocks n g (Term.all names)).columns.length = (vectors n g (Term.all names)).length :=
      (List.length_map _).symm
    _ = ∏ name ∈ names.toFinset, (g name).levels.length := length_vectors_all hnodup hlevels
    _ = (names.map fun name => (g name).levels.length).prod := List.prod_toFinset _ hnodup
    _ = Cell.count (names.map g) := by rw [Cell.count_eq_prod, List.map_map]; rfl

/-- The check of the cells of all terms stays within words of 64 bits, however many combinations of
levels there are. If it passes, the design has one column for each of them, and no more than
records. -/
theorem Cell.check_withinWords {α : Type} (l : Labelling n) {terms : List Term} (hpos : 0 < n)
    (hn : n < 2 ^ 32) (hterms : Term.lattice (α := α) l.names = .ok terms) :
    (∀ before term after, terms = before ++ term :: after →
      check (α := α) l.factors before = .ok () →
      ∃ own, term.resolve (α := α) l.factors = .ok own ∧ WithinWords own) ∧
    (check (α := α) l.factors terms = .ok () →
      ∃ design, Design.ofTerms (α := α) l.factors terms = .ok design ∧
        design.columns.length = (l.factors.map fun factor => factor.levels.length).prod ∧
        design.columns.length ≤ n) := by
  obtain ⟨hne, hnodup, -, rfl⟩ := Term.lattice_eq_ok.mp hterms
  have hcoded : ∀ name ∈ l.names, (Factor.labelled l.label name).Coded n :=
    fun name _ => Factor.coded_labelled l.label name
  constructor
  · intro before term after hall hcheck
    have hterm : term ∈ Term.all l.names := hall ▸ List.mem_append_right _ List.mem_cons_self
    have hsub := (Term.mem_all.mp hterm).1
    refine ⟨term.factors.map (Factor.labelled l.label),
      Term.resolve_eq _ (fun _ => rfl) fun name hname => hsub.subset hname, ?_⟩
    apply withinWords hn fun name hname => hcoded name (hsub.subset hname)
    intro first name hfirst
    exact count_le_of_check (fun _ => rfl) hpos hnodup hcoded hall hcheck hfirst
  · intro hcheck
    obtain ⟨hlength, hle⟩ :=
      Design.length_columns_of_check (fun _ => rfl) hpos hne hnodup hcoded hcheck
    refine ⟨_, Design.ofTerms_eq (fun _ => rfl) hne hpos hcoded, ?_, ?_⟩
    · rw [hlength, count_eq_prod]
      rfl
    · rw [hlength]
      exact hle

open Sample in
theorem Cell.check_withinWords_twoByTwo :
    check (α := Float) twoByTwo.factors [⟨["a"]⟩, ⟨["b"]⟩, ⟨["a", "b"]⟩] = .ok () ∧
    WithinWords twoByTwo.factors ∧
    ∃ design, Design.ofTerms (α := Float) twoByTwo.factors [⟨["a"]⟩, ⟨["b"]⟩, ⟨["a", "b"]⟩] =
        .ok design ∧
      design.columns.length = 4 := by
  have hlattice : Term.lattice (α := Float) twoByTwo.names =
      .ok [⟨["a"]⟩, ⟨["b"]⟩, ⟨["a", "b"]⟩] := rfl
  have hcheck : check (α := Float) twoByTwo.factors [⟨["a"]⟩, ⟨["b"]⟩, ⟨["a", "b"]⟩] =
      .ok () := by cbv
  have hbefore : check (α := Float) twoByTwo.factors [⟨["a"]⟩, ⟨["b"]⟩] = .ok () := by cbv
  obtain ⟨hwords, hdesign⟩ := check_withinWords twoByTwo (by decide) (by decide) hlattice
  obtain ⟨own, hown, hwithin⟩ := hwords [⟨["a"]⟩, ⟨["b"]⟩] ⟨["a", "b"]⟩ [] rfl hbefore
  have hresolve : Term.resolve (α := Float) ⟨["a", "b"]⟩ twoByTwo.factors =
      .ok twoByTwo.factors := by cbv
  rw [hresolve] at hown
  injection hown with hown
  subst hown
  obtain ⟨design, hok, hlength, -⟩ := hdesign hcheck
  have hproduct : (twoByTwo.factors.map fun factor => factor.levels.length).prod = 4 := by cbv
  exact ⟨hcheck, hwithin, design, hok, hlength.trans hproduct⟩

end Significance
