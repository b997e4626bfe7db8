import Significance.Proofs.MainEffects
import Significance.Report

/-! # Rows by name

A row is named for its factors, between colons. So a table tells its rows apart by name where no two
terms have one name, and without colons in the names of the factors none have. -/

namespace Significance

open Success

namespace Term

/-- No two terms over some factors have the same name. -/
def NamesApart (factors : List String) : Prop :=
  ∀ term ∈ all factors, ∀ other ∈ all factors, term.name = other.name → term = other

instance (factors : List String) : Decidable (NamesApart factors) :=
  inferInstanceAs (Decidable (∀ term ∈ all factors, ∀ other ∈ all factors,
    term.name = other.name → term = other))

/-- No name has a colon in it. -/
def ColonFree (names : List String) : Prop :=
  ∀ name ∈ names, ':' ∉ name.toList

instance (names : List String) : Decidable (ColonFree names) :=
  inferInstanceAs (Decidable (∀ name ∈ names, ':' ∉ name.toList))

/-- Names without colons can be read back from between the colons. -/
theorem splitOn_name {term : Term} (hne : term.factors ≠ []) (hfree : ColonFree term.factors) :
    term.name.toList.splitOn ':' = term.factors.map String.toList := by
  have hcolon : ":".toList = [':'] := rfl
  rw [name, String.toList_intercalate, hcolon]
  apply List.splitOn_intercalate
  · rwa [List.forall_mem_map]
  · simpa using hne

theorem eq_of_name_eq {term other : Term} (hname : term.name = other.name)
    (hne : term.factors ≠ []) (hfree : ColonFree term.factors) (hne' : other.factors ≠ [])
    (hfree' : ColonFree other.factors) : term = other := by
  have hsplit : term.factors.map String.toList = other.factors.map String.toList := by
    rw [← splitOn_name hne hfree, ← splitOn_name hne' hfree', hname]
  have hinjective : Function.Injective String.toList := fun _ _ => String.toList_inj.mp
  obtain ⟨names⟩ := term
  exact congrArg Term.mk (List.map_injective_iff.mpr hinjective hsplit)

theorem namesApart_of_colonFree {factors : List String} (h : ColonFree factors) :
    NamesApart factors := by
  intro term hterm other hother hname
  obtain ⟨hsub, hne⟩ := mem_all.mp hterm
  obtain ⟨hsub', hne'⟩ := mem_all.mp hother
  exact eq_of_name_eq hname hne (fun name hmem => h name (hsub.subset hmem)) hne'
    fun name hmem => h name (hsub'.subset hmem)

end Term

/-! ## Looking up a row -/

namespace VarianceTable

variable {α : Type} {table : VarianceTable α} {factors : List String} {name : String}
  {row : Effect α}

/-- The first row of a name is found. -/
theorem effect?_eq_some :
    table.effect? name = some row ↔ row.name = name ∧
      ∃ before after, table.effects = before ++ row :: after ∧
        ∀ other ∈ before, other.name ≠ name := by
  simp [effect?, List.find?_eq_some_iff_append]

section

variable (hnodup : factors.Nodup) (hterms : table.effects.map Effect.term = Term.all factors)

include hterms

theorem mem_all_of_mem (hrow : row ∈ table.effects) : row.term ∈ Term.all factors :=
  hterms ▸ List.mem_map_of_mem hrow

theorem exists_row {term : Term} (hterm : term ∈ Term.all factors) :
    ∃ row ∈ table.effects, row.term = term := by
  rw [← hterms] at hterm
  exact List.mem_map.mp hterm

include hnodup

/-- Each non-empty list of factors in their order has one row. -/
theorem existsUnique_row {names : List String} (hsub : names.Sublist factors) (hne : names ≠ []) :
    ∃! i : Fin table.effects.length, table.effects[i].term.factors = names := by
  have hdistinct : (table.effects.map Effect.term).Nodup := by
    rw [hterms]
    exact Term.nodup_all hnodup
  have hmem : Term.mk names ∈ Term.all factors := Term.mem_all.mpr ⟨hsub, hne⟩
  obtain ⟨row, hrow, hterm⟩ := exists_row hterms hmem
  obtain ⟨i, rfl⟩ := List.mem_iff_get.mp hrow
  refine ⟨i, congrArg Term.factors hterm, fun j hj => ?_⟩
  -- Rows of one term are the same row, and stand in the same place.
  have hsame : table.effects[j] = table.effects.get i :=
    List.inj_on_of_nodup_map hdistinct (List.getElem_mem _) hrow
      ((congrArg Term.mk hj).trans hterm.symm)
  exact (List.Nodup.of_map _ hdistinct).get_inj_iff.mp hsame

/-- A row is found by its name if no row before it has that name. -/
theorem effect?_of_term {term : Term} (hterm : term ∈ Term.all factors)
    (hfirst : ∀ other ∈ Term.all factors, other.order ≤ term.order → other.name = term.name →
      other = term) :
    ∃ row ∈ table.effects, row.term = term ∧ table.effect? term.name = some row := by
  obtain ⟨row, hrow, rfl⟩ := exists_row hterms hterm
  refine ⟨row, hrow, rfl, effect?_eq_some.mpr ⟨rfl, ?_⟩⟩
  obtain ⟨before, after, heffects⟩ := List.append_of_mem hrow
  refine ⟨before, after, heffects, ?_⟩
  intro other hother hname
  have hmem : other ∈ table.effects := by
    rw [heffects]
    exact List.mem_append_left _ hother
  have hall : Term.all factors = before.map Effect.term ++ row.term :: after.map Effect.term := by
    rw [← hterms, heffects, List.map_append, List.map_cons]
  have hbefore : other.term ∈ before.map Effect.term := List.mem_map_of_mem hother
  -- A row before it has no more factors and another term.
  have horder := Term.pairwise_order_all factors
  have hdistinct := Term.nodup_all hnodup
  rw [hall, List.pairwise_append] at horder
  rw [hall, List.nodup_append] at hdistinct
  have hle := horder.2.2 _ hbefore _ List.mem_cons_self
  have hne := hdistinct.2.2 _ hbefore _ List.mem_cons_self
  exact hne (hfirst _ (mem_all_of_mem hterms hmem) hle hname)

/-- The row of a factor is found by the factor's name, whatever the names are. -/
theorem effect?_of_factor {factor : String} (hfactor : factor ∈ factors) :
    ∃ row, table.effect? factor = some row ∧ row.term = ⟨[factor]⟩ := by
  have hterm : Term.mk [factor] ∈ Term.all factors :=
    Term.mem_all.mpr ⟨List.singleton_sublist.mpr hfactor, by simp⟩
  have hname : ∀ name, (Term.mk [name]).name = name := fun name => by simp [Term.name]
  have hfirst : ∀ other ∈ Term.all factors, other.order ≤ (Term.mk [factor]).order →
      other.name = (Term.mk [factor]).name → other = ⟨[factor]⟩ := by
    rintro ⟨names⟩ hother hle hsame
    -- A term of at most one factor is the effect of one, and is named for it.
    obtain ⟨-, hne⟩ := Term.mem_all.mp hother
    obtain ⟨own, rfl⟩ : ∃ own, names = [own] :=
      List.length_eq_one_iff.mp (hle.antisymm (List.length_pos_of_ne_nil hne))
    rw [hname, hname] at hsame
    rw [hsame]
  obtain ⟨row, -, hrow, hfound⟩ := effect?_of_term hnodup hterms hterm hfirst
  rw [hname] at hfound
  exact ⟨row, hfound, hrow⟩

theorem nodup_names_iff :
    (table.effects.map Effect.name).Nodup ↔ Term.NamesApart factors := by
  have hnames : table.effects.map Effect.name = (Term.all factors).map Term.name := by
    rw [← hterms, List.map_map]
    rfl
  rw [hnames, List.nodup_map_iff_inj_on (Term.nodup_all hnodup)]
  rfl

/-- Every row is found by its own name exactly if no other has that name. -/
theorem forall_effect?_name_iff :
    (∀ row ∈ table.effects, table.effect? row.name = some row) ↔ Term.NamesApart factors := by
  constructor
  · intro hfound term hterm other hother hname
    obtain ⟨row, hrow, rfl⟩ := exists_row hterms hterm
    obtain ⟨row', hrow', rfl⟩ := exists_row hterms hother
    have hlookup : table.effect? row.name = table.effect? row'.name := congrArg table.effect? hname
    rw [hfound row hrow, hfound row' hrow'] at hlookup
    rw [Option.some_injective _ hlookup]
  · intro hapart row hrow
    have hnames := (nodup_names_iff hnodup hterms).mpr hapart
    obtain ⟨before, after, heffects⟩ := List.append_of_mem hrow
    refine effect?_eq_some.mpr ⟨rfl, before, after, heffects, ?_⟩
    intro other hother
    rw [heffects, List.map_append, List.nodup_append] at hnames
    exact hnames.2.2 _ (List.mem_map_of_mem hother) _ List.mem_cons_self

end

section

variable (hterms : table.effects.map Effect.term = Term.all factors)
  (hfactors : Term.ColonFree factors) {names : List String} (hne : names ≠ [])
  (hnames : Term.ColonFree names)

include hterms hfactors hne hnames

/-- Names between colons find no row but that of the factors of these names, in this order. -/
theorem factors_of_effect?_intercalate
    (hrow : table.effect? (":".intercalate names) = some row) : row.term.factors = names := by
  obtain ⟨hname, _, _, heffects, -⟩ := effect?_eq_some.mp hrow
  have hmem : row ∈ table.effects := by simp [heffects]
  obtain ⟨hsub, hne'⟩ := Term.mem_all.mp (mem_all_of_mem hterms hmem)
  have hfree : Term.ColonFree row.term.factors := fun name h => hfactors name (hsub.subset h)
  have hsame : row.term.name = (Term.mk names).name := hname
  exact congrArg Term.factors (Term.eq_of_name_eq hsame hne' hfree hne hnames)

theorem isSome_effect?_intercalate :
    (table.effect? (":".intercalate names)).isSome ↔ names.Sublist factors := by
  constructor
  · intro hsome
    obtain ⟨row, hrow⟩ := Option.isSome_iff_exists.mp hsome
    obtain ⟨-, _, _, heffects, -⟩ := effect?_eq_some.mp hrow
    have hmem : row ∈ table.effects := by simp [heffects]
    rw [← factors_of_effect?_intercalate hterms hfactors hne hnames hrow]
    exact (Term.mem_all.mp (mem_all_of_mem hterms hmem)).1
  · intro hsub
    have hmem : Term.mk names ∈ Term.all factors := Term.mem_all.mpr ⟨hsub, hne⟩
    obtain ⟨row, hrow, hterm⟩ := exists_row hterms hmem
    rw [effect?, List.find?_isSome]
    exact ⟨row, hrow, by simp [Effect.name, hterm, Term.name]⟩

end

end VarianceTable

/-- A table has one row for each non-empty sublist of its factors and no others. Its rows have distinct names, and
each is found by its own, exactly if no two sublists are the same between colons. So it is where no
factor has a colon in its name, and then names between colons find the row of just these factors if
the request lists them in this order. The row of a single factor is found in any case. As text a
table begins each line with the name of its row. -/
theorem Variance.rows_by_name :
    (∀ {α : Type} [Scalar α] (d : Distribution α) (data : Dataset α) (target : String)
      (factors : List String) (table : VarianceTable α),
      analyze d data target factors = .ok table →
        (∀ row ∈ table.effects, row.term.factors.Sublist factors ∧ row.term.factors ≠ []) ∧
        (∀ names, names.Sublist factors → names ≠ [] →
          ∃! i : Fin table.effects.length, table.effects[i].term.factors = names) ∧
        ((table.effects.map Effect.name).Nodup ↔ Term.NamesApart factors) ∧
        ((∀ row ∈ table.effects, table.effect? row.name = some row) ↔ Term.NamesApart factors) ∧
        (Term.ColonFree factors → Term.NamesApart factors) ∧
        (∀ factor ∈ factors, ∃ row, table.effect? factor = some row ∧
          row.term.factors = [factor]) ∧
        (Term.ColonFree factors → ∀ names, names ≠ [] → Term.ColonFree names →
          ((table.effect? (":".intercalate names)).isSome ↔ names.Sublist factors) ∧
          ∀ row, table.effect? (":".intercalate names) = some row →
            row.term.factors = names)) ∧
    ∀ table : VarianceTable Float, ∃ lines, Report.tableText table = Delimited.written lines ∧
      lines.map List.head? =
        ("term" :: table.effects.map Effect.name ++ ["Residual"]).map some := by
  constructor
  · intro α _ d data target factors table h
    obtain ⟨hnodup, hterms⟩ := analyze_terms h
    refine ⟨?_, ?_, VarianceTable.nodup_names_iff hnodup hterms,
      VarianceTable.forall_effect?_name_iff hnodup hterms, Term.namesApart_of_colonFree, ?_, ?_⟩
    · exact fun row hrow => Term.mem_all.mp (VarianceTable.mem_all_of_mem hterms hrow)
    · exact fun names hsub hne => VarianceTable.existsUnique_row hnodup hterms hsub hne
    · intro factor hfactor
      obtain ⟨row, hfound, hterm⟩ := VarianceTable.effect?_of_factor hnodup hterms hfactor
      exact ⟨row, hfound, congrArg Term.factors hterm⟩
    · intro hfactors names hne hnames
      exact ⟨VarianceTable.isSome_effect?_intercalate hterms hfactors hne hnames,
        fun _ => VarianceTable.factors_of_effect?_intercalate hterms hfactors hne hnames⟩
  · intro table
    refine ⟨_, rfl, ?_⟩
    simp [VarianceTable.residualName]

/-! ## A factor named like an interaction -/

namespace Sample

open Exact

/-- One of two labels, by a binary digit of a position. -/
def digitLabel (place i : ℕ) : String :=
  if i / 2 ^ place % 2 = 0 then "s" else "t"

def nestedRecord (i : ℕ) : Record (Value Exact) :=
  ⟨[("a", .text (digitLabel 0 i)), ("a:b", .text (digitLabel 1 i)),
    ("b", .text (digitLabel 2 i)), ("y", .number (real i))], List.pairwise_map.mp pairwise_colon⟩

/-- Three factors of two levels, with a record for each combination and one more. -/
def nested : Dataset Exact :=
  ⟨(List.range 9).map nestedRecord⟩

theorem record_nested (i : Fin nested.size) : nested.record i = nestedRecord i := by
  simp [Dataset.record, nested]

def place (name : String) : ℕ :=
  ["a", "a:b", "b"].idxOf name

theorem level_nested : ∀ name ∈ ["a", "b", "a:b"], ∀ i : Fin nested.size,
    nested.level? i name = some (digitLabel (place name) i) := by
  intro name hname i
  rw [Dataset.level?, record_nested]
  simp only [List.mem_cons, List.not_mem_nil, or_false] at hname
  rcases hname with rfl | rfl | rfl
  · rfl
  · rfl
  · rfl

theorem hasLevels_nested : ∀ name ∈ ["a", "b", "a:b"], nested.HasLevels name := by
  intro name hname i
  rw [level_nested name hname]
  rfl

theorem two_le_nested : ∀ name ∈ ["a", "b", "a:b"], 2 ≤ nested.levelCount name := by
  intro name hname
  have hfirst : digitLabel (place name) 0 = "s" := by simp [digitLabel]
  have hlast : digitLabel (place name) 7 = "t" := by
    simp only [List.mem_cons, List.not_mem_nil, or_false] at hname
    rcases hname with rfl | rfl | rfl
    · rfl
    · rfl
    · rfl
  refine Finset.one_lt_card.mpr ⟨some "s", ?_, some "t", ?_, by decide⟩
  · rw [← hfirst, Finset.mem_image]
    exact ⟨⟨0, by decide⟩, Finset.mem_univ _, level_nested name hname _⟩
  · rw [← hlast, Finset.mem_image]
    exact ⟨⟨7, by decide⟩, Finset.mem_univ _, level_nested name hname _⟩

theorem levelCount_nested : ∀ name ∈ ["a", "b", "a:b"], nested.levelCount name = 2 := by
  intro name hname
  refine le_antisymm ?_ (two_le_nested name hname)
  have hsub : (Finset.univ.image fun i => nested.level? i name) ⊆ {some "s", some "t"} := by
    intro label hlabel
    obtain ⟨i, -, rfl⟩ := Finset.mem_image.mp hlabel
    rw [level_nested name hname, digitLabel]
    split <;> simp
  exact (Finset.card_le_card hsub).trans Finset.card_le_two

theorem crossed_nested : Variance.Crossed nested ["a", "b", "a:b"] := by
  refine ⟨by simp, by decide, by decide, hasLevels_nested, two_le_nested, ?_⟩
  have hlevels : ∀ name ∈ ["a", "b", "a:b"].toFinset, nested.HasLevels name :=
    fun name hname => hasLevels_nested name (List.mem_toFinset.mp hname)
  rw [Variance.complete_iff (by decide) hlevels]
  intro own
  -- The record whose digits are those of the records that the labels are taken from.
  let i : ℕ := (own "a" : ℕ) % 2 + 2 * ((own "a:b" : ℕ) / 2 % 2) + 4 * ((own "b" : ℕ) / 4 % 2)
  have hi : i < nested.size := by
    change i < 9
    omega
  refine ⟨⟨i, hi⟩, ?_⟩
  intro name hname
  rw [List.mem_toFinset] at hname
  rw [level_nested name hname, level_nested name hname]
  have hdigit : i / 2 ^ place name % 2 = (own name : ℕ) / 2 ^ place name % 2 := by
    simp only [List.mem_cons, List.not_mem_nil, or_false] at hname
    rcases hname with rfl | rfl | rfl
    · change i / 1 % 2 = (own "a" : ℕ) / 1 % 2
      omega
    · change i / 4 % 2 = (own "b" : ℕ) / 4 % 2
      omega
    · change i / 2 % 2 = (own "a:b" : ℕ) / 2 % 2
      omega
  rw [digitLabel, digitLabel, hdigit]

theorem exists_analyze_nested : ∃ table,
    Variance.analyze Distribution.exactFisher nested "y" ["a", "b", "a:b"] = .ok table := by
  have hreals : nested.HasReals "y" := by
    intro i
    rw [record_nested]
    exact ⟨_, rfl⟩
  have hkeep : Variance.KeepsIndependent nested ["a", "b", "a:b"] :=
    Variance.keepsIndependent (by decide) _
  have hcells : ∏ name ∈ ["a", "b", "a:b"].toFinset, nested.levelCount name = 2 * 2 * 2 := by
    rw [List.prod_toFinset _ (by decide), List.map_congr_left levelCount_nested]
    rfl
  obtain ⟨whole, hwhole⟩ := Variance.exists_multiWay hasTails hreals crossed_nested hkeep
    (by rw [hcells]; decide)
  exact ⟨_, (Variance.analyze_eq_ok hkeep).mpr ⟨whole, hwhole, rfl⟩⟩

def labelled (a b : String) (y : Float) : Record (Value Float) :=
  ⟨[("a", .text a), ("b", .text b), ("y", .number y)],
    List.pairwise_map.mp (by decide : ["a", "b", "y"].Pairwise (· < ·))⟩

def turned : Dataset Float :=
  ⟨[labelled "s" "m" 1, labelled "s" "n" 2, labelled "t" "m" 4, labelled "t" "n" 9,
    labelled "t" "n" 7]⟩

end Sample

namespace Variance

open Sample

theorem rows_by_name_samples :
    (∃ table, analyze Distribution.exactFisher Sample.data "y" ["a", "b"] = .ok table ∧
      (table.effects.map Effect.name).Nodup ∧
      ∃ row, table.effect? "a:b" = some row ∧ row.term.factors = ["a", "b"]) ∧
    ∃ table, analyze Distribution.exactFisher nested "y" ["a", "b", "a:b"] = .ok table ∧
      ∃ row, table.effect? "a:b" = some row ∧ row.term.factors = ["a:b"] := by
  constructor
  · obtain ⟨whole, hwhole⟩ := exists_table
    have htable := (analyze_eq_ok keeps).mpr ⟨whole, hwhole, rfl⟩
    obtain ⟨-, -, hnames, -, hapart, -, hjoined⟩ := rows_by_name.1 _ _ _ _ _ htable
    have hfree : Term.ColonFree ["a", "b"] := by decide
    have hname : ":".intercalate ["a", "b"] = "a:b" := by decide
    obtain ⟨hfound, hfactors⟩ := hjoined hfree ["a", "b"] (by simp) hfree
    obtain ⟨row, hrow⟩ := Option.isSome_iff_exists.mp (hfound.mpr (List.Sublist.refl _))
    have hpair := hfactors row hrow
    rw [hname] at hrow
    exact ⟨_, htable, hnames.mpr (hapart hfree), row, hrow, hpair⟩
  · obtain ⟨table, htable⟩ := exists_analyze_nested
    obtain ⟨-, -, -, -, -, hmain, -⟩ := rows_by_name.1 _ _ _ _ _ htable
    exact ⟨table, htable, hmain "a:b" (by simp)⟩

/-- The factor `a:b` and the interaction of `a` and `b` have rows of one name, so one of them is not
found. And the interaction of factors is not found by their names in another order than that of the
request. -/
theorem rows_not_told_apart :
    (∃ table, analyze Distribution.exactFisher nested "y" ["a", "b", "a:b"] = .ok table ∧
      ¬(table.effects.map Effect.name).Nodup ∧
      ∃ row ∈ table.effects, table.effect? row.name ≠ some row) ∧
    ∃ table, analyze Distribution.standard turned "y" ["b", "a"] = .ok table ∧
      table.effect? "a:b" = none := by
  constructor
  · obtain ⟨table, htable⟩ := exists_analyze_nested
    obtain ⟨hnodup, hterms⟩ := analyze_terms htable
    have hapart : ¬Term.NamesApart ["a", "b", "a:b"] := by decide
    refine ⟨table, htable, ?_, ?_⟩
    · rwa [VarianceTable.nodup_names_iff hnodup hterms]
    · rw [← VarianceTable.forall_effect?_name_iff hnodup hterms] at hapart
      push Not at hapart
      exact hapart
  · have hfound : ((analyze Distribution.standard turned "y" ["b", "a"]).toOption.map
        fun table => (table.effect? "a:b").isNone) = some true := by
      decide +kernel
    obtain ⟨table, htable, hnone⟩ := Option.map_eq_some_iff.mp hfound
    exact ⟨table, toOption_eq_some.mp htable, Option.isNone_iff_eq_none.mp hnone⟩

end Variance

end Significance
