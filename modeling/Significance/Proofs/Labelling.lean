import Significance.Proofs.EmptyCells
import Significance.Proofs.Precedence

/-! # Factors of labelled records

Factors with distinct names over the same records are given by a label of every record under every
name. A term has an empty cell exactly if some combination of its levels is not that of a record,
and the check tells the first of these combinations. -/

namespace Significance

variable {n : ℕ}

/-- The factor of the labels under a name. -/
def Factor.labelled (label : String → Fin n → String) (name : String) : Factor :=
  ofLabels name (List.ofFn (label name))

/-- Distinct names, and a label of every record under every name. -/
structure Labelling (n : ℕ) where
  names : List String
  nodup : names.Nodup
  label : String → Fin n → String

namespace Labelling

def factors (l : Labelling n) : List Factor :=
  l.names.map (Factor.labelled l.label)

/-- Factors with distinct names over the same records are those of a labelling. -/
theorem exists_factors_eq {factors : List Factor} (hnodup : (factors.map Factor.name).Nodup)
    (h : ∀ factor ∈ factors, ∃ labels : List String, labels.length = n ∧
      factor = Factor.ofLabels factor.name labels) :
    ∃ l : Labelling n, l.names = factors.map Factor.name ∧ l.factors = factors := by
  have hlabel : ∀ name, ∃ label : Fin n → String, ∀ factor ∈ factors, factor.name = name →
      factor = Factor.ofLabels name (List.ofFn label) := by
    intro name
    by_cases hname : ∃ factor ∈ factors, factor.name = name
    · obtain ⟨factor, hfactor, rfl⟩ := hname
      obtain ⟨labels, rfl, heq⟩ := h factor hfactor
      refine ⟨labels.get, ?_⟩
      intro other hother hsame
      rw [List.inj_on_of_nodup_map hnodup hother hfactor hsame, List.ofFn_get]
      exact heq
    · exact ⟨fun _ => "", fun factor hfactor heq => absurd ⟨factor, hfactor, heq⟩ hname⟩
  choose label hlabel using hlabel
  refine ⟨⟨factors.map Factor.name, hnodup, label⟩, rfl, ?_⟩
  calc
    (factors.map Factor.name).map (Factor.labelled label) = factors.map fun factor => factor := by
      rw [List.map_map]
      exact List.map_congr_left fun factor hfactor => (hlabel _ factor hfactor rfl).symm
    _ = factors := List.map_id' factors

end Labelling

/-- Four records, one for each combination of two factors with two levels. -/
def Sample.twoByTwo : Labelling 4 where
  names := ["a", "b"]
  nodup := by decide
  label name := if name = "a" then !["s", "s", "t", "t"] else !["u", "v", "u", "v"]

/-! ## Combinations of levels -/

section

variable (label : String → Fin n → String)

/-- Every combination of one level per name is that of a record. -/
def Observed (names : List String) : Prop :=
  ∀ level : String → String, (∀ name ∈ names, level name ∈ (Factor.labelled label name).levels) →
    ∃ i, ∀ name ∈ names, label name i = level name

/-- A combination of one level per name that is not that of a record. -/
structure Unobserved (names : List String) (level : String → String) : Prop where
  level_mem : ∀ name ∈ names, level name ∈ (Factor.labelled label name).levels
  lacks : ∀ i, ∃ name ∈ names, label name i ≠ level name

/-- Of the combinations that are not those of records, the first in lexicographic order. -/
structure FirstUnobserved (names : List String) (level : String → String) : Prop
    extends Unobserved label names level where
  first : ∀ other, Unobserved label names other → ¬names.map other < names.map level

end

section

variable {label : String → Fin n → String} {names : List String}

theorem not_observed_iff : ¬Observed label names ↔ ∃ level, Unobserved label names level := by
  simp only [Observed, not_forall, not_exists]
  constructor
  · rintro ⟨level, hlevel, hnone⟩
    exact ⟨level, hlevel, fun i => by simpa using hnone i⟩
  · rintro ⟨level, hlevel, hlacks⟩
    exact ⟨level, hlevel, fun i => by simpa using hlacks i⟩

namespace Factor

theorem coded_labelled (label : String → Fin n → String) (name : String) :
    (labelled label name).Coded n :=
  coded_ofLabels name (label name)

theorem pairwise_labelled (label : String → Fin n → String) (name : String) :
    (labelled label name).levels.Pairwise (· < ·) :=
  Text.pairwise_sortedDistinct _

theorem label_mem {factor : Factor} {c : ℕ} (hc : c < factor.levels.length) :
    factor.label c ∈ factor.levels := by
  rw [label, List.getD_eq_getElem _ _ hc]
  exact List.getElem_mem hc

/-- The code of a record stands for its label. -/
theorem label_code (label : String → Fin n → String) (name : String) (i : Fin n) :
    (labelled label name).label ((labelled label name).code i) = label name i := by
  have hmem : label name i ∈ (labelled label name).levels := (mem_levels name _).mpr ⟨i, rfl⟩
  have hcode : (labelled label name).code i = (labelled label name).levels.idxOf (label name i) :=
    code_ofLabels name (label name) i
  rw [hcode, label_idxOf hmem]

end Factor

open Factor

/-- The codes of a combination that no record has. -/
theorem unobserved_iff {level : String → String} :
    Unobserved label names level ↔ ∃ a : String → ℕ,
      (∀ name ∈ names, a name < (labelled label name).levels.length) ∧
      (∀ name ∈ names, level name = (labelled label name).label (a name)) ∧
      ∀ i : Fin n, ¬∀ name ∈ names, (labelled label name).code i = a name := by
  constructor
  · rintro ⟨hmem, hlacks⟩
    have hlabel := fun name hname => (Factor.label_idxOf (hmem name hname)).symm
    refine ⟨fun name => (labelled label name).levels.idxOf (level name),
      fun name hname => List.idxOf_lt_length_of_mem (hmem name hname), hlabel, ?_⟩
    intro i hall
    obtain ⟨name, hname, hne⟩ := hlacks i
    exact hne (by rw [← label_code label name i, hall name hname, ← hlabel name hname])
  · rintro ⟨a, ha, hlabel, hnone⟩
    constructor
    · intro name hname
      rw [hlabel name hname]
      exact label_mem (ha name hname)
    · intro i
      by_contra hall
      push Not at hall
      refine hnone i fun name hname => ?_
      have heq := hall name hname
      rw [← label_code label name i, hlabel name hname] at heq
      exact label_inj (pairwise_labelled label name) ((coded_labelled label name).code_lt i)
        (ha name hname) heq

theorem observed_iff_complete :
    Observed label names ↔ Complete n (labelled label) names.toFinset := by
  rw [← not_iff_not, not_observed_iff]
  simp only [unobserved_iff, Complete, List.mem_toFinset]
  push Not
  constructor
  · rintro ⟨-, a, ha, -, hnone⟩
    exact ⟨a, ha, hnone⟩
  · rintro ⟨a, ha, hnone⟩
    exact ⟨fun name => (labelled label name).label (a name), a, ha, fun _ _ => rfl, hnone⟩

/-- The levels of one combination stand before those of another only if its number is smaller. -/
theorem number_lt_of_map_lt {level level' : String → String} {a a' : String → ℕ}
    (ha : ∀ name ∈ names, a name < (labelled label name).levels.length)
    (ha' : ∀ name ∈ names, a' name < (labelled label name).levels.length)
    (hlabel : ∀ name ∈ names, level name = (labelled label name).label (a name))
    (hlabel' : ∀ name ∈ names, level' name = (labelled label name).label (a' name))
    (hlt : names.map level < names.map level') :
    Cell.number (labelled label) names a < Cell.number (labelled label) names a' := by
  rw [List.map_congr_left hlabel, List.map_congr_left hlabel'] at hlt
  exact Cell.number_lt_of_levels_lt (fun name _ => pairwise_labelled label name) ha ha' hlt

variable (label) in
/-- The first cell without records has the levels of the first combination without records. -/
theorem exists_firstUnobserved_iff (hne : names ≠ []) (hnodup : names.Nodup)
    {p : List (String × String) → Prop} :
    (∃ level, FirstUnobserved label names level ∧ p (names.map fun name => (name, level name))) ↔
      ∃ cell, Cell.firstEmpty? (names.map (labelled label)) = some cell ∧
        p (Cell.levels (names.map (labelled label)) cell) := by
  simp only [Cell.firstEmpty?_eq_some hne hnodup fun name _ => coded_labelled label name]
  constructor
  · rintro ⟨level, ⟨hlevel, hfirst⟩, hp⟩
    obtain ⟨a, ha, hlabel, hnone⟩ := unobserved_iff.mp hlevel
    refine ⟨_, ⟨a, ha, rfl, hnone, ?_⟩, ?_⟩
    · intro b hb hnoneB
      have hother : Unobserved label names fun name => (labelled label name).label (b name) :=
        unobserved_iff.mpr ⟨b, hb, fun _ _ => rfl, hnoneB⟩
      rcases lt_trichotomy (names.map level)
        (names.map fun name => (labelled label name).label (b name)) with hlt | heq | hgt
      · exact (number_lt_of_map_lt ha hb hlabel (fun _ _ => rfl) hlt).le
      · apply (Cell.number_congr _).le
        intro name hname
        apply label_inj (pairwise_labelled label name) (ha name hname) (hb name hname)
        rw [← hlabel name hname]
        exact List.map_inj_left.mp heq name hname
      · exact absurd hgt (hfirst _ hother)
    · have hlevels : Cell.levels (names.map (labelled label))
          (Cell.number (labelled label) names a) = names.map fun name => (name, level name) := by
        rw [Cell.levels_number ha]
        apply List.map_congr_left
        intro name hname
        rw [hlabel name hname]
        rfl
      rwa [hlevels]
  · rintro ⟨_, ⟨a, ha, rfl, hnone, hfirst⟩, hp⟩
    rw [Cell.levels_number ha] at hp
    refine ⟨fun name => (labelled label name).label (a name),
      ⟨unobserved_iff.mpr ⟨a, ha, fun _ _ => rfl, hnone⟩, ?_⟩, hp⟩
    intro other hother hlt
    obtain ⟨b, hb, hlabel, hnoneB⟩ := unobserved_iff.mp hother
    have hsmaller := number_lt_of_map_lt hb ha hlabel (fun _ _ => rfl) hlt
    exact absurd (hfirst b hb hnoneB) (not_le.mpr hsmaller)

end

/-! ## The check of terms -/

/-- A term is refused for the first combination of its levels that is not that of a record. -/
def Refusal.cellOf {α : Type} (label : String → Fin n → String) (term : Term) (e : Error α) :
    Prop :=
  ∃ level, FirstUnobserved label term.factors level ∧
    e = .emptyCell term.name (term.factors.map fun name => (name, level name))

theorem Cell.refused_check {α : Type} (label : String → Fin n → String) {names : List String}
    {terms : List Term} (hnodup : names.Nodup) (hterms : ∀ term ∈ terms, term ∈ Term.all names) :
    Refused (check (α := α) (names.map (Factor.labelled label)) terms)
      (terms.map (Refusal.cellOf label)) := by
  rw [check, List.map_eq_flatMap (f := Refusal.cellOf label)]
  apply Refused.forM
  intro term hterm
  obtain ⟨hsub, hne⟩ := Term.mem_all.mp (hterms term hterm)
  apply Refused.of_forall
  intro e
  have hcell := exists_firstUnobserved_iff label hne (hsub.nodup hnodup)
    (p := fun told => e = .emptyCell term.name told)
  rw [Refusal.cellOf, hcell, Term.resolve_eq (Factor.labelled label) (fun _ => rfl)
    fun x hx => hsub.subset hx, Success.ok_bind]
  cases firstEmpty? (term.factors.map (Factor.labelled label)) with
  | none => simp [pure, Except.pure]
  | some cell => simp [throw, throwThe, MonadExceptOf.throw, eq_comm]

end Significance
