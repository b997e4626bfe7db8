import Significance.Proofs.Labelling

/-! # What the check of cells tells

The check of the full lattice passes exactly if every combination of levels of all factors occurs.
Otherwise it tells the first term that lacks a combination of its levels, with the first one that it
lacks. -/

namespace Significance

variable {n : ℕ} {label : String → Fin n → String} {names : List String}

/-- Where some combination is not that of a record, there is a first one. -/
theorem exists_firstUnobserved (hne : names ≠ []) (hnodup : names.Nodup)
    (h : ¬Observed label names) : ∃ level, FirstUnobserved label names level := by
  have hcoded : ∀ name ∈ names, (Factor.labelled label name).Coded n :=
    fun name _ => Factor.coded_labelled label name
  have hsome : ∃ cell, Cell.firstEmpty? (names.map (Factor.labelled label)) = some cell := by
    rw [← Option.ne_none_iff_exists']
    rwa [observed_iff_complete, ← Cell.firstEmpty?_eq_none hne hnodup hcoded] at h
  obtain ⟨cell, hcell⟩ := hsome
  obtain ⟨level, hlevel, -⟩ := (exists_firstUnobserved_iff label hne hnodup (p := fun _ => True)).mpr
    ⟨cell, hcell, trivial⟩
  exact ⟨level, hlevel⟩

/-- A term over a proper part of the factors of another one has fewer factors. -/
theorem Term.order_lt_of_support_ssubset {factors : List String} (hnodup : factors.Nodup)
    {term other : Term} (hterm : term ∈ all factors) (hother : other ∈ all factors)
    (h : other.support ⊂ term.support) : other.order < term.order := by
  have hcard := Finset.card_lt_card h
  rwa [support, support, List.toFinset_card_of_nodup ((mem_all.mp hother).1.nodup hnodup),
    List.toFinset_card_of_nodup ((mem_all.mp hterm).1.nodup hnodup)] at hcard

theorem cellText_eq (names : List String) (level : String → String) :
    cellText (names.map fun name => (name, level name)) =
      ", ".intercalate (names.map fun name => name ++ "=" ++ level name) := by
  rw [cellText, List.map_map]
  rfl

/-- The check passes where every combination of levels of all factors occurs. Otherwise it tells the
first term with a combination that does not, and of its combinations the first. -/
theorem Cell.check_of_lattice {α : Type} (l : Labelling n) {terms : List Term}
    (hterms : Term.lattice (α := α) l.names = .ok terms) :
    (check (α := α) l.factors terms = .ok () ↔ Observed l.label l.names) ∧
    (¬Observed l.label l.names → ∃ before term after level,
      terms = before ++ term :: after ∧
      (∀ earlier ∈ before, Observed l.label earlier.factors) ∧
      (∀ other ∈ terms, other.support ⊂ term.support → Observed l.label other.factors) ∧
      FirstUnobserved l.label term.factors level ∧
      check (α := α) l.factors terms =
        .error (.emptyCell term.name (term.factors.map fun name => (name, level name))) ∧
      cellText (term.factors.map fun name => (name, level name)) =
        ", ".intercalate (term.factors.map fun name => name ++ "=" ++ level name)) := by
  obtain ⟨hne, hnodup, -, rfl⟩ := Term.lattice_eq_ok.mp hterms
  have hok : check (α := α) l.factors (Term.all l.names) = .ok () ↔ Observed l.label l.names := by
    rw [observed_iff_complete]
    exact check_eq_ok _ (fun _ => rfl) hne hnodup fun name _ => Factor.coded_labelled l.label name
  refine ⟨hok, ?_⟩
  intro hnot
  cases hcheck : check (α := α) l.factors (Term.all l.names) with
  | ok => exact absurd (hok.mp hcheck) hnot
  | error e =>
      obtain ⟨before, term, after, hall, hbefore, level, hfirst, rfl⟩ :=
        First.map_iff_exists.mp
          ((refused_check l.label hnodup (fun _ hterm => hterm) e).mp hcheck)
      have hmem : ∀ other ∈ before ++ term :: after, other ∈ Term.all l.names :=
        fun other hother => hall ▸ hother
      have hterm : term ∈ Term.all l.names := hmem term (by simp)
      have hobserved : ∀ earlier ∈ before, Observed l.label earlier.factors := by
        intro earlier hearlier
        by_contra hlacks
        obtain ⟨hsub, hfactors⟩ :=
          Term.mem_all.mp (hmem earlier (List.mem_append_left _ hearlier))
        obtain ⟨other, hother⟩ := exists_firstUnobserved hfactors (hsub.nodup hnodup) hlacks
        exact hbefore earlier hearlier _ ⟨other, hother, rfl⟩
      refine ⟨before, term, after, level, hall, hobserved, ?_, hfirst, rfl, cellText_eq _ _⟩
      intro other hother hsub
      have hlt := Term.order_lt_of_support_ssubset hnodup hterm hother hsub
      exact hobserved other (Term.mem_before hall hother hlt)

theorem Sample.nodup_names : ["a", "b"].Nodup := by decide

/-- Three records that lack one of the combinations of two factors. -/
def Sample.gap : Labelling 3 where
  names := ["a", "b"]
  nodup := nodup_names
  label name := if name = "a" then !["s", "s", "t"] else !["u", "v", "u"]

open Sample in
theorem Cell.check_of_lattice_gap :
    Term.lattice (α := Float) gap.names = .ok [⟨["a"]⟩, ⟨["b"]⟩, ⟨["a", "b"]⟩] ∧
    check (α := Float) gap.factors [⟨["a"]⟩, ⟨["b"]⟩, ⟨["a", "b"]⟩] =
      .error (.emptyCell "a:b" [("a", "t"), ("b", "v")]) ∧
    ∃ level, FirstUnobserved gap.label ["a", "b"] level ∧ level "a" = "t" ∧ level "b" = "v" := by
  have hlattice : Term.lattice (α := Float) gap.names =
      .ok [⟨["a"]⟩, ⟨["b"]⟩, ⟨["a", "b"]⟩] := rfl
  have hcheck : check (α := Float) gap.factors [⟨["a"]⟩, ⟨["b"]⟩, ⟨["a", "b"]⟩] =
      .error (.emptyCell "a:b" [("a", "t"), ("b", "v")]) := by cbv
  obtain ⟨hok, hfirst⟩ := check_of_lattice gap hlattice
  have hnot : ¬Observed gap.label gap.names := by
    rw [← hok, hcheck]
    simp
  obtain ⟨_, ⟨names⟩, _, level, -, -, -, hlevel, htold, -⟩ := hfirst hnot
  rw [hcheck] at htold
  injection htold with htold
  injection htold with _ hcell
  have hnames : names = ["a", "b"] := by
    simpa [Function.comp_def] using congrArg (List.map Prod.fst) hcell.symm
  subst hnames
  simp only [List.map_cons, List.map_nil, List.cons.injEq, Prod.mk.injEq, true_and, and_true]
    at hcell
  exact ⟨hlattice, hcheck, level, hlevel, hcell.1.symm, hcell.2.symm⟩

end Significance
