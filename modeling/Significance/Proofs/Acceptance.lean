import Significance.Proofs.Refusals

/-! # Which requests are accepted

An analysis fails for the first of its reasons that holds, and succeeds where none holds. The order
of the reasons is that of the checks, and one factor has the same as several. -/

namespace Significance

open Success Exact

namespace Variance

section

variable {α : Type} [Scalar α]

/-- What a factor can be refused for. -/
def factorRefusals (data : Dataset α) (name : String) : List (Error α → Prop) :=
  [Refusal.unfitValue data name Refusal.categoryFault?, Refusal.singleLevel data name]

/-- What an analysis of some fields can be refused for, in the order in which it is told. -/
def fieldRefusals (data : Dataset α) (target : String) (factors : List String) :
    List (Error α → Prop) :=
  [Refusal.unfitValue data target Refusal.numberFault?] ++
    (factors.flatMap (factorRefusals data) ++
      [Refusal.tooManyFactors factors, Refusal.emptyCell data factors,
        Refusal.noResidual data factors])

/-- What an analysis can be refused for, in the order in which it is told. -/
def refusals (data : Dataset α) (target : String) (factors : List String) :
    List (Error α → Prop) :=
  [Refusal.noFactors factors, Refusal.repeatedFactor factors] ++
    ([Refusal.missingField data (target :: factors), Refusal.noRecords data] ++
      fieldRefusals data target factors)

end

section

variable [Wording] {d : Distribution Exact} {data : Dataset Exact} {target : String}
  {factors : List String}

/-- The model has no more columns than there are records. -/
theorem Crossed.prod_levelCount_le (h : Crossed data factors) :
    ∏ name ∈ factors.toFinset, data.levelCount name ≤ data.size := by
  have hle := Submodule.finrank_le (dependingOn data.level? factors.toFinset)
  rwa [h.finrank_dependingOn, Module.finrank_fin_fun] at hle

theorem refused_multiWay (htails : d.HasTails) (hkeep : KeepsIndependent data factors)
    (hne : factors ≠ []) (hnodup : factors.Nodup) (hpos : 0 < data.size)
    (hall : ∀ i, ∀ name ∈ target :: factors, (data.record i).contains name) :
    Refused (multiWay d data target factors) (fieldRefusals data target factors) := by
  have hfactors : ∀ i, ∀ name ∈ factors, (data.record i).contains name :=
    fun i name hname => hall i name (List.mem_cons_of_mem _ hname)
  apply (Dataset.refused_numericColumn fun i => hall i target List.mem_cons_self).bind
  intro response hresponse
  obtain ⟨-, rfl⟩ := Dataset.numericColumn_eq_ok.mp hresponse
  apply (refused_testableFactors hfactors hpos).bind
  intro groupings hgroupings
  obtain ⟨htestable, rfl⟩ := testableFactors_eq_ok.mp hgroupings
  have hlevels : ∀ name ∈ factors, data.HasLevels name := fun name hname => (htestable name hname).1
  apply (Term.refused_lattice hne hnodup).bind_cons
  intro terms hterms
  obtain ⟨-, -, hlength, rfl⟩ := Term.lattice_eq_ok.mp hterms
  apply (Dataset.refused_check hne hnodup hlevels).bind_cons
  intro _ hcheck
  -- From here on the factors are crossed, so the design and the fit of the full model are there.
  have hcomplete := (Cell.check_eq_ok data.grouping (fun _ => rfl) hne hnodup
    fun name _ => data.coded_grouping name).mp hcheck
  have h : Crossed data factors :=
    ⟨hne, hnodup, hlength, hlevels, fun name hname => (htestable name hname).2, hcomplete⟩
  obtain ⟨-, -, -, hdesign⟩ := h.checks
  obtain ⟨left, hleft⟩ :=
    exists_isLeastDistance (dependingOn data.level? factors.toFinset) (data.reals target)
  have hle := h.prod_levelCount_le
  rw [hdesign, ok_bind, full_eq h hkeep hleft, ok_bind]
  apply Refused.check
  · change _ ↔ data.size - ∏ name ∈ factors.toFinset, data.levelCount name = 0
    omega
  · intro _
    obtain ⟨effects, heffects⟩ := exists_effects htails h hkeep (data.reals target) _
    rw [heffects, ok_bind]
    exact Refused.ok _

theorem refused_answer (htails : d.HasTails) {request : Request}
    (hkeep : KeepsIndependent data request.factors) (hne : request.factors ≠ [])
    (hnodup : request.factors.Nodup) :
    Refused (answer d data target request)
      ([Refusal.missingField data (target :: request.factors), Refusal.noRecords data] ++
        fieldRefusals data target request.factors) := by
  apply (data.refused_requireFields (target :: request.factors)).bind
  intro _ hfields
  have hall := Dataset.requireFields_eq_ok.mp hfields
  apply Refused.check
  · rw [Dataset.size, List.length_eq_zero_iff, Dataset.isEmpty, List.isEmpty_iff]
  · intro hempty
    have hpos : 0 < data.size := by
      rw [Dataset.isEmpty, List.isEmpty_iff] at hempty
      exact List.length_pos_iff.mpr hempty
    have hrefused := refused_multiWay (d := d) htails hkeep hne hnodup hpos hall
    cases request with
    | oneWay factor =>
        rw [Request.factors, multiWay_singleton hkeep] at hrefused
        exact Refused.map_iff.mp hrefused
    | multiWay factors => exact hrefused

/-- An analysis fails with the error of the first reason that holds, and succeeds exactly where no
reason holds. -/
theorem analyze_eq_error_iff (htails : d.HasTails) (hkeep : KeepsIndependent data factors) :
    (∀ e, analyze d data target factors = .error e ↔ First (refusals data target factors) e) ∧
      ((∃ table, analyze d data target factors = .ok table) ↔
        ∀ reason ∈ refusals data target factors, ∀ e, ¬reason e) := by
  have hrefused : Refused (analyze d data target factors) (refusals data target factors) := by
    apply (Request.refused_ofFactors factors).bind
    intro request hrequest
    obtain ⟨rfl, hne, hnodup⟩ := Request.ofFactors_eq_ok hrequest
    exact refused_answer htails hkeep hne hnodup
  exact ⟨hrefused, hrefused.exists_ok_iff⟩

end

section

open Sample

/-- A sample is accepted with two factors. With one of them again it is refused for the repeated
name. -/
theorem analyze_eq_error_iff_sample :
    (∀ reason ∈ refusals Sample.data "y" ["a", "b"], ∀ e, ¬reason e) ∧
      analyze Distribution.exactFisher Sample.data "y" ["a", "b", "a"] =
        .error (.repeatedFactor "a") := by
  constructor
  · obtain ⟨whole, hwhole⟩ := exists_table
    have htable := (analyze_eq_ok keeps).mpr ⟨whole, hwhole, rfl⟩
    exact (analyze_eq_error_iff hasTails keeps).2.mp ⟨_, htable⟩
  · have hkeep : KeepsIndependent Sample.data ["a", "b", "a"] := keepsIndependent (by decide) _
    refine ((analyze_eq_error_iff hasTails hkeep).1 _).mpr ?_
    apply First.later
    · rintro e ⟨hnil, -⟩
      exact absurd hnil (by simp)
    · exact First.here ⟨["a", "b"], "a", [], rfl, by decide, by decide, rfl⟩

end

end Variance

end Significance
