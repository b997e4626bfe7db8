import Mathlib.LinearAlgebra.Dimension.OrzechProperty
import Significance.Proofs.Labelling
import Significance.Proofs.Rank

/-! # Designs of complete classifications

Where every combination of levels occurs, the columns of any terms are independent, and every fit
by them reports their number as its rank: the tolerance drops none. -/

namespace Significance

open LeastSquares Exact

variable {n : ℕ}

/-- A term brings a column for each choice of levels of its factors other than the first ones. -/
theorem Design.length_vectors_filter {g : String → Factor} {factors : List String}
    (hnodup : factors.Nodup) {chosen : List Term}
    (hchosen : ∀ term ∈ chosen, term ∈ Term.all factors) :
    (vectors n g ((Term.all factors).filter (chosen.contains ·))).length =
      1 + ∑ term ∈ chosen.toFinset, ∏ name ∈ term.support, ((g name).levels.length - 1) := by
  have hterms : ((Term.all factors).filter (chosen.contains ·)).toFinset = chosen.toFinset := by
    ext term
    simpa using hchosen term
  rw [length_vectors, ← List.sum_toFinset _ ((Term.nodup_all hnodup).filter _), hterms]
  congr 1
  apply Finset.sum_congr rfl
  intro term hterm
  have hsub := (Term.mem_all.mp (hchosen term (List.mem_toFinset.mp hterm))).1
  rw [Term.support, List.prod_toFinset _ (hsub.nodup hnodup)]

section

variable [Exact.Wording]

/-- The columns of some terms of a design, the intercept included, are independent, and every fit by
them has their number as its rank. -/
structure FullRank (design : Design) (chosen : List Term) (rank : ℕ)
    (columns : List (Fin n → ℝ)) : Prop where
  matrix_eq : Variance.modelMatrix (design.select chosen) = ⟨n, columns.map ofVector⟩
  length_eq : columns.length = rank
  independent : LinearIndependent ℝ columns.get
  fit_rank : ∀ y : Fin n → ℝ, ∃ fitted,
    Variance.fitTerms design (ofVector y) chosen = .ok fitted ∧ fitted.rank = rank

theorem CompleteClassification.fullRank {g : String → Factor} {factors : List String}
    (h : CompleteClassification n g factors) (hlength : factors.length ≤ Term.maxFactors)
    (hn : n ≤ 10 ^ 12) {chosen : List Term} (hchosen : ∀ term ∈ chosen, term ∈ Term.all factors) :
    FullRank (Design.ofBlocks n g (Term.all factors)) chosen
      (1 + ∑ term ∈ chosen.toFinset, ∏ name ∈ term.support, ((g name).levels.length - 1))
      (Design.vectors n g ((Term.all factors).filter (chosen.contains ·))) := by
  have hnodup := (Term.nodup_all h.nodup).filter (chosen.contains ·)
  have hterms : ∀ term ∈ (Term.all factors).filter (chosen.contains ·), term ∈ Term.all factors :=
    fun term hterm => List.mem_of_mem_filter hterm
  have hcount := Design.length_vectors_filter (n := n) (g := g) h.nodup hchosen
  refine ⟨?_, hcount, ?_, ?_⟩
  · rw [Design.select_ofBlocks]
    exact Design.modelMatrix_eq h.nodup hterms h.coded
  · rw [linearIndependent_iff_card_eq_finrank_span, Fintype.card_fin, Set.range_list_get]
    exact (h.finrank_columnSpan hnodup hterms).symm
  · intro y
    obtain ⟨r, hr⟩ := exists_isLeastDistance (columnSpan _) y
    have hfit := h.fit_eq hnodup hterms (h.keepsIndependent hlength hn hnodup hterms) hr
    rw [← Design.select_ofBlocks] at hfit
    exact ⟨_, hfit, hcount⟩

/-- In the design of all terms over factors of which every combination of levels occurs, the columns
of any terms are independent, and every fit by them has their number as its rank. So it is for both
models that the row of a term compares, which have with a term all terms over some of its
factors. -/
theorem Design.fullRank_of_observed (l : Labelling n) {terms : List Term} (hpos : 0 < n)
    (hn : n ≤ 10 ^ 12) (hobserved : Observed l.label l.names)
    (hterms : Term.lattice (α := Exact) l.names = .ok terms) :
    ∃ design, Design.ofTerms (α := Exact) l.factors terms = .ok design ∧
      (∀ chosen : List Term, (∀ term ∈ chosen, term ∈ terms) →
        ∃ columns : List (Fin n → ℝ), FullRank design chosen
          (1 + ∑ term ∈ chosen.toFinset, ∏ name ∈ term.support,
            ((Factor.labelled l.label name).levels.length - 1)) columns) ∧
      ∀ term ∈ terms, Term.Closed (terms.filter fun other => !other.includes term) ∧
        Term.Closed ((terms.filter fun other => !other.includes term) ++ [term]) := by
  obtain ⟨hne, hnodup, hlength, rfl⟩ := Term.lattice_eq_ok.mp hterms
  have hcoded : ∀ name ∈ l.names, (Factor.labelled l.label name).Coded n :=
    fun name _ => Factor.coded_labelled l.label name
  have hcomplete : CompleteClassification n (Factor.labelled l.label) l.names :=
    ⟨hnodup, hpos, fun _ => rfl, hcoded, observed_iff_complete.mp hobserved⟩
  refine ⟨_, Design.ofTerms_eq (fun _ => rfl) hne hpos hcoded, ?_, ?_⟩
  · intro chosen hchosen
    exact ⟨_, hcomplete.fullRank hlength hn hchosen⟩
  · intro term hterm
    refine ⟨Term.closed_without l.names term, (Term.closed_upTo hnodup term).of_perm ?_⟩
    exact (List.perm_append_singleton term _).trans (Term.upTo_perm hnodup hterm).symm

end

open Sample in
theorem Design.fullRank_of_observed_twoByTwo :
    Observed twoByTwo.label twoByTwo.names ∧
    ∃ design, Design.ofTerms (α := Exact) twoByTwo.factors [⟨["a"]⟩, ⟨["b"]⟩, ⟨["a", "b"]⟩] =
        .ok design ∧
      (∃ columns : List (Fin 4 → ℝ), FullRank design [⟨["a"]⟩, ⟨["b"]⟩] 3 columns) ∧
      ∃ columns : List (Fin 4 → ℝ), FullRank design [⟨["a"]⟩, ⟨["b"]⟩, ⟨["a", "b"]⟩] 4 columns := by
  have hlattice : Term.lattice (α := Exact) twoByTwo.names =
      .ok [⟨["a"]⟩, ⟨["b"]⟩, ⟨["a", "b"]⟩] := rfl
  have hobserved : Observed twoByTwo.label twoByTwo.names := by
    rw [observed_iff_complete, ← Cell.firstEmpty?_eq_none (by decide) twoByTwo.nodup
      fun name _ => Factor.coded_labelled twoByTwo.label name]
    cbv
  obtain ⟨design, hdesign, hrank, -⟩ :=
    fullRank_of_observed twoByTwo (by decide) (by decide) hobserved hlattice
  have hmain := hrank [⟨["a"]⟩, ⟨["b"]⟩] (by decide)
  have hfull := hrank [⟨["a"]⟩, ⟨["b"]⟩, ⟨["a", "b"]⟩] (by decide)
  refine ⟨hobserved, design, hdesign, ?_, ?_⟩
  · exact hmain
  · exact hfull

end Significance
