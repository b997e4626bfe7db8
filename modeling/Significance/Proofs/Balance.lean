import Significance.Proofs.Interaction
import Significance.Proofs.Rows

/-! # Balanced decompositions

Where every combination of levels is that of equally many records, two at least, the decomposition
succeeds and its sums of squares add up to the squared deviations from the grand mean. -/

namespace Significance.Variance

open Success Exact

section

variable [Wording] {d : Distribution Exact} {data : Dataset Exact} {target : String}
  {factors : List String} {size : ℕ}

/-- Two records of one cell are more than functions of the levels can tell apart. -/
theorem dependingOn_ne_top (hpos : 0 < data.size) (hsize : 2 ≤ size)
    (hbalanced : Balanced data.level? factors.toFinset size) :
    dependingOn data.level? factors.toFinset ≠ ⊤ := by
  have hcard := hbalanced (data.level? ⟨0, hpos⟩) fun name _ => ⟨_, rfl⟩
  obtain ⟨i, hi, j, hj, hne⟩ := Finset.one_lt_card.mp (lt_of_lt_of_eq hsize hcard.symm)
  have hagree : Agree data.level? factors.toFinset i j := by
    intro name hname
    rw [(Finset.mem_filter.mp hi).2 name hname, (Finset.mem_filter.mp hj).2 name hname]
  intro htop
  have hmem : Pi.single i (1 : ℝ) ∈ dependingOn data.level? factors.toFinset := by
    rw [htop]
    exact Submodule.mem_top
  have hvalue := hmem i j hagree
  rw [Pi.single_eq_same, Pi.single_eq_of_ne hne.symm] at hvalue
  exact one_ne_zero hvalue

theorem prod_levelCount_lt (h : Crossed data factors) (hsize : 2 ≤ size)
    (hbalanced : Balanced data.level? factors.toFinset size) :
    ∏ name ∈ factors.toFinset, data.levelCount name < data.size := by
  have hlt := Submodule.finrank_lt (dependingOn_ne_top h.pos hsize hbalanced)
  rwa [h.finrank_dependingOn, Module.finrank_fin_fun] at hlt

/-- The sums of squares of a balanced decomposition add up to the total. -/
theorem total_of_balanced (htails : d.HasTails) (hne : factors ≠ []) (hnodup : factors.Nodup)
    (hlength : factors.length ≤ 16) (hlevels : ∀ name ∈ factors, data.HasLevels name)
    (htwo : ∀ name ∈ factors, 2 ≤ data.levelCount name) (hreals : data.HasReals target)
    (hsize : 2 ≤ size) (hbalanced : Balanced data.level? factors.toFinset size)
    (hkeep : KeepsIndependent data factors) :
    ∃ table, multiWay d data target factors = .ok table ∧
      table.effects.length = 2 ^ factors.length - 1 ∧
      Scalar.total (table.effects.map Effect.sumSquares) + table.residual.sumSquares =
        real (totalSquares (data.reals target)) := by
  have hpos : 0 < size := Nat.zero_lt_of_lt hsize
  have hcrossed := Crossed.of_balanced hne hnodup hlength hlevels htwo hpos hbalanced
  have hdf := Nat.sub_ne_zero_of_lt (prod_levelCount_lt hcrossed hsize hbalanced)
  obtain ⟨table, htable⟩ := exists_multiWay htails hreals hcrossed hkeep hdf
  obtain ⟨part, error, hparts⟩ := exists_parts hbalanced hpos (data.reals target)
  obtain ⟨left, hleft⟩ :=
    exists_isLeastDistance (dependingOn data.level? factors.toFinset) (data.reals target)
  have htotal := hparts.sum_add (fun _ _ => rfl) hleft
    (isLeastDistance_totalSquares data.level? (data.reals target))
  obtain ⟨-, -, -, effects, heffects, rfl⟩ := (multiWay_eq_ok_of_keeps hkeep hleft).mp htable
  -- Each row is the squared length of the part of its own interaction.
  have hrows : effects.map Effect.sumSquares =
      ((Term.all factors).map fun term => squares (part term.support)).map real := by
    rw [List.map_map]
    apply map_of_mapM_eq_ok heffects
    intro term hterm row hrow
    obtain ⟨rfl, r₀, r₁, h⟩ := exists_isRow_of_effect hcrossed hkeep hterm hrow
    rw [h.sumSquares_eq,
      hparts.sub_eq_squares (Term.support_subset hterm) h.reduced h.augmented]
    rfl
  refine ⟨_, htable, ?_, ?_⟩
  · have hcount := congrArg List.length hrows
    rw [List.length_map, List.length_map, List.length_map, Term.length_all hnodup] at hcount
    exact hcount
  · dsimp only
    rw [hrows, total_real, Term.sum_all hnodup fun names => squares (part names), real_add, htotal]

end

section

open Sample

theorem total_of_balanced_sample :
    (["a", "b"].Nodup ∧ (∀ name ∈ ["a", "b"], 2 ≤ Sample.data.levelCount name) ∧
      Balanced Sample.data.level? ["a", "b"].toFinset 2) ∧
    ∃ table, multiWay Distribution.exactFisher Sample.data "y" ["a", "b"] = .ok table ∧
      table.effects.length = 2 ^ 2 - 1 ∧
      Scalar.total (table.effects.map Effect.sumSquares) + table.residual.sumSquares =
        real (totalSquares (Sample.data.reals "y")) :=
  have htwo : ∀ name ∈ ["a", "b"], 2 ≤ Sample.data.levelCount name :=
    fun name hname => (levelCount name hname).ge
  ⟨⟨by decide, htwo, balanced⟩,
    total_of_balanced hasTails (by simp) (by decide) (by decide) hasLevels htwo
      (hasReals "y" (by simp)) le_rfl balanced keeps⟩

end

end Significance.Variance
