import Mathlib.Data.String.Basic
import Significance.Proofs.Cells

/-! # The first empty cell

The cells of some factors are numbered in the lexicographic order of their levels. So the cell that
the check names is, of all combinations of levels that no record has, the first one. -/

namespace Significance

variable {n : ℕ} {g : String → Factor}

/-- The level that a code stands for. -/
def Factor.label (factor : Factor) (code : ℕ) : String :=
  factor.levels.getD code ""

theorem Factor.label_idxOf {factor : Factor} {text : String} (h : text ∈ factor.levels) :
    factor.label (factor.levels.idxOf text) = text := by
  rw [label, List.getD_eq_getElem _ _ (List.idxOf_lt_length_of_mem h), List.getElem_idxOf]

theorem Factor.label_lt {factor : Factor} (hsorted : factor.levels.Pairwise (· < ·)) {c d : ℕ}
    (hd : d < factor.levels.length) (h : c < d) : factor.label c < factor.label d := by
  have hc : c < factor.levels.length := h.trans hd
  rw [label, label, List.getD_eq_getElem _ _ hc, List.getD_eq_getElem _ _ hd]
  exact List.pairwise_iff_getElem.mp hsorted c d hc hd h

theorem Factor.label_lt_iff {factor : Factor} (hsorted : factor.levels.Pairwise (· < ·)) {c d : ℕ}
    (hc : c < factor.levels.length) (hd : d < factor.levels.length) :
    factor.label c < factor.label d ↔ c < d := by
  refine ⟨?_, label_lt hsorted hd⟩
  intro h
  rcases lt_trichotomy c d with hlt | rfl | hgt
  · exact hlt
  · exact absurd h (lt_irrefl _)
  · exact absurd (label_lt hsorted hc hgt) h.not_gt

theorem Factor.label_inj {factor : Factor} (hsorted : factor.levels.Pairwise (· < ·)) {c d : ℕ}
    (hc : c < factor.levels.length) (hd : d < factor.levels.length)
    (h : factor.label c = factor.label d) : c = d := by
  have hleft : ¬c < d := fun hlt => (label_lt hsorted hd hlt).ne h
  have hright : ¬d < c := fun hlt => (label_lt hsorted hc hlt).ne h.symm
  omega

namespace Cell

/-- The levels of a cell are read off its number. -/
theorem levels_number {names : List String} {a : String → ℕ}
    (ha : ∀ name ∈ names, a name < (g name).levels.length) :
    levels (names.map g) (number g names a) =
      names.map fun name => ((g name).name, (g name).label (a name)) := by
  induction names using List.reverseRecOn with
  | nil => rfl
  | append_singleton names name ih =>
      have hlast : a name < (g name).levels.length := ha name (by simp)
      have hquotient : (number g names a * (g name).levels.length + a name) /
          (g name).levels.length = number g names a := by
        rw [mul_comm, Nat.mul_add_div (by omega), Nat.div_eq_of_lt hlast, add_zero]
      have hrest : (number g names a * (g name).levels.length + a name) %
          (g name).levels.length = a name := Nat.mul_add_mod_of_lt hlast
      rw [number_concat, levels, List.map_append, List.map_singleton, List.reverse_append,
        List.reverse_singleton, List.singleton_append, levelsFromLast, hquotient, hrest,
        List.reverse_cons]
      change levels (names.map g) (number g names a) ++ _ = _
      rw [ih fun other hother => ha other (List.mem_append_left _ hother), List.map_append]
      rfl

/-! ## The order of the numbers -/

theorem foldl_number_lt {names : List String} {a b : String → ℕ}
    (ha : ∀ name ∈ names, a name < (g name).levels.length) {s t : ℕ} (h : s < t) :
    names.foldl (fun cell name => cell * (g name).levels.length + a name) s <
      names.foldl (fun cell name => cell * (g name).levels.length + b name) t := by
  induction names generalizing s t with
  | nil => exact h
  | cons name names ih =>
      have hhead : a name < (g name).levels.length := ha name List.mem_cons_self
      refine ih (fun other hother => ha other (List.mem_cons_of_mem _ hother)) ?_
      calc
        s * (g name).levels.length + a name < (s + 1) * (g name).levels.length := by
          rw [Nat.succ_mul]
          exact Nat.add_lt_add_left hhead _
        _ ≤ t * (g name).levels.length := Nat.mul_le_mul_right _ h
        _ ≤ t * (g name).levels.length + b name := Nat.le_add_right _ _

/-- Levels that come first in lexicographic order have the smaller number. -/
theorem number_lt_of_levels_lt {names : List String} {a b : String → ℕ}
    (hsorted : ∀ name ∈ names, (g name).levels.Pairwise (· < ·))
    (ha : ∀ name ∈ names, a name < (g name).levels.length)
    (hb : ∀ name ∈ names, b name < (g name).levels.length)
    (h : (names.map fun name => (g name).label (a name)) <
      names.map fun name => (g name).label (b name)) :
    number g names a < number g names b := by
  suffices hstart : ∀ s, names.foldl (fun cell name => cell * (g name).levels.length + a name) s <
      names.foldl (fun cell name => cell * (g name).levels.length + b name) s from hstart 0
  induction names with
  | nil => exact absurd h (List.not_lt_nil _)
  | cons name names ih =>
      obtain ⟨hsortedHead, hsortedTail⟩ := List.forall_mem_cons.mp hsorted
      obtain ⟨haHead, haTail⟩ := List.forall_mem_cons.mp ha
      obtain ⟨hbHead, hbTail⟩ := List.forall_mem_cons.mp hb
      intro s
      rw [List.map_cons, List.map_cons, List.cons_lt_cons_iff] at h
      rw [List.foldl_cons, List.foldl_cons]
      rcases h with hlt | ⟨heq, hlt⟩
      · apply foldl_number_lt haTail
        exact Nat.add_lt_add_left ((Factor.label_lt_iff hsortedHead haHead hbHead).mp hlt) _
      · rw [Factor.label_inj hsortedHead haHead hbHead heq]
        exact ih hsortedTail haTail hbTail hlt _

/-! ## The first cell without records -/

theorem findIdx?_marks_eq_some {size : ℕ} {cells : List ℕ} {c : ℕ} :
    ((marks size cells).findIdx? fun seen => !seen) = some c ↔
      c < size ∧ c ∉ cells ∧ ∀ c' < c, c' ∈ cells := by
  have hsize : (marks size cells).size = size := by
    apply eq_of_forall_ge_iff
    intro c
    rw [← Array.getElem?_eq_none_iff, getElem?_marks]
    by_cases hc : c < size
    · simp [hc]
    · simp [hc, not_lt.mp hc]
  have hget : ∀ c (h : c < (marks size cells).size),
      (marks size cells)[c] = decide (c ∈ cells) := by
    intro c h
    have hmark := getElem?_marks size cells c
    rw [Array.getElem?_eq_getElem h, if_pos (hsize ▸ h)] at hmark
    exact Option.some_injective _ hmark
  rw [Array.findIdx?_eq_some_iff_getElem]
  simp only [hget, hsize, Bool.not_eq_true', decide_eq_false_iff_not, not_not, exists_prop]

/-- The first cell without records, if there is one: of the combinations of levels that no record
has, that with the least number. -/
theorem firstEmpty?_eq_some {names : List String} (hne : names ≠ []) (hnodup : names.Nodup)
    (h : ∀ name ∈ names, (g name).Coded n) {cell : ℕ} :
    firstEmpty? (names.map g) = some cell ↔
      ∃ a : String → ℕ, (∀ name ∈ names, a name < (g name).levels.length) ∧
        number g names a = cell ∧ (∀ i : Fin n, ¬∀ name ∈ names, (g name).code i = a name) ∧
        ∀ b : String → ℕ, (∀ name ∈ names, b name < (g name).levels.length) →
          (∀ i : Fin n, ¬∀ name ∈ names, (g name).code i = b name) →
            number g names a ≤ number g names b := by
  have hcode : ∀ i : Fin n, ∀ name ∈ names, (g name).code i < (g name).levels.length :=
    fun i name hname => (h name hname).code_lt i
  -- A cell is that of a record exactly if the record has all its levels.
  have hmem : ∀ a : String → ℕ, (∀ name ∈ names, a name < (g name).levels.length) →
      (number g names a ∈ numbers (names.map g) ↔
        ∃ i : Fin n, ∀ name ∈ names, (g name).code i = a name) := by
    intro a ha
    rw [numbers_eq hne h, List.mem_ofFn]
    refine exists_congr fun i => ⟨number_inj (hcode i) ha, number_congr⟩
  rw [firstEmpty?, findIdx?_marks_eq_some]
  constructor
  · rintro ⟨hcount, hempty, hfirst⟩
    obtain ⟨a, ha, rfl⟩ := exists_number hnodup hcount
    rw [hmem a ha] at hempty
    refine ⟨a, ha, rfl, not_exists.mp hempty, ?_⟩
    intro b hb hnone
    by_contra hlt
    obtain ⟨i, hi⟩ := (hmem b hb).mp (hfirst _ (not_le.mp hlt))
    exact hnone i hi
  · rintro ⟨a, ha, rfl, hempty, hfirst⟩
    refine ⟨number_lt ha, ?_, ?_⟩
    · rw [hmem a ha]
      exact not_exists.mpr hempty
    · intro c hc
      obtain ⟨b, hb, rfl⟩ := exists_number hnodup (hc.trans (number_lt ha))
      rw [hmem b hb]
      by_contra hnone
      exact absurd (hfirst b hb (not_exists.mp hnone)) (not_le.mpr hc)

end Cell

end Significance
