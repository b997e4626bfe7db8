import Mathlib.Data.List.GetD
import Significance.Cell
import Significance.Proofs.Grouping
import Significance.Proofs.Lattice

/-! # Cells of a classification

The numbers of the cells of some factors are those below the product of their numbers of levels,
each of one combination of levels. So no cell is empty exactly when every combination occurs. -/

namespace Significance

open Success

variable {n : ℕ} (g : String → Factor)

/-- Every combination of levels of some factors is that of a record. -/
def Complete (n : ℕ) (g : String → Factor) (names : Finset String) : Prop :=
  ∀ a : String → ℕ, (∀ name ∈ names, a name < (g name).levels.length) →
    ∃ i : Fin n, ∀ name ∈ names, (g name).code i = a name

theorem Complete.mono {names others : Finset String} (h : Complete n g others)
    (hsub : names ⊆ others) (hlevels : ∀ name ∈ others, 0 < (g name).levels.length) :
    Complete n g names := by
  intro a ha
  have hbound : ∀ name ∈ others, (if name ∈ names then a name else 0) < (g name).levels.length := by
    intro name hname
    by_cases hmem : name ∈ names
    · rw [if_pos hmem]
      exact ha name hmem
    · rw [if_neg hmem]
      exact hlevels name hname
  obtain ⟨i, hi⟩ := h _ hbound
  refine ⟨i, ?_⟩
  intro name hname
  rw [hi name (hsub hname), if_pos hname]

namespace Cell

/-! ## Cell numbers -/

/-- The number of the cell of some levels. -/
def number (names : List String) (a : String → ℕ) : ℕ :=
  names.foldl (fun cell name => cell * (g name).levels.length + a name) 0

theorem number_concat (names : List String) (name : String) (a : String → ℕ) :
    number g (names ++ [name]) a = number g names a * (g name).levels.length + a name :=
  List.foldl_concat _ _ _ _

theorem count_concat (names : List String) (name : String) :
    count ((names ++ [name]).map g) = count (names.map g) * (g name).levels.length := by
  rw [List.map_append, List.map_singleton]
  exact List.foldl_concat _ _ _ _

variable {g}

theorem number_congr {names : List String} {a b : String → ℕ}
    (h : ∀ name ∈ names, a name = b name) :
    number g names a = number g names b := by
  induction names using List.reverseRecOn with
  | nil => rfl
  | append_singleton names name ih =>
      rw [number_concat, number_concat, h name (by simp),
        ih fun other hother => h other (List.mem_append_left _ hother)]

theorem number_lt {names : List String} {a : String → ℕ}
    (h : ∀ name ∈ names, a name < (g name).levels.length) :
    number g names a < count (names.map g) := by
  induction names using List.reverseRecOn with
  | nil => exact Nat.one_pos
  | append_singleton names name ih =>
      rw [number_concat, count_concat]
      have hlast := h name (by simp)
      have hcell := ih fun other hother => h other (List.mem_append_left _ hother)
      calc
        number g names a * (g name).levels.length + a name
            < (number g names a + 1) * (g name).levels.length := by
          rw [Nat.succ_mul]
          exact Nat.add_lt_add_left hlast _
        _ ≤ count (names.map g) * (g name).levels.length := Nat.mul_le_mul_right _ hcell

/-- Different combinations of levels have different numbers. -/
theorem number_inj {names : List String} {a b : String → ℕ}
    (ha : ∀ name ∈ names, a name < (g name).levels.length)
    (hb : ∀ name ∈ names, b name < (g name).levels.length)
    (h : number g names a = number g names b) : ∀ name ∈ names, a name = b name := by
  induction names using List.reverseRecOn with
  | nil => simp
  | append_singleton names name ih =>
      rw [number_concat, number_concat] at h
      have hla := ha name (by simp)
      have hlb := hb name (by simp)
      have hlast : a name = b name := by
        have hmod := congrArg (· % (g name).levels.length) h
        simpa [Nat.mul_add_mod_of_lt, hla, hlb, Nat.mod_eq_of_lt] using hmod
      have hfirst : number g names a = number g names b := by
        rw [hlast] at h
        exact Nat.eq_of_mul_eq_mul_right (by omega) (Nat.add_right_cancel h)
      intro other hother
      rcases List.mem_append.mp hother with hother | hother
      · exact ih (fun x hx => ha x (List.mem_append_left _ hx))
          (fun x hx => hb x (List.mem_append_left _ hx)) hfirst other hother
      · rw [List.mem_singleton.mp hother, hlast]

/-- Every number below the count is that of a combination of levels. -/
theorem exists_number {names : List String} (hnodup : names.Nodup) {cell : ℕ}
    (hcell : cell < count (names.map g)) :
    ∃ a : String → ℕ, (∀ name ∈ names, a name < (g name).levels.length) ∧
      number g names a = cell := by
  induction names using List.reverseRecOn generalizing cell with
  | nil =>
      refine ⟨fun _ => 0, by simp, ?_⟩
      have hzero : cell < 1 := hcell
      rw [Nat.lt_one_iff.mp hzero]
      rfl
  | append_singleton names name ih =>
      rw [count_concat] at hcell
      have hlevels : 0 < (g name).levels.length :=
        Nat.pos_of_ne_zero fun hzero => by simp [hzero] at hcell
      have hnew : name ∉ names := by
        intro hmem
        exact List.disjoint_of_nodup_append hnodup hmem (List.mem_singleton_self name)
      have hquotient : cell / (g name).levels.length < count (names.map g) :=
        Nat.div_lt_of_lt_mul (by rwa [mul_comm])
      obtain ⟨a, ha, hnumber⟩ := ih hnodup.of_append_left hquotient
      have hagree : ∀ other ∈ names,
          Function.update a name (cell % (g name).levels.length) other = a other := by
        intro other hother
        exact Function.update_of_ne (fun heq : other = name => hnew (heq ▸ hother)) _ _
      refine ⟨Function.update a name (cell % (g name).levels.length), ?_, ?_⟩
      · intro other hother
        rcases List.mem_append.mp hother with hother | hother
        · rw [hagree other hother]
          exact ha other hother
        · rw [List.mem_singleton.mp hother, Function.update_self]
          exact Nat.mod_lt cell hlevels
      · rw [number_concat, number_congr hagree, hnumber, Function.update_self]
        exact Nat.div_add_mod' cell _

/-! ## The cells of the records -/

theorem foldl_numbers {names : List String} (h : ∀ name ∈ names, (g name).Coded n)
    (start : Fin n → ℕ) :
    (names.map g).foldl (fun cells factor =>
        cells.zipWith (fun cell code => cell * factor.levels.length + code) factor.codes)
      (List.ofFn start) =
      List.ofFn fun i => names.foldl
        (fun cell name => cell * (g name).levels.length + (g name).code i) (start i) := by
  induction names generalizing start with
  | nil => rfl
  | cons name names ih =>
      have hzip : (List.ofFn start).zipWith (fun cell code => cell * (g name).levels.length + code)
          (g name).codes =
            List.ofFn fun i => start i * (g name).levels.length + (g name).code i := by
        rw [(h name List.mem_cons_self).codes_eq]
        apply List.ext_getElem
        · simp
        · simp
      rw [List.map_cons, List.foldl_cons, hzip,
        ih fun other hother => h other (List.mem_cons_of_mem _ hother)]
      rfl

theorem numbers_eq {names : List String} (hne : names ≠ [])
    (h : ∀ name ∈ names, (g name).Coded n) :
    numbers (names.map g) =
      List.ofFn fun i : Fin n => number g names fun name => (g name).code i := by
  have hrows : ((names.map g).head?.map Factor.size).getD 0 = n := by
    cases names with
    | nil => exact absurd rfl hne
    | cons name names => exact (h name List.mem_cons_self).size_eq
  have hstart : List.replicate n 0 = List.ofFn fun _ : Fin n => 0 := (List.ofFn_const n 0).symm
  rw [numbers, hrows, hstart]
  exact foldl_numbers h _

/-! ## Empty cells -/

theorem getElem?_foldl_marks (cells : List ℕ) (marks : Array Bool) (c : ℕ) :
    (cells.foldl (fun marks cell => marks.setIfInBounds cell true) marks)[c]? =
      marks[c]?.map fun seen => seen || decide (c ∈ cells) := by
  induction cells generalizing marks with
  | nil => simp
  | cons cell cells ih =>
      rw [List.foldl_cons, ih, Array.getElem?_setIfInBounds]
      by_cases hcell : cell = c
      · subst hcell
        by_cases hsize : cell < marks.size
        · simp [hsize]
        · simp [hsize]
      · have hne : c ≠ cell := fun heq => hcell heq.symm
        simp [hcell, hne]

theorem getElem?_marks (size : ℕ) (cells : List ℕ) (c : ℕ) :
    (marks size cells)[c]? = if c < size then some (decide (c ∈ cells)) else none := by
  rw [marks, getElem?_foldl_marks, Array.getElem?_replicate]
  split
  · simp
  · rfl

theorem findIdx?_marks_eq_none {size : ℕ} {cells : List ℕ} :
    ((marks size cells).findIdx? fun seen => !seen) = none ↔ ∀ c < size, c ∈ cells := by
  rw [Array.findIdx?_eq_none_iff]
  constructor
  · intro hall c hc
    have hmem := Array.mem_of_getElem? ((getElem?_marks size cells c).trans (if_pos hc))
    simpa using hall _ hmem
  · intro hall seen hseen
    obtain ⟨c, hc⟩ := Array.getElem?_of_mem hseen
    rw [getElem?_marks] at hc
    split at hc
    · next hlt => simpa [hall c hlt] using hc.symm
    · exact absurd hc (by simp)

/-- No cell is empty exactly when every combination of levels occurs. -/
theorem firstEmpty?_eq_none {names : List String} (hne : names ≠ []) (hnodup : names.Nodup)
    (h : ∀ name ∈ names, (g name).Coded n) :
    firstEmpty? (names.map g) = none ↔ Complete n g names.toFinset := by
  rw [firstEmpty?, findIdx?_marks_eq_none, numbers_eq hne h]
  have hcode : ∀ i : Fin n, ∀ name ∈ names, (g name).code i < (g name).levels.length :=
    fun i name hname => (h name hname).code_lt i
  constructor
  · intro hall a ha
    have hbound : ∀ name ∈ names, a name < (g name).levels.length :=
      fun name hname => ha name (List.mem_toFinset.mpr hname)
    obtain ⟨i, hi⟩ := List.mem_ofFn.mp (hall _ (number_lt hbound))
    refine ⟨i, ?_⟩
    intro name hname
    exact number_inj (hcode i) hbound hi name (List.mem_toFinset.mp hname)
  · intro hcomplete cell hcell
    obtain ⟨a, ha, rfl⟩ := exists_number hnodup hcell
    obtain ⟨i, hi⟩ := hcomplete a fun name hname => ha name (List.mem_toFinset.mp hname)
    refine List.mem_ofFn.mpr ⟨i, number_congr fun name hname => ?_⟩
    exact hi name (List.mem_toFinset.mpr hname)

end Cell

/-! ## The check of all terms -/

theorem Factor.named?_map {names : List String} (hname : ∀ name, (g name).name = name)
    {name : String} (h : name ∈ names) : named? (names.map g) name = some (g name) := by
  rw [named?, ← List.map_reverse, List.find?_map]
  have hmem : name ∈ names.reverse := List.mem_reverse.mpr h
  have hsome : (names.reverse.find? ((fun factor => decide (factor.name = name)) ∘ g)).isSome := by
    rw [List.find?_isSome]
    exact ⟨name, hmem, by simp [hname]⟩
  obtain ⟨found, hfound⟩ := Option.isSome_iff_exists.mp hsome
  have heq := List.find?_some hfound
  rw [Function.comp_apply, hname, decide_eq_true_iff] at heq
  rw [hfound, heq]
  rfl

theorem Term.resolve_eq {α : Type} {names : List String} (hname : ∀ name, (g name).name = name)
    {term : Term} (h : ∀ name ∈ term.factors, name ∈ names) :
    term.resolve (α := α) (names.map g) = .ok (term.factors.map g) := by
  refine (mapM_eq_ok_map (p := fun _ => True) (g := g) ?_).mpr ⟨fun _ _ => trivial, rfl⟩
  intro name hmem factor
  rw [Factor.named?_map g hname (h name hmem)]
  simp [eq_comm]

/-- The check passes terms over some factors exactly when, for each term, every combination of its
levels occurs. -/
theorem Cell.check_eq_ok_iff_forall {α : Type} {names : List String} {terms : List Term}
    (hname : ∀ name, (g name).name = name) (hnodup : names.Nodup)
    (hterms : ∀ term ∈ terms, term ∈ Term.all names) (h : ∀ name ∈ names, (g name).Coded n) :
    check (α := α) (names.map g) terms = .ok () ↔ ∀ term ∈ terms, Complete n g term.support := by
  rw [check, forM_eq_ok]
  apply forall₂_congr
  intro term hterm
  obtain ⟨hsub, hfactors⟩ := Term.mem_all.mp (hterms term hterm)
  simp only [bind_eq_ok, Term.resolve_eq g hname fun name hname => hsub.subset hname,
    Except.ok.injEq, exists_eq_left']
  rw [Term.support, ← firstEmpty?_eq_none hfactors (hsub.nodup hnodup)
    fun name hname => h name (hsub.subset hname)]
  cases firstEmpty? (term.factors.map g) with
  | none => simp [pure_eq_ok]
  | some cell => simp [throw, throwThe, MonadExceptOf.throw]

/-- All cells of all terms have records exactly when every combination of levels of all factors
occurs. -/
theorem Cell.check_eq_ok {α : Type} {names : List String}
    (hname : ∀ name, (g name).name = name) (hne : names ≠ []) (hnodup : names.Nodup)
    (h : ∀ name ∈ names, (g name).Coded n) :
    check (α := α) (names.map g) (Term.all names) = .ok () ↔ Complete n g names.toFinset := by
  rw [check_eq_ok_iff_forall g hname hnodup (fun _ hterm => hterm) h]
  constructor
  · intro hall
    exact hall ⟨names⟩ (Term.mem_all.mpr ⟨List.Sublist.refl names, hne⟩)
  · intro hcomplete term hterm a ha
    -- The first factor of the term has a level, so there are records, and all factors have levels.
    obtain ⟨name, hmem⟩ := List.exists_mem_of_ne_nil _ (Term.mem_all.mp hterm).2
    obtain ⟨i, -⟩ := (h name ((Term.mem_all.mp hterm).1.subset hmem)).exists_code (a name)
      (ha name (List.mem_toFinset.mpr hmem))
    have hlevels : ∀ name ∈ names.toFinset, 0 < (g name).levels.length :=
      fun name hmem => ((h name (List.mem_toFinset.mp hmem)).code_lt i).pos
    exact hcomplete.mono g (Term.support_subset hterm) hlevels a ha

end Significance
