import Mathlib.Algebra.BigOperators.Ring.Finset
import Mathlib.Data.Finset.Powerset
import Significance.Proofs.Combination
import Significance.Proofs.Success
import Significance.Term

/-! # The lattice of terms

The lattice has one term for each non-empty sublist of the factors, so sums over its terms are
sums over the non-empty sets of factors. -/

namespace Significance.Term

open List Success Combination

/-! ## The terms -/

/-- All terms over some factors. -/
def all (factors : List String) : List Term :=
  (List.range' 1 factors.length).flatMap fun k => (choose k factors).map Term.mk

theorem mem_all {factors : List String} {term : Term} :
    term ∈ all factors ↔ term.factors <+ factors ∧ term.factors ≠ [] := by
  simp only [all, mem_flatMap, mem_range'_1, mem_map, mem_choose]
  constructor
  · rintro ⟨k, ⟨hpos, -⟩, names, ⟨hsub, rfl⟩, rfl⟩
    exact ⟨hsub, ne_nil_of_length_pos hpos⟩
  · rintro ⟨hsub, hne⟩
    have hpos := length_pos_of_ne_nil hne
    have hle := hsub.length_le
    exact ⟨term.factors.length, by omega, term.factors, ⟨hsub, rfl⟩, rfl⟩

theorem mk_injective : Function.Injective Term.mk := by
  intro names others h
  injection h

theorem nodup_all {factors : List String} (h : factors.Nodup) : (all factors).Nodup := by
  rw [all, nodup_flatMap]
  constructor
  · intro k _
    exact (nodup_choose k h).map mk_injective
  · apply (nodup_range' (n := factors.length)).imp
    intro k l hne term hk hl
    obtain ⟨names, hnames, rfl⟩ := mem_map.mp hk
    obtain ⟨others, hothers, heq⟩ := mem_map.mp hl
    rw [mk_injective heq] at hothers
    exact hne ((mem_choose.mp hnames).2.symm.trans (mem_choose.mp hothers).2)

/-- Terms of fewer factors stand first. -/
theorem pairwise_order_all (factors : List String) :
    (all factors).Pairwise fun term other => term.order ≤ other.order := by
  rw [all, pairwise_flatMap]
  constructor
  · intro k _
    apply pairwise_of_forall_mem_list
    intro term hterm other hother
    obtain ⟨names, hnames, rfl⟩ := mem_map.mp hterm
    obtain ⟨others, hothers, rfl⟩ := mem_map.mp hother
    exact ((mem_choose.mp hnames).2.trans (mem_choose.mp hothers).2.symm).le
  · apply (pairwise_lt_range' (n := factors.length)).imp
    intro k l hlt term hterm other hother
    obtain ⟨names, hnames, rfl⟩ := mem_map.mp hterm
    obtain ⟨others, hothers, rfl⟩ := mem_map.mp hother
    have hk := (mem_choose.mp hnames).2
    have hl := (mem_choose.mp hothers).2
    exact (hk.trans_lt (hlt.trans_eq hl.symm)).le

/-- A term of fewer factors than another stands before it. -/
theorem mem_before {factors : List String} {before after : List Term} {term other : Term}
    (hall : all factors = before ++ term :: after) (hother : other ∈ all factors)
    (hlt : other.order < term.order) : other ∈ before := by
  have hpairwise := pairwise_order_all factors
  rw [hall] at hpairwise hother
  rcases mem_append.mp hother with hmem | hmem
  · exact hmem
  · have hle : term.order ≤ other.order := by
      rcases mem_cons.mp hmem with rfl | hmem
      · exact le_rfl
      · exact rel_of_pairwise_cons (pairwise_append.mp hpairwise).2.1 hmem
    exact absurd hlt hle.not_gt

/-- The factor of a main effect. -/
def sole? (term : Term) : Option String :=
  match term.factors with
  | [factor] => some factor
  | _ => none

theorem sole?_eq_some {term : Term} {factor : String} :
    term.sole? = some factor ↔ term.factors = [factor] := by
  obtain ⟨names⟩ := term
  match names with
  | [] => simp [sole?]
  | [other] => simp [sole?]
  | _ :: _ :: _ => simp [sole?]

/-- The main effects stand in the order of the factors. -/
theorem filterMap_sole_all (factors : List String) : (all factors).filterMap sole? = factors := by
  have hfirst : ((choose 1 factors).map Term.mk).filterMap sole? = factors := by
    rw [choose_one, map_map, filterMap_map]
    exact filterMap_some
  have hlater : ∀ k ≠ 1, ((choose k factors).map Term.mk).filterMap sole? = [] := by
    intro k hk
    rw [filterMap_eq_nil_iff, forall_mem_map]
    intro names hnames
    have hlength := (mem_choose.mp hnames).2
    apply Option.eq_none_iff_forall_ne_some.mpr
    intro factor hfactor
    obtain rfl : names = [factor] := sole?_eq_some.mp hfactor
    exact hk hlength.symm
  rw [all, filterMap_flatMap]
  cases hlength : factors.length with
  | zero => simp [length_eq_zero_iff.mp hlength]
  | succ n =>
      rw [range'_succ, flatMap_cons, hfirst, flatMap_eq_nil_iff.mpr, append_nil]
      intro k hk
      rw [mem_range'_1] at hk
      exact hlater k (by omega)

/-! ## When the lattice exists -/

theorem firstRepeat?_eq_none {seen names : List String} :
    firstRepeat? seen names = none ↔ names.Nodup ∧ ∀ name ∈ names, name ∉ seen := by
  induction names generalizing seen with
  | nil => simp [firstRepeat?]
  | cons name names ih =>
      rw [firstRepeat?]
      by_cases h : seen.contains name
      · rw [if_pos h]
        simp only [contains_iff_mem] at h
        simp [h]
      · rw [if_neg h, ih]
        simp only [contains_iff_mem] at h
        simp only [nodup_cons, mem_cons, not_or, forall_eq_or_imp]
        constructor
        · rintro ⟨hnodup, hfresh⟩
          exact ⟨⟨fun hmem => (hfresh name hmem).1 rfl, hnodup⟩, h, fun x hx => (hfresh x hx).2⟩
        · rintro ⟨⟨hname, hnodup⟩, -, hfresh⟩
          exact ⟨hnodup, fun x hx => ⟨fun heq => hname (heq ▸ hx), hfresh x hx⟩⟩

variable {α : Type}

theorem checkFactors_eq_ok {factors : List String} :
    checkFactors (α := α) factors = .ok () ↔ factors ≠ [] ∧ factors.Nodup := by
  unfold checkFactors
  have hrepeat : firstRepeat? [] factors = none ↔ factors.Nodup ∧ ∀ name ∈ factors, name ∉ [] :=
    firstRepeat?_eq_none
  by_cases h : factors = []
  · simp [h]
  · cases hfirst : firstRepeat? [] factors with
    | none => simpa [h, hfirst] using hrepeat
    | some name => simpa [h, hfirst] using hrepeat

/-- The factors at a combination of positions are a sublist of the factors. -/
theorem choose_factors (k : ℕ) (factors : List String) :
    choose k factors =
      (choose k (range factors.length)).map (List.map fun place => factors.getD place "") := by
  have hfactors : factors = (range factors.length).map fun place => factors.getD place "" := by
    apply ext_getElem
    · simp
    · intro i hi hi'
      simp [hi]
  conv_lhs => rw [hfactors, choose_map]

theorem ofPlaces?_eq {factors : List String} {places : List ℕ}
    (h : ∀ place ∈ places, place < factors.length) :
    ofPlaces? factors places = some ⟨places.map fun place => factors.getD place ""⟩ := by
  have hplaces : ∀ place ∈ places, factors[place]? = some (factors.getD place "") := by
    intro place hplace
    simp [h place hplace]
  rw [ofPlaces?, mapM_eq_some_map hplaces]
  rfl

/-- All terms are found. -/
theorem enumerate?_eq (factors : List String) : enumerate? factors = some (all factors) := by
  have hsize : ∀ k ∈ range' 1 factors.length,
      (Combination.all? factors.length k >>= fun combinations =>
        combinations.mapM (ofPlaces? factors)) = some ((choose k factors).map Term.mk) := by
    intro k hk
    have hpos : 0 < k := (mem_range'_1.mp hk).1
    have hplaces : ∀ places ∈ choose k (range factors.length), ofPlaces? factors places =
        some ⟨places.map fun place => factors.getD place ""⟩ :=
      fun places hmem => ofPlaces?_eq (mem_choose_range.mp hmem).2.2
    rw [Combination.all?_eq _ hpos, choose_factors, map_map]
    exact mapM_eq_some_map hplaces
  rw [enumerate?, mapM_eq_some_map hsize, all, flatMap_def]
  rfl

theorem lattice_eq_ok {factors : List String} {terms : List Term} :
    lattice (α := α) factors = .ok terms ↔
      factors ≠ [] ∧ factors.Nodup ∧ factors.length ≤ maxFactors ∧ terms = all factors := by
  simp only [lattice, enumerate?_eq, Option.getD_some, bind_eq_ok, check_eq_ok, pure_eq_ok]
  constructor
  · rintro ⟨_, hcheck, hlength, rfl⟩
    obtain ⟨hne, hnodup⟩ := checkFactors_eq_ok.mp hcheck
    exact ⟨hne, hnodup, le_of_not_gt hlength, rfl⟩
  · rintro ⟨hne, hnodup, hlength, rfl⟩
    exact ⟨(), checkFactors_eq_ok.mpr ⟨hne, hnodup⟩, not_lt.mpr hlength, rfl⟩

/-! ## Terms as sets of factors -/

/-- The factors of a term as a set. -/
def support (term : Term) : Finset String :=
  term.factors.toFinset

theorem includes_iff {term other : Term} : term.includes other ↔ other.support ⊆ term.support := by
  simp [includes, support, Finset.subset_iff]

/-- A sublist of distinct names consists of the names that are in it. -/
theorem filter_mem_eq_self {names factors : List String} (h : names <+ factors)
    (hnodup : factors.Nodup) : factors.filter (· ∈ names) = names := by
  induction h with
  | slnil => rfl
  | cons name hsub ih =>
      have ⟨hname, htail⟩ := nodup_cons.mp hnodup
      rw [filter_cons_of_neg, ih htail]
      simpa using fun hmem => hname (hsub.subset hmem)
  | @cons_cons names rest name hsub ih =>
      have ⟨hname, htail⟩ := nodup_cons.mp hnodup
      have hcongr : ∀ other ∈ rest, decide (other ∈ name :: names) = decide (other ∈ names) := by
        intro other hother
        have hne : other ≠ name := fun heq => hname (heq ▸ hother)
        simp [hne]
      rw [filter_cons_of_pos (by simp), filter_congr hcongr, ih htail]

/-- Sublists of distinct names are equal if they have the same members. -/
theorem eq_of_toFinset_eq {names others factors : List String} (hnodup : factors.Nodup)
    (hnames : names <+ factors) (hothers : others <+ factors)
    (h : names.toFinset = others.toFinset) : names = others := by
  rw [← filter_mem_eq_self hnames hnodup, ← filter_mem_eq_self hothers hnodup]
  simp only [← mem_toFinset, h]

theorem toFinset_subset_of_sublist {names others : List String} (h : names <+ others) :
    names.toFinset ⊆ others.toFinset := by
  intro name hname
  exact mem_toFinset.mpr (h.subset (mem_toFinset.mp hname))

theorem support_subset {factors : List String} {term : Term} (h : term ∈ all factors) :
    term.support ⊆ factors.toFinset :=
  toFinset_subset_of_sublist (mem_all.mp h).1

theorem not_support_subset_empty {factors : List String} {term : Term} (h : term ∈ all factors) :
    ¬term.support ⊆ ∅ := by
  rw [Finset.subset_empty, support, toFinset_eq_empty_iff]
  exact (mem_all.mp h).2

theorem support_mem {factors : List String} {term : Term} (h : term ∈ all factors) :
    term.support ∈ factors.toFinset.powerset.erase ∅ := by
  rw [Finset.mem_erase, Finset.mem_powerset]
  exact ⟨fun hempty => not_support_subset_empty h hempty.le, support_subset h⟩

def ofSupport (factors : List String) (support : Finset String) : Term :=
  ⟨factors.filter (· ∈ support)⟩

theorem support_ofSupport {factors : List String} {names : Finset String}
    (h : names ⊆ factors.toFinset) : (ofSupport factors names).support = names := by
  ext name
  have hmem : name ∈ names → name ∈ factors := fun hname => mem_toFinset.mp (h hname)
  simpa [support, ofSupport] using hmem

theorem ofSupport_mem {factors : List String} {names : Finset String}
    (h : names ∈ factors.toFinset.powerset.erase ∅) : ofSupport factors names ∈ all factors := by
  rw [Finset.mem_erase, Finset.mem_powerset] at h
  refine mem_all.mpr ⟨filter_sublist, ?_⟩
  intro hnil
  have hsupport := support_ofSupport h.2
  rw [support, hnil, toFinset_nil] at hsupport
  exact h.1 hsupport.symm

theorem ofSupport_support {factors : List String} (hnodup : factors.Nodup) {term : Term}
    (h : term ∈ all factors) : ofSupport factors term.support = term := by
  have hfilter := filter_mem_eq_self (mem_all.mp h).1 hnodup
  simp only [ofSupport, support, mem_toFinset, hfilter]

/-- The terms do not depend on the order of the factors, only the order in each does. -/
theorem map_ofSupport_perm {factors factors' : List String} (hnodup : factors.Nodup)
    (hperm : factors' ~ factors) :
    ((all factors).map fun term => ofSupport factors' term.support) ~ all factors' := by
  have hnames : factors'.toFinset = factors.toFinset := toFinset_eq_of_perm _ _ hperm
  have hnodup' := hperm.nodup_iff.mpr hnodup
  have hsupport : ∀ term ∈ all factors, (ofSupport factors' term.support).support = term.support :=
    fun term hterm => support_ofSupport (hnames ▸ support_subset hterm)
  have hmap : ((all factors).map fun term => ofSupport factors' term.support).Nodup := by
    apply (nodup_all hnodup).map_on
    intro term hterm other hother heq
    have hsame := congrArg support heq
    rw [hsupport term hterm, hsupport other hother] at hsame
    rw [← ofSupport_support hnodup hterm, hsame, ofSupport_support hnodup hother]
  rw [perm_ext_iff_of_nodup hmap (nodup_all hnodup')]
  intro term
  rw [mem_map]
  constructor
  · rintro ⟨other, hother, rfl⟩
    exact ofSupport_mem (hnames ▸ support_mem hother)
  · intro hterm
    have hmem := hnames ▸ support_mem hterm
    refine ⟨ofSupport factors term.support, ofSupport_mem hmem, ?_⟩
    rw [support_ofSupport (Finset.mem_powerset.mp (Finset.mem_of_mem_erase hmem)),
      ofSupport_support hnodup' hterm]

/-! ## The terms below a term -/

/-- The terms that do not include a term. -/
def without (factors : List String) (term : Term) : List Term :=
  (all factors).filter fun other => !other.includes term

/-- The terms that do not include a term, and the term itself. -/
def upTo (factors : List String) (term : Term) : List Term :=
  (all factors).filter fun other => !other.includes term || other = term

theorem mem_without {factors : List String} {term other : Term} :
    other ∈ without factors term ↔ other ∈ all factors ∧ ¬term.support ⊆ other.support := by
  rw [without, mem_filter, ← includes_iff]
  simp

theorem mem_upTo {factors : List String} {term other : Term} :
    other ∈ upTo factors term ↔
      other ∈ all factors ∧ (¬term.support ⊆ other.support ∨ other = term) := by
  rw [upTo, mem_filter, ← includes_iff]
  simp

theorem filter_without (factors : List String) (term : Term) :
    (all factors).filter ((without factors term).contains ·) = without factors term := by
  apply filter_congr
  intro other hother
  rw [Bool.eq_iff_iff, contains_iff_mem, without, mem_filter]
  exact and_iff_right hother

theorem filter_upTo (factors : List String) (term : Term) :
    (all factors).filter ((without factors term ++ [term]).contains ·) = upTo factors term := by
  apply filter_congr
  intro other hother
  rw [Bool.eq_iff_iff, contains_iff_mem, mem_append, mem_singleton, without, mem_filter]
  simp [hother]

theorem upTo_perm {factors : List String} (hnodup : factors.Nodup) {term : Term}
    (hterm : term ∈ all factors) : upTo factors term ~ term :: without factors term := by
  have hnew : term ∉ without factors term := fun hmem => (mem_without.mp hmem).2 subset_rfl
  have hupTo : (upTo factors term).Nodup := (nodup_all hnodup).filter _
  have hcons : (term :: without factors term).Nodup :=
    nodup_cons.mpr ⟨hnew, (nodup_all hnodup).filter _⟩
  rw [perm_ext_iff_of_nodup hupTo hcons]
  intro other
  rw [mem_cons, mem_upTo, mem_without]
  constructor
  · rintro ⟨hother, hnot | rfl⟩
    · exact Or.inr ⟨hother, hnot⟩
    · exact Or.inl rfl
  · rintro (rfl | ⟨hother, hnot⟩)
    · exact ⟨hterm, Or.inr rfl⟩
    · exact ⟨hother, Or.inl hnot⟩

/-- With a term the terms over some of its factors. -/
def Closed (terms : List Term) : Prop :=
  ∀ term ∈ terms, ∀ own : List String, own <+ term.factors → own ≠ [] → ⟨own⟩ ∈ terms

theorem Closed.of_perm {terms others : List Term} (h : Closed terms) (hperm : others ~ terms) :
    Closed others := by
  intro term hterm own hown hne
  exact hperm.mem_iff.mpr (h term (hperm.mem_iff.mp hterm) own hown hne)

theorem closed_without (factors : List String) (term : Term) : Closed (without factors term) := by
  intro other hother own hown hne
  obtain ⟨hall, hnot⟩ := mem_without.mp hother
  refine mem_without.mpr ⟨mem_all.mpr ⟨hown.trans (mem_all.mp hall).1, hne⟩, ?_⟩
  exact fun hle => hnot (hle.trans (toFinset_subset_of_sublist hown))

theorem closed_upTo {factors : List String} (hnodup : factors.Nodup) (term : Term) :
    Closed (upTo factors term) := by
  intro other hother own hown hne
  obtain ⟨hall, hnot⟩ := mem_upTo.mp hother
  have hsub := (mem_all.mp hall).1
  refine mem_upTo.mpr ⟨mem_all.mpr ⟨hown.trans hsub, hne⟩, ?_⟩
  rcases hnot with hnot | rfl
  · exact Or.inl fun hle => hnot (hle.trans (toFinset_subset_of_sublist hown))
  · -- The factors of the term include the term only if all of them are there.
    by_cases hle : other.support ⊆ own.toFinset
    · have hge : own.toFinset ⊆ other.support := toFinset_subset_of_sublist hown
      have heq := eq_of_toFinset_eq hnodup (hown.trans hsub) hsub (hge.antisymm hle)
      exact Or.inr (congrArg Term.mk heq)
    · exact Or.inl hle

/-! ## Sums over the terms -/

/-- A sum over the terms is a sum over the non-empty sets of factors. -/
theorem sum_all {M : Type*} [AddCommMonoid M] {factors : List String} (hnodup : factors.Nodup)
    (f : Finset String → M) :
    ((all factors).map fun term => f term.support).sum =
      ∑ names ∈ factors.toFinset.powerset.erase ∅, f names := by
  rw [← sum_toFinset _ (nodup_all hnodup)]
  refine Finset.sum_nbij' support (ofSupport factors) ?_ ?_ ?_ ?_ ?_
  · intro term hterm
    exact support_mem (mem_toFinset.mp hterm)
  · intro names hnames
    exact mem_toFinset.mpr (ofSupport_mem hnames)
  · intro term hterm
    exact ofSupport_support hnodup (mem_toFinset.mp hterm)
  · intro names hnames
    exact support_ofSupport (Finset.mem_powerset.mp (Finset.mem_of_mem_erase hnames))
  · intro term _
    rfl

/-- Over all terms, the products of numbers less one are one less than the product of the
numbers. -/
theorem sum_all_prod {factors : List String} (hnodup : factors.Nodup) {count : String → ℕ}
    (hcount : ∀ name ∈ factors, 0 < count name) :
    1 + ((all factors).map fun term => ∏ name ∈ term.support, (count name - 1)).sum =
      ∏ name ∈ factors.toFinset, count name := by
  have hempty : ∅ ∈ factors.toFinset.powerset := Finset.mem_powerset.mpr (Finset.empty_subset _)
  calc
    1 + ((all factors).map fun term => ∏ name ∈ term.support, (count name - 1)).sum
        = 1 + ∑ names ∈ factors.toFinset.powerset.erase ∅, ∏ name ∈ names, (count name - 1) := by
      rw [sum_all hnodup fun names => ∏ name ∈ names, (count name - 1)]
    _ = ∑ names ∈ factors.toFinset.powerset, ∏ name ∈ names, (count name - 1) := by
      rw [← Finset.add_sum_erase _ _ hempty, Finset.prod_empty]
    _ = ∏ name ∈ factors.toFinset, (count name - 1 + 1) := (Finset.prod_add_one _).symm
    _ = ∏ name ∈ factors.toFinset, count name := by
      apply Finset.prod_congr rfl
      intro name hname
      exact Nat.succ_pred_eq_of_pos (hcount name (mem_toFinset.mp hname))

theorem length_all {factors : List String} (hnodup : factors.Nodup) :
    (all factors).length = 2 ^ factors.length - 1 := by
  have hsum := sum_all hnodup fun _ => 1
  have hempty : ∅ ∈ factors.toFinset.powerset := Finset.mem_powerset.mpr (Finset.empty_subset _)
  rw [← Finset.card_eq_sum_ones, Finset.card_erase_of_mem hempty, Finset.card_powerset,
    toFinset_card_of_nodup hnodup] at hsum
  simpa using hsum

/-! ## The order of the terms -/

/-- The positions of the factors of a term. -/
def places (factors : List String) (term : Term) : List ℕ :=
  term.factors.map factors.idxOf

theorem places_of_combination {factors : List String} (hnodup : factors.Nodup)
    {combination : List ℕ} (h : ∀ place ∈ combination, place < factors.length) :
    places factors ⟨combination.map fun place => factors.getD place ""⟩ = combination := by
  have hplace : ∀ place ∈ combination,
      (factors.idxOf ∘ fun place => factors.getD place "") place = id place := by
    intro place hmem
    simp [h place hmem, hnodup.idxOf_getElem]
  rw [places, map_map, map_congr_left hplace, map_id]

/-- A term stands before the longer ones and before those of its length that differ from it first in
a later factor. -/
theorem pairwise_all {factors : List String} (hnodup : factors.Nodup) :
    (all factors).Pairwise fun term other =>
      term.order < other.order ∨
        term.order = other.order ∧ term.places factors < other.places factors := by
  rw [all, pairwise_flatMap]
  constructor
  · intro k _
    rw [choose_factors, map_map, pairwise_map]
    apply (pairwise_choose k pairwise_lt_range).imp_of_mem
    intro combination later hmem hlater hlt
    obtain ⟨-, hlength, hplaces⟩ := mem_choose_range.mp hmem
    obtain ⟨-, hlength', hplaces'⟩ := mem_choose_range.mp hlater
    refine Or.inr ⟨?_, ?_⟩
    · simp [order, hlength, hlength']
    · rwa [Function.comp_apply, Function.comp_apply, places_of_combination hnodup hplaces,
        places_of_combination hnodup hplaces']
  · apply (pairwise_lt_range' (n := factors.length)).imp
    intro k l hlt term hterm other hother
    obtain ⟨names, hnames, rfl⟩ := mem_map.mp hterm
    obtain ⟨others, hothers, rfl⟩ := mem_map.mp hother
    have hk : names.length = k := (mem_choose.mp hnames).2
    have hl : others.length = l := (mem_choose.mp hothers).2
    exact Or.inl (by simp only [order]; omega)

/-- The main effects come first. -/
theorem take_all (factors : List String) :
    (all factors).take factors.length = factors.map fun factor => ⟨[factor]⟩ := by
  cases hlength : factors.length with
  | zero => simp [length_eq_zero_iff.mp hlength]
  | succ n =>
      have hmain : (choose 1 factors).map Term.mk = factors.map fun factor => ⟨[factor]⟩ := by
        rw [choose_one, map_map]
        rfl
      rw [all, hlength, range'_succ, flatMap_cons, hmain, take_left' (by simpa using hlength)]

/-- A set of factors has one term in the lattice. -/
theorem existsUnique_support {factors : List String} (hnodup : factors.Nodup)
    {names : Finset String} (h : names ∈ factors.toFinset.powerset.erase ∅) :
    ∃! term, term ∈ all factors ∧ term.support = names := by
  have hsub : names ⊆ factors.toFinset := Finset.mem_powerset.mp (Finset.mem_of_mem_erase h)
  refine ⟨ofSupport factors names, ⟨ofSupport_mem h, support_ofSupport hsub⟩, ?_⟩
  rintro term ⟨hterm, rfl⟩
  exact (ofSupport_support hnodup hterm).symm

/-- All combinations of positions are found, each once and in the order of words. So the lattice
exists for one to sixteen different factors, and then has one term for every non-empty set of them:
fewer factors first, and terms of one size in the order of the positions of their factors. -/
theorem lattice_enumerates :
    (∀ n k, 0 < k → ∃ combinations, Combination.all? n k = some combinations ∧
      (∀ combination, combination ∈ combinations ↔
        combination.Pairwise (· < ·) ∧ combination.length = k ∧
          ∀ place ∈ combination, place < n) ∧
      combinations.Nodup ∧ combinations.Pairwise (· < ·) ∧ (n < k → combinations = [])) ∧
    ∀ factors,
      ((∃ terms, lattice (α := α) factors = .ok terms) ↔
        factors ≠ [] ∧ factors.Nodup ∧ factors.length ≤ 16) ∧
      ∀ terms, lattice (α := α) factors = .ok terms →
        terms.length = 2 ^ factors.length - 1 ∧
        (∀ term ∈ terms, term.factors <+ factors ∧ term.factors ≠ []) ∧
        (∀ names ⊆ factors.toFinset, names ≠ ∅ → ∃! term, term ∈ terms ∧ term.support = names) ∧
        (terms.Pairwise fun term other =>
          term.order < other.order ∨
            term.order = other.order ∧ term.places factors < other.places factors) ∧
        terms.take factors.length = factors.map fun factor => ⟨[factor]⟩ := by
  constructor
  · intro n k hk
    refine ⟨_, all?_eq n hk, fun combination => mem_choose_range, nodup_choose k nodup_range,
      pairwise_choose k pairwise_lt_range, ?_⟩
    intro hlt
    exact choose_of_lt (by simpa using hlt)
  · intro factors
    constructor
    · constructor
      · rintro ⟨terms, hterms⟩
        obtain ⟨hne, hnodup, hlength, -⟩ := lattice_eq_ok.mp hterms
        exact ⟨hne, hnodup, hlength⟩
      · rintro ⟨hne, hnodup, hlength⟩
        exact ⟨_, lattice_eq_ok.mpr ⟨hne, hnodup, hlength, rfl⟩⟩
    · intro terms hterms
      obtain ⟨-, hnodup, -, rfl⟩ := lattice_eq_ok.mp hterms
      refine ⟨length_all hnodup, fun term => mem_all.mp, ?_, pairwise_all hnodup,
        take_all factors⟩
      intro names hsub hne
      exact existsUnique_support hnodup
        (Finset.mem_erase.mpr ⟨hne, Finset.mem_powerset.mpr hsub⟩)

theorem lattice_enumerates_three :
    (∃ combinations, Combination.all? 3 2 = some combinations ∧ [0, 2] ∈ combinations) ∧
    ∃ terms, lattice (α := Float) ["a", "b", "c"] = .ok terms ∧ terms.length = 7 ∧
      terms.take 3 = [⟨["a"]⟩, ⟨["b"]⟩, ⟨["c"]⟩] := by
  obtain ⟨hcombinations, hlattice⟩ := lattice_enumerates (α := Float)
  obtain ⟨combinations, hall, hmem, -⟩ := hcombinations 3 2 (by decide)
  obtain ⟨hiff, hterms⟩ := hlattice ["a", "b", "c"]
  obtain ⟨terms, hok⟩ := hiff.mpr ⟨by decide, by decide, by decide⟩
  obtain ⟨hlength, -, -, -, htake⟩ := hterms terms hok
  exact ⟨⟨combinations, hall, (hmem [0, 2]).mpr (by decide)⟩, terms, hok, hlength, htake⟩

end Significance.Term
