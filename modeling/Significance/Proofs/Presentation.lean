import Mathlib.Logic.Equiv.Fin.Basic
import Significance.Proofs.Correspondence
import Significance.Proofs.Requests

/-! # Presentation of the data

An analysis depends neither on the order of the records nor on that of the factors, nor on the words
for the levels, and so not on which level comes first. -/

namespace Significance

open Success Exact

section

variable [Wording]

/-- The same value in the target and, in every factor, the level under another name. -/
structure Record.Renames (target : String) (factors : List String)
    (rename : String → String → String) (record record' : Record (Value Exact)) : Prop where
  target_eq : record'.get? target = record.get? target
  label_eq : ∀ name ∈ factors, (record'.get? name).bind Value.label? =
    ((record.get? name).bind Value.label?).map (rename name)

theorem Corresponds.of_renames {data data' : Dataset Exact} {target : String}
    {factors : List String} {rename : String → String → String} {e : Fin data.size ≃ Fin data'.size}
    (hrecords : ∀ i, (data.record i).Renames target factors rename (data'.record (e i)))
    (hinj : ∀ name ∈ factors,
      Set.InjOn (rename name) {label | ∃ i, data.level? i name = some label}) :
    Corresponds data data' target target factors e 1 0 := by
  have hlevel : ∀ name ∈ factors, ∀ i,
      data'.level? (e i) name = (data.level? i name).map (rename name) :=
    fun name hname i => (hrecords i).label_eq name hname
  refine ⟨one_ne_zero, ?_, ?_, ?_, ?_⟩
  · intro name hname i
    rw [hlevel name hname, Option.isSome_map]
  · intro name hname i j
    rw [hlevel name hname, hlevel name hname]
    cases hi : data.level? i name with
    | none => simp [eq_comm]
    | some s =>
        cases hj : data.level? j name with
        | none => simp
        | some t => simpa using (hinj name hname).eq_iff ⟨i, hi⟩ ⟨j, hj⟩
  · constructor
    · intro hreals i
      rw [← (hrecords i).target_eq]
      exact hreals (e i)
    · intro hreals i
      rw [← e.apply_symm_apply i, (hrecords _).target_eq]
      exact hreals _
  · intro i
    rw [Dataset.reals, (hrecords i).target_eq, one_mul, add_zero]
    rfl

/-- The row of the term with the same factors, in another order. -/
def Effect.reorder (factors : List String) (row : Effect Exact) : Effect Exact :=
  { row with term := Term.ofSupport factors row.term.support }

namespace Variance

variable {d : Distribution Exact} {data data' : Dataset Exact} {target target' : String}
  {factors factors' : List String} {e : Fin data.size ≃ Fin data'.size} {scale shift : ℝ}

/-- The decomposition of corresponding data over the same factors in any order. -/
theorem exists_multiWay_of_perm
    (h : Corresponds data data' target target' factors e scale shift)
    (hkeep : KeepsIndependent data factors) (hkeep' : KeepsIndependent data' factors')
    (hperm : factors'.Perm factors) {table : VarianceTable Exact}
    (htable : multiWay d data target factors = .ok table) :
    ∃ table', multiWay d data' target' factors' = .ok table' ∧
      table'.effects.Perm (table.effects.map
        (Effect.restate (fun term => Term.ofSupport factors' term.support) (scale ^ 2))) ∧
      table'.residual = table.residual.rescale (scale ^ 2) ∧
      table'.observations = table.observations := by
  have hnodup := (multiWay_eq_ok.mp htable).2.1.nodup
  have hnames : factors.toFinset = factors'.toFinset :=
    (List.toFinset_eq_of_perm _ _ hperm).symm
  have hterms := Term.map_ofSupport_perm hnodup hperm
  have hsupport : ∀ term ∈ Term.all factors,
      (Term.ofSupport factors' term.support).support = term.support := by
    intro term hterm
    exact Term.support_ofSupport ((Term.support_subset hterm).trans hnames.le)
  obtain ⟨hrows, hwhole⟩ := h.multiWay_of_restated hkeep hkeep' hperm hterms hsupport htable
  obtain ⟨effects, heffects, hresults⟩ := exists_mapM_of_perm hterms.symm hrows
  exact ⟨_, hwhole effects heffects, hresults, rfl, rfl⟩

/-- Records in another order, factors in another order and levels under other names leave an analysis
as it is, but for the order of its rows and of the factors in their terms. -/
theorem analyze_of_renames (rename : String → String → String) (e : Fin data.size ≃ Fin data'.size)
    (hrecords : ∀ i, (data.record i).Renames target factors rename (data'.record (e i)))
    (hinj : ∀ name ∈ factors,
      Set.InjOn (rename name) {label | ∃ i, data.level? i name = some label})
    (hperm : factors'.Perm factors) (hkeep : KeepsIndependent data factors)
    (hkeep' : KeepsIndependent data' factors') :
    ((∃ table', analyze d data' target factors' = .ok table') ↔
      ∃ table, analyze d data target factors = .ok table) ∧
    ∀ table table', analyze d data target factors = .ok table →
      analyze d data' target factors' = .ok table' →
      table'.effects.Perm (table.effects.map (Effect.reorder factors')) ∧
      (∀ row ∈ table.effects, (row.reorder factors').term.support = row.term.support) ∧
      table'.residual = table.residual ∧ table'.observations = table.observations := by
  have h := Corresponds.of_renames hrecords hinj
  have hrestate : Effect.restate (fun term => Term.ofSupport factors' term.support) (1 ^ 2) =
      Effect.reorder factors' := by
    funext row
    rw [one_pow, Effect.restate, Effect.rescale, real_one_mul]
    rfl
  simp only [analyze_eq_ok hkeep, analyze_eq_ok hkeep']
  constructor
  · constructor
    · rintro ⟨_, whole', hwhole', -⟩
      obtain ⟨whole, hwhole, -⟩ :=
        exists_multiWay_of_perm (h.symm.perm hperm) hkeep' hkeep hperm.symm hwhole'
      exact ⟨_, whole, hwhole, rfl⟩
    · rintro ⟨_, whole, hwhole, -⟩
      obtain ⟨whole', hwhole', -⟩ := exists_multiWay_of_perm h hkeep hkeep' hperm hwhole
      exact ⟨_, whole', hwhole', rfl⟩
  · rintro _ _ ⟨whole, hwhole, rfl⟩ ⟨whole', hwhole', rfl⟩
    obtain ⟨table', htable', hrows, hresidual, hobservations⟩ :=
      exists_multiWay_of_perm h hkeep hkeep' hperm hwhole
    rw [hwhole'] at htable'
    injection htable' with htable'
    subst htable'
    rw [hrestate] at hrows
    rw [one_pow, Residual.rescale, real_one_mul] at hresidual
    refine ⟨hrows, ?_, hresidual, hobservations⟩
    intro row hrow
    obtain ⟨_, _, hisRow⟩ := exists_isRow hkeep hwhole hrow
    apply Term.support_ofSupport
    rw [List.toFinset_eq_of_perm _ _ hperm]
    exact Term.support_subset hisRow.term_mem

end Variance

end

/-! ## The sample from its end -/

namespace Sample

open Variance

/-- The records of the sample in reverse order, the levels of `a` exchanged. -/
def mirrored : Dataset Exact :=
  ⟨[record "s" "v" 9, record "s" "v" 6, record "s" "u" 5, record "s" "u" 3, record "t" "v" 7,
    record "t" "v" 4, record "t" "u" 2, record "t" "u" 1]⟩

def exchange (_ : String) : String → String :=
  Equiv.swap "s" "t"

theorem renames_record (a b : String) (y : ℤ) (hb : exchange "b" b = b) :
    (record a b y).Renames "y" ["a", "b"] exchange (record (exchange "a" a) b y) := by
  refine ⟨rfl, ?_⟩
  intro name hname
  rcases List.mem_pair.mp hname with rfl | rfl
  · rfl
  · exact congrArg some hb.symm

def fromEnd : Fin data.size ≃ Fin mirrored.size :=
  Fin.revPerm (n := 8)

theorem renames_mirrored (i : Fin data.size) :
    (data.record i).Renames "y" ["a", "b"] exchange (mirrored.record (fromEnd i)) := by
  change Fin 8 at i
  fin_cases i <;> exact renames_record _ _ _ (by decide)

theorem keeps_mirrored : KeepsIndependent mirrored ["b", "a"] :=
  keepsIndependent (by decide) ["b", "a"]

end Sample

namespace Variance

open Sample

theorem analyze_of_renames_mirrored :
    (∀ i, (data.record i).Renames "y" ["a", "b"] exchange (mirrored.record (fromEnd i))) ∧
    ["b", "a"].Perm ["a", "b"] ∧ KeepsIndependent data ["a", "b"] ∧
    KeepsIndependent mirrored ["b", "a"] ∧ ∃ table table',
      analyze Distribution.exactFisher data "y" ["a", "b"] = .ok table ∧
      analyze Distribution.exactFisher mirrored "y" ["b", "a"] = .ok table' ∧
      table'.effects.Perm (table.effects.map (Effect.reorder ["b", "a"])) ∧
      (∀ row ∈ table.effects, (row.reorder ["b", "a"]).term.support = row.term.support) ∧
      table'.residual = table.residual ∧ table'.observations = table.observations := by
  have hperm : ["b", "a"].Perm ["a", "b"] := List.Perm.swap "a" "b" []
  have hinj : ∀ name ∈ ["a", "b"],
      Set.InjOn (exchange name) {label | ∃ i, data.level? i name = some label} :=
    fun _ _ => (Equiv.swap "s" "t").injective.injOn
  obtain ⟨hiff, hsame⟩ := analyze_of_renames (d := Distribution.exactFisher) exchange fromEnd
    renames_mirrored hinj hperm keeps keeps_mirrored
  obtain ⟨whole, hwhole⟩ := exists_table
  have htable := (analyze_eq_ok keeps).mpr ⟨whole, hwhole, rfl⟩
  obtain ⟨table', htable'⟩ := hiff.mpr ⟨_, htable⟩
  exact ⟨renames_mirrored, hperm, keeps, keeps_mirrored, _, table', htable, htable',
    hsame _ _ htable htable'⟩

end Variance

end Significance
