import Significance.Proofs.OneFactor

/-! # Requests

The request for some factors is answered exactly where the decomposition over all their interactions
exists, with its table. -/

namespace Significance

open Success Exact

section

variable {α : Type}

theorem Dataset.requireFields_eq_ok {data : Dataset α} {names : List String} :
    data.requireFields names = .ok () ↔ ∀ i, ∀ name ∈ names, (data.record i).contains name := by
  let missing : Option (String × ℕ) := data.records.zipIdx.findSome? fun pair =>
    (names.find? fun name => !pair.1.contains name).map (·, pair.2)
  have hnone : missing = none ↔ ∀ i, ∀ name ∈ names, (data.record i).contains name := by
    calc
      missing = none ↔ ∀ pair ∈ data.records.zipIdx, ∀ name ∈ names, pair.1.contains name := by
        simp [missing]
      _ ↔ ∀ record ∈ data.records.zipIdx.map Prod.fst, ∀ name ∈ names, record.contains name := by
        rw [List.forall_mem_map]
      _ ↔ ∀ i, ∀ name ∈ names, (data.record i).contains name := by
        rw [List.zipIdx_map_fst, ← ofFn_record, List.forall_mem_ofFn_iff]
  rw [← hnone, requireFields]
  split
  · next name i hfound =>
    have hmissing : missing = some (name, i) := hfound
    simp [hmissing]
  · next hfound =>
    have hmissing : missing = none := hfound
    simp [hmissing]

theorem Request.ofFactors_pair {first second : String} {rest : List String} {request : Request} :
    Request.ofFactors (α := α) (first :: second :: rest) = .ok request ↔
      (first :: second :: rest).Nodup ∧ request = .multiWay (first :: second :: rest) := by
  simp only [Request.ofFactors, bind_eq_ok, pure_eq_ok]
  constructor
  · rintro ⟨_, hcheck, rfl⟩
    exact ⟨(Term.checkFactors_eq_ok.mp hcheck).2, rfl⟩
  · rintro ⟨hnodup, rfl⟩
    exact ⟨(), Term.checkFactors_eq_ok.mpr ⟨by simp, hnodup⟩, rfl⟩

theorem Request.ofFactors_eq_ok {factors : List String} {request : Request}
    (h : ofFactors (α := α) factors = .ok request) :
    request.factors = factors ∧ factors ≠ [] ∧ factors.Nodup := by
  match factors with
  | [] => cases h
  | [factor] =>
      cases h
      exact ⟨rfl, by simp, by simp⟩
  | first :: second :: rest =>
      obtain ⟨hnodup, rfl⟩ := ofFactors_pair.mp h
      exact ⟨rfl, by simp, hnodup⟩

namespace Variance

variable [Scalar α] {d : Distribution α} {data : Dataset α} {target : String}
  {table : VarianceTable α}

theorem answer_eq_ok {request : Request} :
    answer d data target request = .ok table ↔
      data.requireFields (target :: request.factors) = .ok () ∧ data.isEmpty = false ∧
      (match request with
        | .oneWay factor => oneWay d data target factor
        | .multiWay factors => multiWay d data target factors) = .ok table := by
  simp only [answer, bind_eq_ok, check_eq_ok, Bool.not_eq_true]
  constructor
  · rintro ⟨_, hfields, hrest⟩
    exact ⟨hfields, hrest⟩
  · rintro ⟨hfields, hrest⟩
    exact ⟨(), hfields, hrest⟩

/-- The factors of an answered request are testable. -/
theorem exists_testableFactors {factors : List String}
    (h : analyze d data target factors = .ok table) :
    ∃ groupings, testableFactors data factors = .ok groupings := by
  match factors with
  | [] => cases h
  | [factor] =>
      have hrequest : answer d data target (.oneWay factor) = .ok table := h
      obtain ⟨-, -, hanswer⟩ := answer_eq_ok.mp hrequest
      simp only [oneWay, bind_eq_ok] at hanswer
      obtain ⟨_, -, grouping, hgrouping, ⟨⟩, htestable, -⟩ := hanswer
      refine ⟨[grouping], mapM_eq_ok.mpr (List.Forall₂.cons ?_ List.Forall₂.nil)⟩
      rw [hgrouping, ok_bind, htestable]
      rfl
  | first :: second :: rest =>
      simp only [analyze, bind_eq_ok, Request.ofFactors_pair, answer_eq_ok] at h
      obtain ⟨_, ⟨-, rfl⟩, -, -, hanswer⟩ := h
      simp only [multiWay, bind_eq_ok] at hanswer
      obtain ⟨_, -, groupings, hgroupings, -⟩ := hanswer
      exact ⟨groupings, hgroupings⟩

/-- A table has one row for each term, in their order. -/
theorem analyze_terms {factors : List String} (h : analyze d data target factors = .ok table) :
    factors.Nodup ∧ table.effects.map Effect.term = Term.all factors := by
  simp only [analyze, bind_eq_ok, answer_eq_ok] at h
  obtain ⟨request, hrequest, -, -, hanswer⟩ := h
  obtain ⟨rfl, hne, hnodup⟩ := Request.ofFactors_eq_ok hrequest
  refine ⟨hnodup, ?_⟩
  cases request with
  | oneWay factor =>
      simp only [oneWay, bind_eq_ok, check_eq_ok, pure_eq_ok] at hanswer
      obtain ⟨_, -, _, -, _, -, -, row, hrow, rfl⟩ := hanswer
      rw [List.map_singleton, (test_eq_ok hrow).1]
      rfl
  | multiWay factors =>
      simp only [multiWay, bind_eq_ok, check_eq_ok, pure_eq_ok] at hanswer
      obtain ⟨_, -, _, -, terms, hterms, _, -, _, -, _, -, -, effects, heffects, rfl⟩ := hanswer
      obtain ⟨-, -, -, rfl⟩ := Term.lattice_eq_ok.mp hterms
      have hkeys : effects.map Effect.term = (Term.all factors).map id :=
        map_of_mapM_eq_ok heffects fun _ _ _ hrow => effect_term hrow
      rw [hkeys, List.map_id]
      rfl

end Variance

end

namespace Variance

variable [Wording] {d : Distribution Exact} {data : Dataset Exact} {target factor : String}
  {factors : List String} {table : VarianceTable Exact}

theorem oneWay_kind (h : oneWay d data target factor = .ok table) : table.kind = .oneWay := by
  simp only [oneWay, bind_eq_ok, check_eq_ok, pure_eq_ok] at h
  obtain ⟨_, -, _, -, _, -, -, _, -, rfl⟩ := h
  rfl

theorem multiWay_kind (h : multiWay d data target factors = .ok table) :
    table.kind = .multiWay := by
  obtain ⟨-, -, _, -, -, _, -, rfl⟩ := multiWay_eq_ok.mp h
  rfl

/-- A decomposition finds all its fields in all records. -/
theorem requireFields_of_multiWay (h : multiWay d data target factors = .ok table) :
    data.requireFields (target :: factors) = .ok () ∧ data.isEmpty = false := by
  obtain ⟨hreals, hcrossed, -⟩ := multiWay_eq_ok.mp h
  constructor
  · rw [Dataset.requireFields_eq_ok]
    intro i name hname
    rcases List.mem_cons.mp hname with rfl | hname
    · obtain ⟨x, hx⟩ := hreals i
      simp [Record.contains, hx]
    · obtain ⟨label, hlabel⟩ := Option.isSome_iff_exists.mp (hcrossed.hasLevels name hname i)
      obtain ⟨value, hvalue, -⟩ := Option.bind_eq_some_iff.mp hlabel
      simp [Record.contains, hvalue]
  · rw [Dataset.isEmpty, List.isEmpty_eq_false_iff]
    exact List.ne_nil_of_length_pos hcrossed.pos

theorem oneWay_eq_ok (hkeep : KeepsIndependent data [factor]) :
    oneWay d data target factor = .ok table ↔
      ∃ whole, multiWay d data target [factor] = .ok whole ∧
        table = { whole with kind := .oneWay } := by
  constructor
  · intro h
    refine ⟨_, by rw [multiWay_singleton hkeep, h]; rfl, ?_⟩
    rw [← oneWay_kind h]
  · rintro ⟨whole, hwhole, rfl⟩
    rw [multiWay_singleton hkeep, map_eq_ok] at hwhole
    obtain ⟨table, htable, rfl⟩ := hwhole
    dsimp only
    rw [htable, ← oneWay_kind htable]

/-- An analysis is a decomposition over all interactions, a single factor counting as one-way. -/
theorem analyze_eq_ok (hkeep : KeepsIndependent data factors) :
    analyze d data target factors = .ok table ↔
      ∃ whole, multiWay d data target factors = .ok whole ∧
        table = { whole with kind := if factors.length = 1 then .oneWay else .multiWay } := by
  match factors with
  | [] =>
      constructor
      · intro h
        cases h
      · rintro ⟨whole, hwhole, -⟩
        exact absurd rfl (multiWay_eq_ok.mp hwhole).2.1.ne_nil
  | [factor] =>
      have hrequest : analyze d data target [factor] = answer d data target (.oneWay factor) := rfl
      rw [hrequest, answer_eq_ok]
      dsimp only
      rw [oneWay_eq_ok hkeep, List.length_singleton, if_pos rfl]
      constructor
      · rintro ⟨-, -, h⟩
        exact h
      · rintro ⟨whole, hwhole, rfl⟩
        obtain ⟨hfields, hempty⟩ := requireFields_of_multiWay hwhole
        exact ⟨hfields, hempty, whole, hwhole, rfl⟩
  | first :: second :: rest =>
      have hlength : ¬(first :: second :: rest).length = 1 := by simp
      rw [analyze, bind_eq_ok, if_neg hlength]
      simp only [Request.ofFactors_pair, answer_eq_ok]
      constructor
      · rintro ⟨_, ⟨-, rfl⟩, -, -, h⟩
        exact ⟨table, h, by rw [← multiWay_kind h]⟩
      · rintro ⟨whole, hwhole, rfl⟩
        obtain ⟨hfields, hempty⟩ := requireFields_of_multiWay hwhole
        have hnodup := (multiWay_eq_ok.mp hwhole).2.1.nodup
        refine ⟨_, ⟨hnodup, rfl⟩, hfields, hempty, ?_⟩
        rw [← multiWay_kind hwhole]
        exact hwhole

end Variance

end Significance
