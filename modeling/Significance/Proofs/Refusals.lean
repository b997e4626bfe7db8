import Significance.Proofs.Labelling
import Significance.Proofs.Requests

/-! # Reasons for a refusal

Each check of an analysis has its reason: a condition on the request or on the records, with the
error that tells it. -/

namespace Significance

open Success

/-! ## The reasons -/

namespace Refusal

section

variable {α : Type}

def noFactors (factors : List String) (e : Error α) : Prop :=
  factors = [] ∧ e = .noFactors

/-- Of the names that repeat an earlier one, the first is told. -/
def repeatedFactor (factors : List String) (e : Error α) : Prop :=
  ∃ before name after, factors = before ++ name :: after ∧ before.Nodup ∧ name ∈ before ∧
    e = .repeatedFactor name

/-- The first record that lacks a field is told, and in it the first such field. -/
def missingField (data : Dataset α) (names : List String) : Error α → Prop :=
  First (List.ofFn fun i => First (names.map fun name e =>
    (data.record i).contains name = false ∧ e = .missingField name i))

def noRecords (data : Dataset α) (e : Error α) : Prop :=
  data.size = 0 ∧ e = .emptyData .records

/-- What keeps a value from being a finite number. -/
def numberFault? [Scalar α] : Value α → Option (ValueFault α)
  | .number x => if Scalar.isFinite x then none else some (.notFinite x)
  | value => some (.notNumber value.kind)

/-- What keeps a value from being a category: being null or a list. -/
def categoryFault? : Value α → Option (ValueFault α)
  | .null => some (.notCategory .null)
  | .list _ => some (.notCategory .list)
  | _ => none

/-- The first record with an unfit value in the field is told. -/
def unfitValue (data : Dataset α) (name : String) (fault? : Value α → Option (ValueFault α)) :
    Error α → Prop :=
  First (List.ofFn fun i e => ∃ value fault, (data.record i).get? name = some value ∧
    fault? value = some fault ∧ e = .invalidValue name i fault)

def singleLevel [Scalar α] (data : Dataset α) (name : String) (e : Error α) : Prop :=
  0 < data.size ∧ ∃ label, (∀ i, data.level? i name = some label) ∧ e = .singleLevel name label

def tooManyFactors (factors : List String) (e : Error α) : Prop :=
  16 < factors.length ∧ e = .invalidInput (.tooManyFactors factors.length 16)

end

section

variable {α : Type} [Scalar α] (data : Dataset α)

/-- A combination of one level per factor, each of which occurs, that is not that of a record. -/
structure LacksCell (names : List String) (level : String → String) : Prop where
  occurs : ∀ name ∈ names, ∃ i, data.level? i name = some (level name)
  lacks : ∀ i, ∃ name ∈ names, data.level? i name ≠ some (level name)

/-- Of the combinations of levels of a term that no record has, the first in lexicographic order is
told. -/
def emptyCellOf (term : Term) (e : Error α) : Prop :=
  ∃ level, LacksCell data term.factors level ∧
    (∀ other, LacksCell data term.factors other →
      ¬term.factors.map other < term.factors.map level) ∧
    e = .emptyCell term.name (term.factors.map fun name => (name, level name))

/-- Some combination of levels of all factors is not that of a record. The first term is told that
lacks a combination of its own levels. -/
def emptyCell (factors : List String) (e : Error α) : Prop :=
  (∃ level, LacksCell data factors level) ∧ First ((Term.all factors).map (emptyCellOf data)) e

def noResidual (factors : List String) (e : Error α) : Prop :=
  data.size = ∏ name ∈ factors.toFinset, data.levelCount name ∧
    e = .noResidual data.size (∏ name ∈ factors.toFinset, data.levelCount name)

end

end Refusal

/-! ## Requests and fields -/

section

variable {α : Type}

theorem Term.firstRepeat?_eq_some {seen names : List String} {name : String} :
    firstRepeat? seen names = some name ↔ ∃ before after, names = before ++ name :: after ∧
      (before.Nodup ∧ ∀ x ∈ before, x ∉ seen) ∧ (name ∈ seen ∨ name ∈ before) := by
  induction names generalizing seen with
  | nil => simp [firstRepeat?]
  | cons first names ih =>
      rw [firstRepeat?]
      by_cases h : first ∈ seen
      · rw [if_pos (List.contains_iff_mem.mpr h)]
        constructor
        · intro heq
          obtain rfl : first = name := Option.some_injective _ heq
          exact ⟨[], names, rfl, by simp, Or.inl h⟩
        · rintro ⟨before, after, hnames, ⟨-, hfresh⟩, -⟩
          cases before with
          | nil => rw [(List.cons.inj hnames).1]
          | cons other before =>
              rw [(List.cons.inj hnames).1] at h
              exact absurd h (hfresh other List.mem_cons_self)
      · rw [if_neg (fun hmem => h (List.contains_iff_mem.mp hmem)), ih]
        constructor
        · rintro ⟨before, after, rfl, ⟨hnodup, hfresh⟩, hrepeat⟩
          refine ⟨first :: before, after, rfl, ⟨?_, ?_⟩, ?_⟩
          · exact List.nodup_cons.mpr
              ⟨fun hmem => hfresh first hmem List.mem_cons_self, hnodup⟩
          · rw [List.forall_mem_cons]
            exact ⟨h, fun x hx hmem => hfresh x hx (List.mem_cons_of_mem _ hmem)⟩
          · simp only [List.mem_cons] at hrepeat ⊢
            tauto
        · rintro ⟨before, after, hnames, ⟨hnodup, hfresh⟩, hrepeat⟩
          cases before with
          | nil =>
              rw [(List.cons.inj hnames).1] at h
              simp [h] at hrepeat
          | cons other before =>
              obtain ⟨rfl, rfl⟩ := List.cons.inj hnames
              obtain ⟨hother, hnodup⟩ := List.nodup_cons.mp hnodup
              refine ⟨before, after, rfl, ⟨hnodup, ?_⟩, ?_⟩
              · intro x hx hmem
                rcases List.mem_cons.mp hmem with rfl | hmem
                · exact hother hx
                · exact hfresh x (List.mem_cons_of_mem _ hx) hmem
              · simp only [List.mem_cons] at hrepeat ⊢
                tauto

theorem Term.refused_checkFactors (factors : List String) :
    Refused (checkFactors (α := α) factors)
      [Refusal.noFactors factors, Refusal.repeatedFactor factors] := by
  have hrepeat : ∀ e : Error α, Refusal.repeatedFactor factors e ↔
      ∃ name, firstRepeat? [] factors = some name ∧ e = .repeatedFactor name := by
    intro e
    simp only [firstRepeat?_eq_some, Refusal.repeatedFactor]
    constructor
    · rintro ⟨before, name, after, hfactors, hnodup, hname, rfl⟩
      exact ⟨name, ⟨before, after, hfactors, ⟨hnodup, by simp⟩, Or.inr hname⟩, rfl⟩
    · rintro ⟨name, ⟨before, after, hfactors, ⟨hnodup, -⟩, hname⟩, rfl⟩
      exact ⟨before, name, after, hfactors, hnodup, by simpa using hname, rfl⟩
  intro e
  rw [First.cons_iff, First.singleton_iff, hrepeat, checkFactors]
  by_cases hnil : factors = []
  · subst hnil
    rw [or_iff_left fun hboth => hboth.1 .noFactors ⟨rfl, rfl⟩]
    constructor
    · rintro ⟨⟩
      exact ⟨rfl, rfl⟩
    · rintro ⟨-, rfl⟩
      rfl
  · cases hfirst : firstRepeat? [] factors with
    | none => simp [hnil, Refusal.noFactors]
    | some name =>
        simp only [hnil, Refusal.noFactors, false_and, false_or, Option.some.injEq,
          exists_eq_left', List.isEmpty_iff, ↓reduceIte, Except.error.injEq]
        simp [eq_comm]

theorem Request.refused_ofFactors (factors : List String) :
    Refused (ofFactors (α := α) factors)
      [Refusal.noFactors factors, Refusal.repeatedFactor factors] := by
  apply (Term.refused_checkFactors factors).bind_of_ok
  intro _ _
  split
  · exact ⟨_, rfl⟩
  · exact ⟨_, rfl⟩

namespace Dataset

variable {data : Dataset α} {name : String}

theorem zipIdx_records (data : Dataset α) :
    data.records.zipIdx = List.ofFn fun i => (data.record i, (i : ℕ)) := by
  apply List.ext_getElem
  · simp [size]
  · intro i hi hi'
    simp [record]

theorem exists_value {i : Fin data.size} (h : (data.record i).contains name) :
    ∃ value, (data.record i).get? name = some value :=
  Option.isSome_iff_exists.mp h

theorem refused_requireFields (data : Dataset α) (names : List String) :
    Refused (data.requireFields names) [Refusal.missingField data names] := by
  let missing : Option (String × ℕ) := data.records.zipIdx.findSome? fun pair =>
    (names.find? fun name => !pair.1.contains name).map (·, pair.2)
  have hmissing : ∀ e, Refusal.missingField data names e ↔
      ∃ pair, missing = some pair ∧ e = .missingField pair.1 pair.2 := by
    intro e
    have hfirst : First (data.records.zipIdx.map fun pair => First (names.map fun name e =>
        (!pair.1.contains name) = true ∧ e = Error.missingField name pair.2)) e ↔
        ∃ pair, missing = some pair ∧ e = .missingField pair.1 pair.2 := by
      apply First.map_iff_findSome?
      intro pair _ e
      rw [First.map_iff_find?]
      simp
    rw [← hfirst, zipIdx_records, List.map_ofFn]
    simp only [Bool.not_eq_true']
    rfl
  apply Refused.of_forall
  intro e
  rw [hmissing, requireFields]
  split
  · next name i hfound =>
    have hmissing : missing = some (name, i) := hfound
    simp [hmissing, eq_comm]
  · next hfound =>
    have hmissing : missing = none := hfound
    simp [hmissing]

/-- A column that is in all records is refused for the first value that cannot be read. -/
theorem refused_column {β : Type} {read : ℕ → Value α → Except (Error α) β}
    {fault? : Value α → Option (ValueFault α)}
    (hread : ∀ i value e, read i value = .error e ↔
      ∃ fault, fault? value = some fault ∧ e = .invalidValue name i fault)
    (hall : ∀ i, (data.record i).contains name) :
    Refused (data.records.zipIdx.mapM fun (record, i) => do read i (← field record i name))
      [Refusal.unfitValue data name fault?] := by
  have hstep : ∀ pair ∈ data.records.zipIdx,
      Refused (field pair.1 pair.2 name >>= read pair.2) [fun e => ∃ value fault,
        pair.1.get? name = some value ∧ fault? value = some fault ∧
          e = .invalidValue name pair.2 fault] := by
    rw [zipIdx_records, List.forall_mem_ofFn_iff]
    intro i
    obtain ⟨value, hvalue⟩ := exists_value (hall i)
    apply Refused.of_forall
    intro e
    simp only [field, hvalue, ok_bind, hread]
    simp
  apply (Refused.mapM hstep).congr
  intro e
  rw [First.singleton_iff, ← List.map_eq_flatMap, zipIdx_records, List.map_ofFn]
  rfl

variable [Scalar α]

theorem refused_numericColumn (hall : ∀ i, (data.record i).contains name) :
    Refused (data.numericColumn name) [Refusal.unfitValue data name Refusal.numberFault?] := by
  refine refused_column ?_ hall
  intro i value e
  cases value with
  | number x =>
      by_cases hfinite : Scalar.isFinite x
      · simp [finiteNumber, Refusal.numberFault?, hfinite]
      · simp [finiteNumber, Refusal.numberFault?, hfinite, eq_comm]
  | null | bool | text | list => simp [finiteNumber, Refusal.numberFault?, Value.kind, eq_comm]

theorem refused_categoricalColumn (hall : ∀ i, (data.record i).contains name) :
    Refused (data.categoricalColumn name)
      [Refusal.unfitValue data name Refusal.categoryFault?] := by
  refine refused_column ?_ hall
  intro i value e
  cases value with
  | null | list => simp [category, Value.label?, Refusal.categoryFault?, Value.kind, eq_comm]
  | bool | number | text => simp [category, Value.label?, Refusal.categoryFault?]

theorem refused_ofDataset (hall : ∀ i, (data.record i).contains name) :
    Refused (Factor.ofDataset data name) [Refusal.unfitValue data name Refusal.categoryFault?] :=
  (refused_categoricalColumn hall).bind_of_ok fun _ _ => ⟨_, rfl⟩

/-! ## Levels -/

theorem HasLevels.mem_levels_iff (h : data.HasLevels name) {text : String} :
    text ∈ (data.grouping name).levels ↔ ∃ i, data.level? i name = some text := by
  rw [grouping, Factor.mem_levels]
  refine exists_congr fun i => ?_
  obtain ⟨label, hlabel⟩ := Option.isSome_iff_exists.mp (h i)
  simp [hlabel]

/-- The labels of the records in the fields. -/
def labels (data : Dataset α) (name : String) (i : Fin data.size) : String :=
  (data.level? i name).getD ""

theorem HasLevels.level?_eq_some (h : data.HasLevels name) (i : Fin data.size) :
    data.level? i name = some (data.labels name i) := by
  obtain ⟨text, htext⟩ := Option.isSome_iff_exists.mp (h i)
  rw [labels, htext]
  rfl

/-- The label of a record is the level that its code stands for. -/
theorem HasLevels.level?_eq (h : data.HasLevels name) (i : Fin data.size) :
    data.level? i name = some ((data.grouping name).label ((data.grouping name).code i)) := by
  rw [h.level?_eq_some i]
  exact congrArg some (Factor.label_code data.labels name i).symm

theorem refused_ensureTestable (hlevels : data.HasLevels name) (hpos : 0 < data.size) :
    Refused (Factor.ensureTestable (α := α) (data.grouping name))
      [Refusal.singleLevel data name] := by
  have hcoded := data.coded_grouping name
  apply Refused.of_forall
  intro e
  rcases hcases : (data.grouping name).levels with _ | ⟨first, _ | ⟨second, rest⟩⟩
  · have hlt := hcoded.code_lt ⟨0, hpos⟩
    rw [hcases] at hlt
    exact absurd hlt (Nat.not_lt_zero _)
  · have hall : ∀ i, data.level? i name = some first := by
      intro i
      have hlt := hcoded.code_lt i
      rw [hcases, List.length_singleton, Nat.lt_one_iff] at hlt
      rw [hlevels.level?_eq i, hlt, Factor.label, hcases]
      rfl
    rw [Factor.ensureTestable, hcases]
    constructor
    · rintro ⟨⟩
      exact ⟨hpos, first, hall, rfl⟩
    · rintro ⟨-, label, hlabel, rfl⟩
      have heq := (hall ⟨0, hpos⟩).symm.trans (hlabel ⟨0, hpos⟩)
      rw [Option.some_injective _ heq]
      rfl
  · rw [Factor.ensureTestable, hcases]
    refine iff_of_false (by simp) ?_
    rintro ⟨-, label, hlabel, -⟩
    obtain ⟨i, hi⟩ := hcoded.exists_code 0 (by simp [hcases])
    obtain ⟨j, hj⟩ := hcoded.exists_code 1 (by simp [hcases])
    have hsame := hlevels.code_eq_iff.mpr ((hlabel i).trans (hlabel j).symm)
    omega

end Dataset

theorem Variance.refused_testableFactors [Scalar α] {data : Dataset α} {names : List String}
    (hall : ∀ i, ∀ name ∈ names, (data.record i).contains name) (hpos : 0 < data.size) :
    Refused (testableFactors data names) (names.flatMap fun name =>
      [Refusal.unfitValue data name Refusal.categoryFault?, Refusal.singleLevel data name]) := by
  apply Refused.mapM
  intro name hname
  apply (Dataset.refused_ofDataset fun i => hall i name hname).bind_cons
  intro factor hfactor
  obtain ⟨hlevels, rfl⟩ := Dataset.ofDataset_eq_ok.mp hfactor
  exact (Dataset.refused_ensureTestable hlevels hpos).bind_of_ok fun _ _ => ⟨_, rfl⟩

theorem Term.refused_lattice {factors : List String} (hne : factors ≠ []) (hnodup : factors.Nodup) :
    Refused (lattice (α := α) factors) [Refusal.tooManyFactors factors] := by
  rw [lattice, checkFactors_eq_ok.mpr ⟨hne, hnodup⟩, ok_bind]
  exact Refused.check Iff.rfl fun _ => Refused.ok _

/-! ## Cells -/

namespace Dataset

variable [Scalar α] {data : Dataset α} {names : List String}

theorem lacksCell_iff (hlevels : ∀ name ∈ names, data.HasLevels name) {level : String → String} :
    Refusal.LacksCell data names level ↔ Unobserved data.labels names level := by
  have hlabel : ∀ i, ∀ name ∈ names,
      data.level? i name = some (level name) ↔ data.labels name i = level name := by
    intro i name hname
    rw [(hlevels name hname).level?_eq_some i, Option.some.injEq]
  constructor
  · rintro ⟨hoccurs, hlacks⟩
    refine ⟨fun name hname => (hlevels name hname).mem_levels_iff.mpr (hoccurs name hname), ?_⟩
    intro i
    obtain ⟨name, hname, hne⟩ := hlacks i
    exact ⟨name, hname, fun heq => hne ((hlabel i name hname).mpr heq)⟩
  · rintro ⟨hmem, hlacks⟩
    refine ⟨fun name hname => (hlevels name hname).mem_levels_iff.mp (hmem name hname), ?_⟩
    intro i
    obtain ⟨name, hname, hne⟩ := hlacks i
    exact ⟨name, hname, fun heq => hne ((hlabel i name hname).mp heq)⟩

theorem emptyCellOf_iff {term : Term} (hlevels : ∀ name ∈ term.factors, data.HasLevels name)
    {e : Error α} : Refusal.emptyCellOf data term e ↔ Refusal.cellOf data.labels term e := by
  simp only [Refusal.emptyCellOf, Refusal.cellOf, lacksCell_iff hlevels]
  constructor
  · rintro ⟨level, hlevel, hfirst, rfl⟩
    exact ⟨level, ⟨hlevel, hfirst⟩, rfl⟩
  · rintro ⟨level, ⟨hlevel, hfirst⟩, rfl⟩
    exact ⟨level, hlevel, hfirst, rfl⟩

/-- The check of all terms names the first one with an empty cell. There is one exactly where the
term of all factors has one. -/
theorem refused_check {factors : List String} (hne : factors ≠ []) (hnodup : factors.Nodup)
    (hlevels : ∀ name ∈ factors, data.HasLevels name) :
    Refused (Cell.check (α := α) (factors.map data.grouping) (Term.all factors))
      [Refusal.emptyCell data factors] := by
  have hcells : (Term.all factors).map (Refusal.emptyCellOf data) =
      (Term.all factors).map (Refusal.cellOf data.labels) := by
    apply List.map_congr_left
    intro term hterm
    funext e
    exact propext (emptyCellOf_iff fun name hname =>
      hlevels name ((Term.mem_all.mp hterm).1.subset hname))
  have hcheck : Refused (Cell.check (α := α) (factors.map data.grouping) (Term.all factors))
      ((Term.all factors).map (Refusal.emptyCellOf data)) := by
    rw [hcells]
    exact Cell.refused_check data.labels hnodup fun _ hterm => hterm
  have hok := Cell.check_eq_ok (α := α) data.grouping (fun _ => rfl) hne hnodup fun name _ =>
    data.coded_grouping name
  apply hcheck.congr
  intro e
  have hlacks : First ((Term.all factors).map (Refusal.emptyCellOf data)) e →
      ∃ level, Refusal.LacksCell data factors level := by
    intro hfirst
    have herror := (hcheck e).mpr hfirst
    simp only [lacksCell_iff hlevels]
    rw [← not_observed_iff, observed_iff_complete]
    intro hcomplete
    exact nomatch herror.symm.trans (hok.mpr hcomplete)
  rw [First.singleton_iff]
  exact ⟨fun hfirst => ⟨hlacks hfirst, hfirst⟩, And.right⟩

end Dataset

end

end Significance
