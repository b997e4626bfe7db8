import Significance.Text.Sorted

/-!
# Records

A record maps field names to values. Its fields are kept in increasing order of their names, so
two records with the same fields are equal, whatever order the fields came in.

Main statements: looking up a name after an insertion, and two records are equal when every name
looks up the same in both.
-/

namespace Significance

/-- Field names with their values, in strictly increasing order of the names. -/
structure Record (ν : Type) where
  fields : List (String × ν)
  sorted : fields.Pairwise (fun a b => a.1 < b.1)

namespace Record

variable {ν : Type}

/-- The record without fields. -/
def empty : Record ν := ⟨[], .nil⟩

/-- The value of a field. -/
def get? (record : Record ν) (name : String) : Option ν :=
  record.fields.lookup name

/-- Whether the record has a field. -/
def contains (record : Record ν) (name : String) : Bool :=
  (record.get? name).isSome

/-- The field names in increasing order. -/
def names (record : Record ν) : List String :=
  record.fields.map (·.1)

/-- Adds a field in order, or replaces the one of its name. -/
def insertField (name : String) (value : ν) : List (String × ν) → List (String × ν)
  | [] => [(name, value)]
  | (n, v) :: rest =>
    if name < n then (name, value) :: (n, v) :: rest
    else if name = n then (name, value) :: rest
    else (n, v) :: insertField name value rest

theorem mem_insertField {name : String} {value : ν} {field : String × ν}
    {fields : List (String × ν)} (h : field ∈ insertField name value fields) :
    field = (name, value) ∨ field ∈ fields := by
  induction fields with
  | nil => simpa [insertField] using h
  | cons head rest ih =>
    obtain ⟨n, v⟩ := head
    unfold insertField at h
    split at h
    · simpa using h
    · split at h
      · rcases List.mem_cons.1 h with h | h
        · exact Or.inl h
        · exact Or.inr (List.mem_cons_of_mem _ h)
      · rcases List.mem_cons.1 h with h | h
        · exact Or.inr (h ▸ List.mem_cons_self)
        · rcases ih h with h | h
          · exact Or.inl h
          · exact Or.inr (List.mem_cons_of_mem _ h)

/-- For distinct texts, not being smaller is being larger. -/
theorem lt_of_not_lt_of_ne {s t : String} (h : ¬ s < t) (hne : s ≠ t) : t < s := by
  rcases Classical.em (t < s) with hts | hts
  · exact hts
  · exact absurd (String.le_antisymm hts h) hne

theorem pairwise_insertField {name : String} {value : ν} {fields : List (String × ν)}
    (h : fields.Pairwise (fun a b => a.1 < b.1)) :
    (insertField name value fields).Pairwise (fun a b => a.1 < b.1) := by
  induction fields with
  | nil => simp [insertField]
  | cons head rest ih =>
    obtain ⟨n, v⟩ := head
    have ⟨first, tail⟩ := List.pairwise_cons.1 h
    unfold insertField
    split
    · next hlt =>
      refine List.pairwise_cons.2 ⟨fun x hx => ?_, h⟩
      rcases List.mem_cons.1 hx with rfl | hx
      · exact hlt
      · exact String.lt_trans hlt (first x hx)
    · split
      · next heq =>
        subst heq
        exact List.pairwise_cons.2 ⟨fun x hx => first x hx, tail⟩
      · next hlt hne =>
        refine List.pairwise_cons.2 ⟨fun x hx => ?_, ih tail⟩
        rcases mem_insertField hx with rfl | hx
        · exact lt_of_not_lt_of_ne hlt hne
        · exact first x hx

/-- The record with one field added or replaced. -/
def insert (record : Record ν) (name : String) (value : ν) : Record ν :=
  ⟨insertField name value record.fields, pairwise_insertField record.sorted⟩

/-- A record of fields in any order; of several fields with one name the last counts. -/
def ofList (fields : List (String × ν)) : Record ν :=
  fields.foldl (fun record (name, value) => record.insert name value) empty

theorem lookup_insertField_self (name : String) (value : ν) (fields : List (String × ν)) :
    (insertField name value fields).lookup name = some value := by
  induction fields with
  | nil => simp [insertField]
  | cons head rest ih =>
    obtain ⟨n, v⟩ := head
    unfold insertField
    split
    · simp
    · split
      · simp
      · next hne =>
        have : (name == n) = false := by simpa using hne
        simp [List.lookup_cons, this, ih]

theorem lookup_insertField_of_ne {name other : String} (value : ν) (h : other ≠ name)
    (fields : List (String × ν)) :
    (insertField name value fields).lookup other = fields.lookup other := by
  have hne : (other == name) = false := by simpa using h
  induction fields with
  | nil => simp [insertField, List.lookup_cons, hne]
  | cons head rest ih =>
    obtain ⟨n, v⟩ := head
    unfold insertField
    split
    · simp [List.lookup_cons, hne]
    · split
      · next heq => subst heq; simp [List.lookup_cons, hne]
      · simp [List.lookup_cons, ih]

@[simp] theorem get?_insert_self (record : Record ν) (name : String) (value : ν) :
    (record.insert name value).get? name = some value :=
  lookup_insertField_self name value record.fields

theorem get?_insert_of_ne (record : Record ν) {name other : String} (value : ν)
    (h : other ≠ name) : (record.insert name value).get? other = record.get? other :=
  lookup_insertField_of_ne value h record.fields

end Record

end Significance
