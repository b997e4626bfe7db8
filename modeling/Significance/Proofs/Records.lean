import Mathlib.Data.List.Dedup
import Mathlib.Data.List.Induction
import Mathlib.Data.List.Perm.Basic
import Mathlib.Data.List.Perm.Lattice
import Significance.Record

/-! # Records as maps

A record is determined by what its names look up. So of several insertions under one name the last
counts, and a record made of a list of fields has the last field of every name. -/

namespace Significance.Record

variable {ν : Type} {record other : Record ν} {name : String} {value : ν}

/-! ## Fields and look-ups -/

theorem pairwise_names (record : Record ν) : record.names.Pairwise (· < ·) :=
  List.pairwise_map.mpr record.sorted

theorem nodup_names (record : Record ν) : record.names.Nodup :=
  record.pairwise_names.nodup

/-- Where no name is repeated, a look-up finds just the fields. -/
theorem lookup_eq_some_iff_mem {fields : List (String × ν)} (h : (fields.map Prod.fst).Nodup) :
    fields.lookup name = some value ↔ (name, value) ∈ fields := by
  rw [List.lookup_eq_some_iff]
  constructor
  · rintro ⟨before, after, rfl, -⟩
    simp
  · intro hmem
    obtain ⟨before, after, rfl⟩ := List.append_of_mem hmem
    refine ⟨before, after, rfl, ?_⟩
    intro field hfield
    rw [List.map_append, List.map_cons, List.nodup_append] at h
    have hne : field.1 ≠ name :=
      h.2.2 _ (List.mem_map_of_mem hfield) _ List.mem_cons_self
    simpa using hne.symm

theorem mem_fields_iff : (name, value) ∈ record.fields ↔ record.get? name = some value :=
  (lookup_eq_some_iff_mem record.nodup_names).symm

theorem mem_names_iff : name ∈ record.names ↔ (record.get? name).isSome := by
  rw [names, List.mem_map, Option.isSome_iff_exists]
  constructor
  · rintro ⟨⟨name, value⟩, hmem, rfl⟩
    exact ⟨value, mem_fields_iff.mp hmem⟩
  · rintro ⟨value, hvalue⟩
    exact ⟨(name, value), mem_fields_iff.mpr hvalue, rfl⟩

/-- Records are equal if every name looks up the same in both. -/
theorem ext_get? (h : ∀ name, record.get? name = other.get? name) : record = other := by
  have hnodup : ∀ record : Record ν, record.fields.Nodup :=
    fun record => record.nodup_names.of_map Prod.fst
  have hperm : record.fields.Perm other.fields := by
    rw [List.perm_ext_iff_of_nodup (hnodup record) (hnodup other)]
    rintro ⟨name, value⟩
    rw [mem_fields_iff, mem_fields_iff, h]
  have hfields : record.fields = other.fields :=
    hperm.eq_of_pairwise (fun _ _ _ _ hlt hgt => (String.lt_asymm hlt hgt).elim) record.sorted
      other.sorted
  obtain ⟨fields, sorted⟩ := record
  subst hfields
  rfl

/-! ## Insertions -/

/-- Under one name the last insertion counts. -/
@[simp] theorem insert_insert (record : Record ν) (name : String) (value last : ν) :
    (record.insert name value).insert name last = record.insert name last := by
  apply ext_get?
  intro asked
  by_cases h : asked = name
  · subst h
    rw [get?_insert_self, get?_insert_self]
  · rw [get?_insert_of_ne _ _ h, get?_insert_of_ne _ _ h, get?_insert_of_ne _ _ h]

/-! ## Records of lists -/

variable {fields : List (String × ν)}

theorem ofList_concat (fields : List (String × ν)) (name : String) (value : ν) :
    ofList (fields ++ [(name, value)]) = (ofList fields).insert name value :=
  List.foldl_append

/-- A name looks up its last field. -/
theorem get?_ofList (fields : List (String × ν)) (name : String) :
    (ofList fields).get? name = fields.reverse.lookup name := by
  induction fields using List.reverseRecOn with
  | nil => rfl
  | append_singleton fields field ih =>
      obtain ⟨own, value⟩ := field
      rw [ofList_concat, List.reverse_concat, List.lookup_cons]
      by_cases h : name = own
      · subst h
        rw [get?_insert_self, beq_self_eq_true]
      · have hne : (name == own) = false := beq_eq_false_iff_ne.mpr h
        rw [get?_insert_of_ne _ _ h, ih, hne]

theorem get?_ofList_of_last {before after : List (String × ν)}
    (h : ∀ field ∈ after, field.1 ≠ name) :
    (ofList (before ++ (name, value) :: after)).get? name = some value := by
  rw [get?_ofList, List.lookup_eq_some_iff]
  refine ⟨after.reverse, before.reverse, by simp, ?_⟩
  intro field hfield
  simpa using (h field (List.mem_reverse.mp hfield)).symm

theorem isSome_get?_ofList :
    ((ofList fields).get? name).isSome ↔ name ∈ fields.map Prod.fst := by
  rw [get?_ofList, List.lookup_isSome_iff, List.mem_map]
  constructor
  · rintro ⟨field, hfield, heq⟩
    exact ⟨field, List.mem_reverse.mp hfield, (beq_iff_eq.mp heq).symm⟩
  · rintro ⟨field, hfield, rfl⟩
    exact ⟨field, List.mem_reverse.mpr hfield, beq_self_eq_true field.1⟩

/-- The names of a record are those of the fields that it was made of, each once. -/
theorem names_ofList (fields : List (String × ν)) :
    (ofList fields).names = Text.sortedDistinct (fields.map Prod.fst) := by
  have hsorted := Text.pairwise_sortedDistinct (fields.map Prod.fst)
  have hperm : (ofList fields).names.Perm (Text.sortedDistinct (fields.map Prod.fst)) := by
    rw [List.perm_ext_iff_of_nodup (nodup_names _) hsorted.nodup]
    intro name
    rw [mem_names_iff, isSome_get?_ofList, Text.mem_sortedDistinct]
  exact hperm.eq_of_pairwise (fun _ _ _ _ hlt hgt => (String.lt_asymm hlt hgt).elim)
    (pairwise_names _) hsorted

/-- Fields of distinct names are all kept. -/
theorem fields_ofList_perm (h : (fields.map Prod.fst).Nodup) :
    (ofList fields).fields.Perm fields := by
  have hreverse : (fields.reverse.map Prod.fst).Nodup := by
    rwa [List.map_reverse, List.nodup_reverse]
  rw [List.perm_ext_iff_of_nodup ((nodup_names _).of_map Prod.fst) (h.of_map Prod.fst)]
  rintro ⟨name, value⟩
  rw [mem_fields_iff, get?_ofList, lookup_eq_some_iff_mem hreverse, List.mem_reverse]

theorem mem_of_mem_fields_ofList {field : String × ν} (h : field ∈ (ofList fields).fields) :
    field ∈ fields := by
  obtain ⟨name, value⟩ := field
  rw [mem_fields_iff, get?_ofList, List.lookup_eq_some_iff] at h
  obtain ⟨before, after, hfields, -⟩ := h
  rw [← List.mem_reverse, hfields]
  simp

/-- A record is made of its own fields. -/
theorem ofList_fields (record : Record ν) : ofList record.fields = record := by
  have hreverse : (record.fields.reverse.map Prod.fst).Nodup := by
    rw [List.map_reverse, List.nodup_reverse]
    exact record.nodup_names
  apply ext_get?
  intro name
  rw [get?_ofList]
  ext value
  rw [lookup_eq_some_iff_mem hreverse, List.mem_reverse, mem_fields_iff]

theorem get?_ofList_map {μ : Type} (g : ν → μ) (fields : List (String × ν)) (name : String) :
    (ofList (fields.map fun field => (field.1, g field.2))).get? name =
      ((ofList fields).get? name).map g := by
  induction fields using List.reverseRecOn with
  | nil => rfl
  | append_singleton fields field ih =>
      obtain ⟨own, value⟩ := field
      rw [List.map_append, List.map_singleton, ofList_concat, ofList_concat]
      by_cases h : name = own
      · subst h
        rw [get?_insert_self, get?_insert_self]
        rfl
      · rw [get?_insert_of_ne _ _ h, get?_insert_of_ne _ _ h, ih]

/-- What is replaced does not count, whether it is translated before or after. -/
theorem ofList_map_fields {μ : Type} (g : ν → μ) (fields : List (String × ν)) :
    ofList ((ofList fields).fields.map fun field => (field.1, g field.2)) =
      ofList (fields.map fun field => (field.1, g field.2)) := by
  apply ext_get?
  intro name
  rw [get?_ofList_map, ofList_fields, get?_ofList_map]

end Significance.Record
