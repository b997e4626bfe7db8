import Mathlib.Order.Lattice
import Significance.Loading
import Significance.Proofs.Records
import Significance.Proofs.Success

/-! # Records among documents

A record is an object of field values. The reader that looks at every value of an object and the
one that looks at the last of every name read the same records, and refuse the same documents unless
a name that is repeated hides an object. -/

namespace Significance

open Success

namespace Json.Source

/-! ## Meaning and nesting -/

mutual

/-- How deep arrays and objects are nested. -/
def nesting : Source → ℕ
  | .null => 0
  | .bool _ => 0
  | .number _ => 0
  | .string _ => 0
  | .array items => nestingOfItems items + 1
  | .object fields => nestingOfFields fields + 1

/-- The deepest nesting of some documents. -/
def nestingOfItems : List Source → ℕ
  | [] => 0
  | item :: rest => max item.nesting (nestingOfItems rest)

/-- The deepest nesting in some fields. -/
def nestingOfFields : List (Option String × Source) → ℕ
  | [] => 0
  | (_, value) :: rest => max value.nesting (nestingOfFields rest)

end

/-- The values that a field can have: everything but objects, numbers in range, and whole texts. -/
inductive IsFieldValue : Source → Prop
  | null : IsFieldValue .null
  | bool (b : Bool) : IsFieldValue (.bool b)
  | number {literal : Literal} (h : literal.double?.isSome) : IsFieldValue (.number literal)
  | string (text : String) : IsFieldValue (.string (some text))
  | array {items : List Source} (h : ∀ item ∈ items, IsFieldValue item) :
      IsFieldValue (.array items)

/-- A document without objects in it. -/
inductive ObjectFree : Source → Prop
  | null : ObjectFree .null
  | bool (b : Bool) : ObjectFree (.bool b)
  | number (literal : Literal) : ObjectFree (.number literal)
  | string (text : Option String) : ObjectFree (.string text)
  | array {items : List Source} (h : ∀ item ∈ items, ObjectFree item) : ObjectFree (.array items)

theorem nesting_le_of_mem {item : Source} {items : List Source} (h : item ∈ items) :
    item.nesting ≤ nestingOfItems items := by
  induction items with
  | nil => simp at h
  | cons first items ih =>
      rw [nestingOfItems]
      rcases List.mem_cons.mp h with rfl | h
      · exact le_max_left _ _
      · exact (ih h).trans (le_max_right _ _)

theorem areSound_iff {depth : ℕ} {items : List Source} :
    areSound depth items ↔ ∀ item ∈ items, item.isSound depth := by
  induction items with
  | nil => simp [areSound]
  | cons item items ih => simp [areSound, ih]

theorem areSoundFields_iff {depth : ℕ} {fields : List (Option String × Source)} :
    areSoundFields depth fields ↔ ∀ field ∈ fields, field.1.isSome ∧ field.2.isSound depth := by
  induction fields with
  | nil => simp [areSoundFields]
  | cons field fields ih => simp [areSoundFields, ih, and_assoc]

theorem IsFieldValue.isSound {source : Source} (h : IsFieldValue source) {depth : ℕ}
    (hdepth : source.nesting ≤ depth) : source.isSound depth := by
  induction h generalizing depth with
  | null => rfl
  | bool b => rfl
  | number h => exact h
  | string text => rfl
  | @array items _ ih =>
      rw [nesting] at hdepth
      rw [Source.isSound, Bool.and_eq_true, decide_eq_true_eq, areSound_iff]
      refine ⟨by omega, fun item hmem => ih item hmem ?_⟩
      have hitem := nesting_le_of_mem hmem
      omega

/-- Only an object keeps a document that has a meaning from being a field value. -/
theorem ObjectFree.isFieldValue {source : Source} (h : ObjectFree source) {depth : ℕ}
    (hsound : source.isSound depth) : IsFieldValue source := by
  induction h generalizing depth with
  | null => exact .null
  | bool b => exact .bool b
  | number literal => exact .number hsound
  | string text =>
      cases text with
      | none => cases hsound
      | some text => exact .string text
  | @array items _ ih =>
      rw [Source.isSound, Bool.and_eq_true, areSound_iff] at hsound
      exact .array fun item hmem => ih item hmem (hsound.2 item hmem)

end Json.Source

open Json (Source)
open Json.Source (IsFieldValue)

/-! ## Field values -/

namespace Value

theorem isSome_itemsOfJson?_iff {items : List Source} :
    (itemsOfJson? items).isSome ↔ ∀ item ∈ items, (ofJson? item).isSome := by
  induction items with
  | nil => simp [itemsOfJson?]
  | cons item items ih =>
      rw [List.forall_mem_cons, ← ih, itemsOfJson?]
      cases ofJson? item with
      | none => simp
      | some value =>
          cases itemsOfJson? items with
          | none => simp
          | some values => simp

mutual

theorem isFieldValue_of_isSome {source : Source} (h : (ofJson? source).isSome) :
    IsFieldValue source := by
  cases source with
  | null => exact .null
  | bool b => exact .bool b
  | number literal =>
      rw [ofJson?, Option.isSome_map] at h
      exact .number h
  | string text =>
      cases text with
      | none => cases h
      | some text => exact .string text
  | array items =>
      rw [ofJson?, Option.isSome_map] at h
      exact .array (isFieldValue_of_mem h)
  | object fields => cases h

theorem isFieldValue_of_mem {items : List Source} (h : (itemsOfJson? items).isSome) :
    ∀ item ∈ items, IsFieldValue item := by
  cases items with
  | nil => exact fun _ hmem => absurd hmem List.not_mem_nil
  | cons item items =>
      have hall := List.forall_mem_cons.mp (isSome_itemsOfJson?_iff.mp h)
      rw [List.forall_mem_cons]
      exact ⟨isFieldValue_of_isSome hall.1,
        isFieldValue_of_mem (isSome_itemsOfJson?_iff.mpr hall.2)⟩

end

theorem isSome_ofJson?_iff {source : Source} : (ofJson? source).isSome ↔ IsFieldValue source := by
  refine ⟨isFieldValue_of_isSome, fun h => ?_⟩
  induction h with
  | null => rfl
  | bool b => rfl
  | number h =>
      rw [ofJson?, Option.isSome_map]
      exact h
  | string text => rfl
  | array h ih =>
      rw [ofJson?, Option.isSome_map]
      exact isSome_itemsOfJson?_iff.mpr ih

end Value

/-! ## Records -/

namespace Json.Source

/-- The object that has some fields. -/
def ofFields (fields : List (String × Source)) : Source :=
  .object (fields.map fun field => (some field.1, field.2))

/-- A record: an object of field values. -/
def IsRecord (source : Source) : Prop :=
  ∃ fields, source = ofFields fields ∧ ∀ field ∈ fields, IsFieldValue field.2

/-- There is no object in what a later field of the same name takes the place of. -/
def ReplacesNoObject (source : Source) : Prop :=
  ∀ before name value after, source = .object (before ++ (some name, value) :: after) →
    some name ∈ after.map Prod.fst → ObjectFree value

theorem namedFields?_cons (name : Option String) (value : Source)
    (fields : List (Option String × Source)) :
    namedFields? ((name, value) :: fields) = name.bind fun name =>
      (namedFields? fields).map ((name, value) :: ·) := by
  cases name with
  | none => simp [namedFields?]
  | some name =>
      rw [namedFields?, List.mapM_cons, ← namedFields?.eq_1]
      cases namedFields? fields with
      | none => rfl
      | some named => rfl

theorem namedFields?_named (fields : List (String × Source)) :
    namedFields? (fields.map fun field => (some field.1, field.2)) = some fields := by
  induction fields with
  | nil => rfl
  | cons field fields ih => rw [List.map_cons, namedFields?_cons, ih]; rfl

/-- An object with a name that is no text has no record. -/
theorem eq_ofFields_or (fields : List (Option String × Source)) :
    namedFields? fields = none ∨ ∃ named, Source.object fields = ofFields named := by
  induction fields with
  | nil => exact Or.inr ⟨[], rfl⟩
  | cons field fields ih =>
      obtain ⟨name, value⟩ := field
      cases name with
      | none => exact Or.inl (namedFields?_cons none value fields)
      | some name =>
          rcases ih with hnone | ⟨named, hnamed⟩
          · left
            rw [namedFields?_cons, hnone]
            rfl
          · rw [ofFields, object.injEq] at hnamed
            exact Or.inr ⟨(name, value) :: named, by rw [hnamed, ofFields, List.map_cons]⟩

end Json.Source

open Json.Source (ofFields IsRecord ReplacesNoObject)

namespace Record

variable {fields : List (String × Source)}

/-- The field value of a document that has one. -/
def readable (source : Source) : Value Float :=
  (Value.ofJson? source).getD .null

theorem ofJson?_ofFields (fields : List (String × Source)) :
    ofJson? (ofFields fields) =
      (fields.mapM fun field => (Value.ofJson? field.2).map (field.1, ·)).map ofList := by
  rw [ofFields, ofJson?, Source.namedFields?_named]
  simp only [Option.bind_eq_bind, Option.bind_some, Option.pure_def, Option.map_eq_bind,
    Function.comp_def]

/-- Of an object whose fields hold field values the record has the last field of every name. -/
theorem ofJson?_of_forall (h : ∀ field ∈ fields, IsFieldValue field.2) :
    ofJson? (ofFields fields) =
      some (ofList (fields.map fun field => (field.1, readable field.2))) := by
  have hfields : (fields.mapM fun field => (Value.ofJson? field.2).map (field.1, ·)) =
      some (fields.map fun field => (field.1, readable field.2)) := by
    apply mapM_eq_some_map
    intro field hmem
    obtain ⟨value, hvalue⟩ :=
      Option.isSome_iff_exists.mp (Value.isSome_ofJson?_iff.mpr (h field hmem))
    rw [readable, hvalue]
    rfl
  rw [ofJson?_ofFields, hfields]
  rfl

theorem ofJson?_eq_none {field : String × Source} (hmem : field ∈ fields)
    (h : ¬IsFieldValue field.2) : ofJson? (ofFields fields) = none := by
  have hfields : (fields.mapM fun field => (Value.ofJson? field.2).map (field.1, ·)) = none := by
    refine mapM_eq_none ⟨field, hmem, ?_⟩
    rw [Option.map_eq_none_iff, ← Option.not_isSome_iff_eq_none, Value.isSome_ofJson?_iff]
    exact h
  rw [ofJson?_ofFields, hfields]
  rfl

/-- Only records are read. -/
theorem isSome_ofJson?_iff {source : Source} : (ofJson? source).isSome ↔ IsRecord source := by
  constructor
  · intro h
    cases source with
    | object fields =>
        rcases Source.eq_ofFields_or fields with hnone | ⟨named, hnamed⟩
        · rw [ofJson?, hnone] at h
          cases h
        · refine ⟨named, hnamed, fun field hmem => ?_⟩
          by_contra hvalue
          rw [hnamed, ofJson?_eq_none hmem hvalue] at h
          cases h
    | _ => cases h
  · rintro ⟨fields, rfl, hvalues⟩
    rw [ofJson?_of_forall hvalues]
    rfl

end Record

namespace Loading

variable {fields : List (String × Source)}

theorem recordOfLast?_ofFields (fields : List (String × Source)) :
    recordOfLast? (ofFields fields) = Record.ofJson? (ofFields (Record.ofList fields).fields) := by
  rw [ofFields, recordOfLast?, Source.namedFields?_named]
  rfl

/-- A record is read alike by both readers. -/
theorem recordOfLast?_of_isRecord {source : Source} (h : IsRecord source) :
    recordOfLast? source = Record.ofJson? source := by
  obtain ⟨fields, rfl, hvalues⟩ := h
  have hlast : ∀ field ∈ (Record.ofList fields).fields, IsFieldValue field.2 :=
    fun field hmem => hvalues field (Record.mem_of_mem_fields_ofList hmem)
  rw [recordOfLast?_ofFields, Record.ofJson?_of_forall hlast, Record.ofJson?_of_forall hvalues,
    Record.ofList_map_fields]

/-- What is no record is refused by both readers, unless a repeated name hides an object. -/
theorem recordOfLast?_eq_none {source : Source} (h : ¬IsRecord source)
    (hreplaces : ReplacesNoObject source) {depth : ℕ} (hsound : source.isSound depth) :
    recordOfLast? source = none := by
  cases source with
  | object fields =>
      rcases Source.eq_ofFields_or fields with hnone | ⟨named, hnamed⟩
      · rw [recordOfLast?, hnone]
        rfl
      · rw [hnamed] at h hreplaces hsound ⊢
        obtain ⟨⟨name, value⟩, hmem, hvalue⟩ : ∃ field ∈ named, ¬IsFieldValue field.2 := by
          by_contra hall
          refine h ⟨named, rfl, fun field hmem => ?_⟩
          by_contra hvalue
          exact hall ⟨field, hmem, hvalue⟩
        rw [ofFields, Source.isSound, Bool.and_eq_true, Source.areSoundFields_iff,
          List.forall_mem_map] at hsound
        have hmeaning := (hsound.2 _ hmem).2
        obtain ⟨before, after, rfl⟩ := List.append_of_mem hmem
        have hlast : ∀ field ∈ after, field.1 ≠ name := by
          rintro field hfield rfl
          have hfree := hreplaces _ _ _ _ (by rw [ofFields, List.map_append, List.map_cons])
            (by rw [List.map_map]; exact List.mem_map.mpr ⟨field, hfield, rfl⟩)
          exact hvalue (hfree.isFieldValue hmeaning)
        have hkept : (name, value) ∈ (Record.ofList (before ++ (name, value) :: after)).fields :=
          Record.mem_fields_iff.mpr (Record.get?_ofList_of_last hlast)
        rw [recordOfLast?_ofFields, Record.ofJson?_eq_none hkept hvalue]
  | _ => rfl

theorem recordOfLast?_eq_ofJson? {source : Source} (h : ReplacesNoObject source) {depth : ℕ}
    (hsound : source.isSound depth) : recordOfLast? source = Record.ofJson? source := by
  by_cases hrecord : IsRecord source
  · exact recordOfLast?_of_isRecord hrecord
  · rw [recordOfLast?_eq_none hrecord h hsound, eq_comm, ← Option.not_isSome_iff_eq_none,
      Record.isSome_ofJson?_iff]
    exact hrecord

end Loading

/-! ## Documents that are no deeper than the limit -/

namespace Json.Source

theorem nesting_le_of_mem_fields {field : Option String × Source}
    {fields : List (Option String × Source)} (h : field ∈ fields) :
    field.2.nesting ≤ nestingOfFields fields := by
  induction fields with
  | nil => simp at h
  | cons first fields ih =>
      rw [nestingOfFields]
      rcases List.mem_cons.mp h with rfl | h
      · exact le_max_left _ _
      · exact (ih h).trans (le_max_right _ _)

theorem IsRecord.isSound {source : Source} (h : IsRecord source) {depth : ℕ}
    (hdepth : source.nesting ≤ depth) : source.isSound depth := by
  obtain ⟨fields, rfl, hvalues⟩ := h
  rw [ofFields, nesting] at hdepth
  rw [ofFields, Source.isSound, Bool.and_eq_true, decide_eq_true_eq, areSoundFields_iff,
    List.forall_mem_map]
  refine ⟨by omega, fun field hmem => ⟨rfl, (hvalues field hmem).isSound ?_⟩⟩
  have hfield := nesting_le_of_mem_fields (List.mem_map_of_mem (f := fun field : String × Source =>
    (some field.1, field.2)) hmem)
  dsimp only at hfield
  omega

end Json.Source

end Significance
