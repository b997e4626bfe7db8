import Significance.Loading
import Significance.Proofs.Records
import Significance.Proofs.Success

/-! # Columns under a header

Every row of a delimited file becomes a record whose fields are the header's. Of columns with equal
headers only the last is kept, so nothing is lost under a header without repetitions. -/

namespace Significance.Loading

open Success

/-- What a record keeps of a row: a field for each different header, with the value of the last cell
under it. -/
structure HoldsRow (header row : List String) (record : Record (Value Float)) : Prop where
  names_eq : record.names = Text.sortedDistinct header
  get?_eq : ∀ (j : ℕ) (name cell : String), header[j]? = some name →
    (∀ k, j < k → header[k]? ≠ some name) → row[j]? = some cell →
      record.get? name = some (Value.ofCell cell)
  fields_perm : header.Nodup → record.fields.Perm
    ((header.zip row).map fun (name, cell) => (name, Value.ofCell cell))

theorem holdsRow_recordOfRow {header row : List String} (hlength : row.length = header.length) :
    HoldsRow header row (recordOfRow header row) := by
  have hnames : ((header.zip row).map fun (name, cell) => (name, Value.ofCell cell)).map Prod.fst =
      header := by
    rw [List.map_map]
    exact List.map_fst_zip (Nat.le_of_eq hlength.symm)
  constructor
  · rw [recordOfRow, Record.names_ofList, hnames]
  · intro j name cell hname hlast hcell
    have hpair : (header.zip row)[j]? = some (name, cell) :=
      List.getElem?_zip_eq_some.mpr ⟨hname, hcell⟩
    obtain ⟨hj, hget⟩ := List.getElem?_eq_some_iff.mp hpair
    have hsplit : header.zip row =
        (header.zip row).take j ++ (name, cell) :: (header.zip row).drop (j + 1) := by
      rw [← hget, ← List.drop_eq_getElem_cons hj, List.take_append_drop]
    rw [recordOfRow, hsplit, List.map_append, List.map_cons]
    apply Record.get?_ofList_of_last
    rw [List.forall_mem_map]
    rintro ⟨other, text⟩ hmem rfl
    obtain ⟨i, hi⟩ := List.mem_iff_getElem?.mp hmem
    rw [List.getElem?_drop, List.getElem?_zip_eq_some] at hi
    exact hlast (j + 1 + i) (by omega) hi.1
  · intro hnodup
    apply Record.fields_ofList_perm
    rwa [hnames]

theorem mapM_raise {β γ : Type} (f : β → Except DelimitedFault γ) (xs : List β) :
    (xs.mapM fun x => raise (f x)) = raise (xs.mapM f) := by
  induction xs with
  | nil => rfl
  | cons x xs ih =>
      rw [List.mapM_cons, List.mapM_cons, ih]
      cases f x with
      | error fault => rfl
      | ok y =>
          cases xs.mapM f with
          | error fault => rfl
          | ok ys => rfl

theorem length_of_textsOf {count : ℕ} {row : List Delimited.Cell} {cells : List String}
    (h : Delimited.textsOf count row = .ok cells) : cells.length = count := by
  unfold Delimited.textsOf at h
  split at h
  · next hlength =>
    unfold Delimited.texts at h
    split at h
    · next found hfound =>
      cases h
      exact (length_of_mapM_eq_some hfound).trans hlength
    · cases h
  · cases h

/-- Under a header that is not blank every row is read. -/
theorem ofRows_eq (path : String) {first : List Delimited.Cell} {header : List String}
    (hheader : Delimited.texts first = .ok header) (hname : ∃ name ∈ header, name ≠ "")
    (rest : List (List Delimited.Cell)) :
    ofRows path (first :: rest) =
      (raise (rest.mapM (Delimited.textsOf header.length))).map fun cells =>
        ⟨cells.map (recordOfRow header)⟩ := by
  have hblank : header.all String.isEmpty = false := by
    obtain ⟨name, hmem, hne⟩ := hname
    rw [List.all_eq_false]
    exact ⟨name, hmem, by simpa using hne⟩
  simp only [ofRows, List.headD_cons, hheader, List.tail_cons, mapM_raise]
  rw [raise, ok_bind, hblank]
  cases rest.mapM (Delimited.textsOf header.length) with
  | error fault => rfl
  | ok cells => rfl

/-- A file with a header that is not blank gives one record for each row below it, in their order,
unless a row cannot be read, which is an error. All records have the fields of the header, with the
values of the last cells under them, and those are all cells of a row if no header is repeated. -/
theorem readDelimited_records (path : String) {first : List Delimited.Cell} {header : List String}
    (hheader : Delimited.texts first = .ok header) (hname : ∃ name ∈ header, name ≠ "")
    (rest : List (List Delimited.Cell)) :
    (∀ bytes : ByteArray, Delimited.rows bytes.toList = first :: rest →
      readDelimited path (.file bytes) = ofRows path (first :: rest)) ∧
    (∀ cells, rest.mapM (Delimited.textsOf header.length) = .ok cells →
      (∀ row ∈ cells, row.length = header.length) ∧
      ∃ data, ofRows path (first :: rest) = .ok data ∧
        List.Forall₂ (HoldsRow header) cells data.records) ∧
    ∀ fault, rest.mapM (Delimited.textsOf header.length) = .error fault →
      ofRows path (first :: rest) = .error (.delimited fault) := by
  rw [ofRows_eq path hheader hname]
  refine ⟨?_, ?_, ?_⟩
  · intro bytes hrows
    rw [readDelimited, hrows, ofRows_eq path hheader hname]
  · intro cells hcells
    have hlength : ∀ row ∈ cells, row.length = header.length := by
      intro row hrow
      obtain ⟨_, -, htexts⟩ := exists_of_mem_mapM hcells hrow
      exact length_of_textsOf htexts
    rw [hcells]
    refine ⟨hlength, _, rfl, ?_⟩
    rw [List.forall₂_map_right_iff, List.forall₂_same]
    exact fun row hrow => holdsRow_recordOfRow (hlength row hrow)
  · intro fault hfault
    rw [hfault]
    rfl

theorem readDelimited_records_apart :
    ∃ data, readDelimited "runs.csv" (.file "cost,group\n1,a\n2,b\n".toUTF8) = .ok data ∧
      List.Forall₂ (HoldsRow ["cost", "group"]) [["1", "a"], ["2", "b"]] data.records := by
  let bytes (text : String) : Delimited.Cell := text.toUTF8.toList
  have hheader : Delimited.texts [bytes "cost", bytes "group"] = .ok ["cost", "group"] :=
    toOption_eq_some.mp (by decide +kernel)
  have hrows : Delimited.rows "cost,group\n1,a\n2,b\n".toUTF8.toList =
      [bytes "cost", bytes "group"] :: [[bytes "1", bytes "a"], [bytes "2", bytes "b"]] := by
    decide +kernel
  have hcells : [[bytes "1", bytes "a"], [bytes "2", bytes "b"]].mapM (Delimited.textsOf 2) =
      .ok [["1", "a"], ["2", "b"]] :=
    toOption_eq_some.mp (by decide +kernel)
  obtain ⟨hfile, hall, -⟩ := readDelimited_records "runs.csv" hheader ⟨"cost", by simp, by decide⟩
    [[bytes "1", bytes "a"], [bytes "2", bytes "b"]]
  obtain ⟨-, data, hdata, hrecords⟩ := hall _ hcells
  exact ⟨data, (hfile _ hrows).trans hdata, hrecords⟩

/-! ## Two columns under one header -/

/-- The fields of the records of a file, with the labels of their values. -/
def labelsOf (bytes : ByteArray) : Option (List (List (String × Option String))) :=
  (readDelimited "runs.csv" (.file bytes)).toOption.map fun data =>
    data.records.map fun record => record.fields.map fun (name, value) => (name, value.label?)

/-- The cells of the first of two columns under one header are in no record, and that is no error. -/
theorem cells_lost :
    ((Delimited.rows "cost,cost\n1,2\n3,4\n".toUTF8.toList).mapM Delimited.texts).toOption =
      some [["cost", "cost"], ["1", "2"], ["3", "4"]] ∧
    labelsOf "cost,cost\n1,2\n3,4\n".toUTF8 =
      some [[("cost", some "2")], [("cost", some "4")]] := by
  decide +kernel

end Significance.Loading
