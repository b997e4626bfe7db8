import Mathlib.Data.List.Basic
import Significance.Proofs.FileLines

/-! # Rows written and read back

What is written in rows of cells is read as the same rows, whatever the cells hold: a cell with a
comma, a quote or a line break in it stands between quotes, and a quote in it is doubled. -/

namespace Significance.Delimited

open Text (utf8 utf8_append)

/-! ## Bytes of a cell -/

/-- A byte that stands for itself outside of quotes. -/
def Ordinary (b : UInt8) : Prop :=
  b ≠ comma ∧ b ≠ quote ∧ isBreak b = false

/-- A byte as it is written between quotes. -/
def doubled (b : UInt8) : List UInt8 :=
  if b = quote then [b, b] else [b]

theorem ordinary_of_mem_utf8 {text : String} (h : ¬text.toList.any needsQuotes) {b : UInt8}
    (hb : b ∈ utf8 text) : Ordinary b := by
  have hfree : ∀ code : UInt8, code.toNat < 128 → needsQuotes (Char.ofNat code.toNat) →
      b ≠ code := by
    rintro code hcode hneeds rfl
    exact h (List.any_eq_true.mpr ⟨_, Text.mem_toList_of_mem_utf8 hb hcode, hneeds⟩)
  refine ⟨hfree _ (by decide) (by decide), hfree _ (by decide) (by decide), ?_⟩
  rw [isBreak, Bool.or_eq_false_iff, decide_eq_false_iff_not, decide_eq_false_iff_not]
  exact ⟨hfree _ (by decide) (by decide), hfree _ (by decide) (by decide)⟩

theorem flatMap_doubled {bytes : List UInt8} (h : quote ∉ bytes) :
    bytes.flatMap doubled = bytes := by
  have hsingle : ∀ b ∈ bytes, doubled b = [b] := by
    intro b hb
    rw [doubled, if_neg (ne_of_mem_of_not_mem hb h)]
  rw [List.flatMap_congr hsingle, List.flatMap_singleton']

/-- Doubling the quotes of a text doubles those among its bytes. -/
theorem utf8_quoted (text : String) :
    utf8 (quoted text) = quote :: (utf8 text).flatMap doubled ++ [quote] := by
  have hquote : String.utf8EncodeChar '"' = [quote] := by decide
  have hchar : ∀ c ∈ text.toList,
      (if c = '"' then [c, c] else [c]).flatMap String.utf8EncodeChar =
        (String.utf8EncodeChar c).flatMap doubled := by
    intro c _
    split
    · next hc =>
      subst hc
      rw [List.flatMap_cons, List.flatMap_singleton, hquote]
      rfl
    · next hc =>
      rw [List.flatMap_singleton, flatMap_doubled]
      intro hmem
      exact hc (Char.toNat_inj.mp (Text.utf8EncodeChar_of_lt hmem (by decide)).2)
  rw [Text.utf8_eq, Text.utf8_eq, quoted, String.toList_ofList, List.cons_append,
    List.flatMap_cons, List.flatMap_append, List.flatMap_assoc, List.flatMap_assoc,
    List.flatMap_congr hchar, List.flatMap_singleton, hquote]
  rfl

/-! ## Reading a cell -/

variable {cells : List Cell} {cell : Cell} {bytes rest : List UInt8} {b : UInt8}

theorem rowsFrom_ordinary (h : ∀ b ∈ bytes, Ordinary b) :
    rowsFrom .cell cells cell (bytes ++ rest) = rowsFrom .cell cells (bytes.reverse ++ cell) rest := by
  induction bytes generalizing cell with
  | nil => rfl
  | cons b bytes ih =>
      obtain ⟨⟨hcomma, -, hbreak⟩, hbytes⟩ := List.forall_mem_cons.mp h
      rw [List.cons_append, rowsFrom, if_neg hcomma, if_neg (by simp [hbreak]), ih hbytes,
        List.reverse_cons, List.append_assoc, List.singleton_append]

/-- Between quotes everything is part of the cell, up to the quote that is not doubled. -/
theorem rowsFrom_doubled :
    rowsFrom .quoted cells cell (bytes.flatMap doubled ++ quote :: rest) =
      rowsFrom .afterQuote cells (bytes.reverse ++ cell) rest := by
  induction bytes generalizing cell with
  | nil => rw [List.flatMap_nil, List.nil_append, rowsFrom, if_pos rfl]; rfl
  | cons b bytes ih =>
      rw [List.flatMap_cons, List.append_assoc, List.reverse_cons, List.append_assoc,
        List.singleton_append, ← ih]
      by_cases hb : b = quote
      · rw [doubled, if_pos hb, List.cons_append, List.singleton_append, rowsFrom, if_pos hb,
          rowsFrom, if_pos hb]
      · rw [doubled, if_neg hb, List.singleton_append, rowsFrom, if_neg hb]

/-- What follows a cell: another one, or the next row. -/
def afterCell (cells : List Cell) (b : UInt8) (rest : List UInt8) : List (List Cell) :=
  if b = comma then rowsFrom .cellStart cells [] rest
  else cells.reverse :: rowsFrom .rowStart [] [] rest

/-- A written cell is read as its text, where a comma or a line break follows. -/
theorem rowsFrom_writtenCell (text : String) (hb : b = comma ∨ isBreak b) :
    rowsFrom .cellStart cells [] (utf8 (writtenCell text) ++ b :: rest) =
      afterCell (utf8 text :: cells) b rest := by
  have hquote : b ≠ quote := by
    rintro rfl
    revert hb
    decide
  have hend : b ≠ comma → isBreak b := hb.resolve_left
  unfold writtenCell
  split
  · rw [utf8_quoted, List.cons_append, List.cons_append, rowsFrom, if_pos rfl, List.append_assoc,
      List.singleton_append, rowsFrom_doubled, rowsFrom, if_neg hquote, List.append_nil,
      List.reverse_reverse, afterCell]
    split
    · rfl
    · next hcomma =>
      rw [if_pos (hend hcomma), finish, List.reverse_reverse]
  · next hplain =>
    have hordinary : ∀ b ∈ utf8 text, Ordinary b := fun b => ordinary_of_mem_utf8 hplain
    cases hbytes : utf8 text with
    | nil =>
        rw [List.nil_append, rowsFrom, if_neg hquote, afterCell]
        split
        · rfl
        · next hcomma => rw [if_pos (hend hcomma)]; rfl
    | cons first bytes =>
        rw [hbytes] at hordinary
        obtain ⟨⟨hcomma, hfirst, hbreak⟩, hmore⟩ := List.forall_mem_cons.mp hordinary
        rw [List.cons_append, rowsFrom, if_neg hfirst, if_neg hcomma, if_neg (by simp [hbreak]),
          rowsFrom_ordinary hmore, rowsFrom, afterCell]
        have hcell : (bytes.reverse ++ [first]).reverse = first :: bytes := by simp
        split
        · rw [hcell]
        · next hcomma =>
          rw [if_pos (hend hcomma), finish, hcell]

/-! ## Reading a row -/

/-- The bytes of a row, as they are written. -/
def rowBytes (texts : List String) : List UInt8 :=
  utf8 (",".intercalate (texts.map writtenCell) ++ "\n")

theorem rowBytes_singleton (text : String) :
    rowBytes [text] = utf8 (writtenCell text) ++ [0x0A] := by
  have hfeed : utf8 "\n" = [0x0A] := by
    rw [Text.utf8_eq]
    decide
  rw [rowBytes, List.map_singleton, String.intercalate_singleton, utf8_append, hfeed]

theorem rowBytes_cons_cons (text next : String) (texts : List String) :
    rowBytes (text :: next :: texts) =
      utf8 (writtenCell text) ++ comma :: rowBytes (next :: texts) := by
  have hcomma : utf8 "," = [comma] := by
    rw [Text.utf8_eq]
    decide
  rw [rowBytes, rowBytes, List.map_cons, List.map_cons, String.intercalate_cons_cons,
    String.append_assoc, String.append_assoc, utf8_append, utf8_append, hcomma,
    List.singleton_append]

theorem rowsFrom_rowBytes (text : String) (texts : List String) :
    rowsFrom .cellStart cells [] (rowBytes (text :: texts) ++ rest) =
      (cells.reverse ++ (text :: texts).map utf8) :: rowsFrom .rowStart [] [] rest := by
  induction texts generalizing text cells with
  | nil =>
      rw [rowBytes_singleton, List.append_assoc, List.singleton_append,
        rowsFrom_writtenCell text (Or.inr (by decide)), afterCell, if_neg (by decide),
        List.reverse_cons, List.map_singleton]
  | cons next texts ih =>
      rw [rowBytes_cons_cons, List.append_assoc, List.cons_append,
        rowsFrom_writtenCell text (Or.inl rfl), afterCell, if_pos rfl, ih, List.reverse_cons,
        List.append_assoc]
      rfl

theorem isBreak_of_writtenCell {text : String} (h : utf8 (writtenCell text) = b :: rest) :
    isBreak b = false := by
  unfold writtenCell at h
  split at h
  · rw [utf8_quoted, List.cons_append] at h
    obtain ⟨rfl, -⟩ := List.cons.inj h
    rfl
  · next hplain =>
    exact (ordinary_of_mem_utf8 hplain (h ▸ List.mem_cons_self)).2.2

theorem writtenCell_ne_empty {text : String} (h : text ≠ "") : writtenCell text ≠ "" := by
  unfold writtenCell
  split
  · simp [quoted]
  · exact h

/-- No row starts like a line break, but for that of a single empty cell. -/
theorem exists_first_byte {text : String} {texts : List String} (h : text :: texts ≠ [""]) :
    ∃ b bytes, rowBytes (text :: texts) = b :: bytes ∧ isBreak b = false := by
  cases hcell : utf8 (writtenCell text) with
  | cons b bytes =>
      have hbreak := isBreak_of_writtenCell hcell
      cases texts with
      | nil => exact ⟨b, _, by rw [rowBytes_singleton, hcell, List.cons_append], hbreak⟩
      | cons next texts =>
          exact ⟨b, _, by rw [rowBytes_cons_cons, hcell, List.cons_append], hbreak⟩
  | nil =>
      have htext : text = "" := by
        by_contra hne
        exact Text.utf8_ne_nil (writtenCell_ne_empty hne) hcell
      cases texts with
      | nil => exact absurd (congrArg (fun text => [text]) htext) h
      | cons next texts =>
          exact ⟨comma, _, by rw [rowBytes_cons_cons, hcell, List.nil_append], by decide⟩

theorem rowsFrom_rowStart (hb : isBreak b = false) :
    rowsFrom .rowStart cells cell (b :: rest) = rowsFrom .cellStart cells cell (b :: rest) := by
  have hno : ¬isBreak b = true := by simp [hb]
  rw [rowsFrom, rowsFrom, if_neg hno]
  split_ifs <;> rfl

theorem rowsFrom_writtenRow {row : List String} (hne : row ≠ []) :
    rowsFrom .rowStart [] [] (utf8 (writtenRow row) ++ rest) =
      row.map utf8 :: rowsFrom .rowStart [] [] rest := by
  obtain ⟨text, texts, rfl⟩ := List.exists_cons_of_ne_nil hne
  unfold writtenRow
  split
  · next h =>
    obtain ⟨rfl, rfl⟩ := List.cons.inj h
    have hbytes : utf8 "\"\"\n" = [quote, quote, 0x0A] := by
      rw [Text.utf8_eq]
      decide
    rw [hbytes, List.map_singleton, Text.utf8_empty]
    rfl
  · next h =>
    obtain ⟨b, bytes, hbytes, hbreak⟩ := exists_first_byte h
    change rowsFrom .rowStart [] [] (rowBytes (text :: texts) ++ rest) = _
    rw [hbytes, List.cons_append, rowsFrom_rowStart hbreak, ← List.cons_append, ← hbytes,
      rowsFrom_rowBytes, List.reverse_nil, List.nil_append]

/-! ## Reading all rows -/

theorem withoutMark_of_head? (h : bytes.head? ≠ some 0xEF) : withoutMark bytes = bytes := by
  unfold withoutMark
  split
  · exact absurd rfl h
  · rfl

theorem written_cons (row : List String) (rows : List (List String)) :
    written (row :: rows) = writtenRow row ++ written rows := by
  rw [written, List.map_cons, String.join_cons, written]

theorem rowsFrom_written {rows : List (List String)} (hrows : ∀ row ∈ rows, row ≠ []) :
    rowsFrom .rowStart [] [] (utf8 (written rows)) = rows.map (List.map utf8) := by
  induction rows with
  | nil =>
      rw [written, List.map_nil, String.join_nil, Text.utf8_empty]
      rfl
  | cons row rows ih =>
      obtain ⟨hne, hrows⟩ := List.forall_mem_cons.mp hrows
      rw [written_cons, utf8_append, rowsFrom_writtenRow hne, ih hrows, List.map_cons]

/-- Rows with some cells are read as they were written, if the first of them does not start with the
mark of an encoding. -/
theorem rows_written {row : List String} {rows : List (List String)}
    (hrows : ∀ other ∈ row :: rows, other ≠ []) (hfirst : (utf8 (writtenRow row)).head? = some b)
    (hmark : b ≠ 0xEF) :
    Delimited.rows (utf8 (written (row :: rows))) = (row :: rows).map (List.map utf8) := by
  have hhead : (utf8 (written (row :: rows))).head? = some b := by
    rw [written_cons, utf8_append, List.head?_append, hfirst, Option.some_or]
  rw [Delimited.rows, withoutMark_of_head? (by simpa [hhead] using hmark), rowsFrom_written hrows]

end Significance.Delimited
