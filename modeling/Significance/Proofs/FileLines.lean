import Mathlib.Data.List.Induction
import Mathlib.Data.List.TakeWhile
import Significance.Loading

/-! # Lines of a text file

The bytes below 128 in the encoding of a text are its characters below 128. So the lines that are
cut out of the bytes of a file are the lines of its text. -/

namespace Significance

namespace Text

/-! ## Bytes of a text -/

theorem toList_loop (bytes : ByteArray) (i : ℕ) (read : List UInt8) :
    ByteArray.toList.loop bytes i read = read.reverse ++ bytes.data.toList.drop i := by
  rw [ByteArray.toList.loop]
  split
  · next hlt =>
    have hget : bytes.data.toList.drop i = bytes.get! i :: bytes.data.toList.drop (i + 1) := by
      have hi : i < bytes.data.toList.length := hlt
      rw [List.drop_eq_getElem_cons hi, Array.getElem_toList, ByteArray.get!, getElem!_pos]
    rw [toList_loop bytes (i + 1), hget, List.reverse_cons, List.append_assoc,
      List.singleton_append]
  · next hle =>
    rw [List.drop_of_length_le (Nat.le_of_not_lt hle), List.append_nil]
termination_by bytes.size - i

theorem toList_bytes (bytes : ByteArray) : bytes.toList = bytes.data.toList :=
  toList_loop bytes 0 []

/-- The bytes of a text in a file. -/
def utf8 (text : String) : List UInt8 :=
  text.toUTF8.toList

theorem utf8_eq (text : String) : utf8 text = text.toList.flatMap String.utf8EncodeChar := by
  rw [utf8, toList_bytes, String.toUTF8_eq_toByteArray, ← String.utf8Encode_toList,
    List.utf8Encode, List.toList_data_toByteArray]

theorem utf8_append (s t : String) : utf8 (s ++ t) = utf8 s ++ utf8 t := by
  rw [utf8_eq, utf8_eq, utf8_eq, String.toList_append, List.flatMap_append]

theorem utf8_empty : utf8 "" = [] := by
  rw [utf8_eq]
  rfl

theorem utf8_ne_nil {text : String} (h : text ≠ "") : utf8 text ≠ [] := by
  obtain ⟨c, chars, hchars⟩ := List.exists_cons_of_ne_nil (mt String.toList_eq_nil_iff.mp h)
  rw [utf8_eq, hchars, List.flatMap_cons]
  exact List.append_ne_nil_of_left_ne_nil String.utf8EncodeChar_ne_nil _

theorem fromUTF8?_toUTF8 (text : String) : String.fromUTF8? text.toUTF8 = some text :=
  dif_pos text.isValidUTF8

theorem fromUTF8?_utf8 (text : String) : String.fromUTF8? ⟨(utf8 text).toArray⟩ = some text := by
  have hbytes : (⟨(utf8 text).toArray⟩ : ByteArray) = text.toUTF8 := by
    rw [utf8, toList_bytes, Array.toArray_toList]
  rw [hbytes, fromUTF8?_toUTF8]

/-- A byte below 128 is a whole character. -/
theorem utf8EncodeChar_of_lt {c : Char} {b : UInt8} (hmem : b ∈ String.utf8EncodeChar c)
    (hb : b.toNat < 128) : String.utf8EncodeChar c = [b] ∧ c.toNat = b.toNat := by
  have hc : c.val.toNat = c.toNat := rfl
  unfold String.utf8EncodeChar at hmem ⊢
  rw [hc] at hmem ⊢
  dsimp only at hmem ⊢
  split at hmem
  · next hle =>
    rw [List.mem_singleton] at hmem
    subst hmem
    rw [if_pos hle, UInt8.toNat_ofNat']
    exact ⟨rfl, by omega⟩
  · exfalso
    split at hmem
    · simp only [List.mem_cons, List.not_mem_nil, or_false] at hmem
      rcases hmem with rfl | rfl
      all_goals
        rw [UInt8.toNat_ofNat'] at hb
        omega
    · split at hmem
      · simp only [List.mem_cons, List.not_mem_nil, or_false] at hmem
        rcases hmem with rfl | rfl | rfl
        all_goals
          rw [UInt8.toNat_ofNat'] at hb
          omega
      · simp only [List.mem_cons, List.not_mem_nil, or_false] at hmem
        rcases hmem with rfl | rfl | rfl | rfl
        all_goals
          rw [UInt8.toNat_ofNat'] at hb
          omega

theorem mem_toList_of_mem_utf8 {text : String} {b : UInt8} (hmem : b ∈ utf8 text)
    (hb : b.toNat < 128) : Char.ofNat b.toNat ∈ text.toList := by
  rw [utf8_eq] at hmem
  obtain ⟨c, hc, hmem⟩ := List.mem_flatMap.mp hmem
  rwa [← (utf8EncodeChar_of_lt hmem hb).2, Char.ofNat_toNat]

/-! ## Blank texts -/

theorem trim_eq_empty_iff {text : String} : trim text = "" ↔ ∀ c ∈ text.toList, isBlank c := by
  have hchars : trim text = "" ↔ trimChars text.toList = [] := by
    rw [trim, ← String.toList_inj, String.toList_ofList, String.toList_empty]
  rw [hchars, trimChars, List.reverse_eq_nil_iff, List.dropWhile_eq_nil_iff]
  constructor
  · intro h c hc
    by_cases hnil : text.toList.dropWhile isBlank = []
    · exact List.dropWhile_eq_nil_iff.mp hnil c hc
    · -- What is left starts with a character that is not blank.
      have hfirst := List.head_dropWhile_not isBlank hnil
      have hblank := h _ (List.mem_reverse.mpr (List.head_mem hnil))
      rw [hfirst] at hblank
      cases hblank
  · intro h c hc
    exact h c ((List.dropWhile_suffix isBlank).subset (List.mem_reverse.mp hc))

end Text

namespace Loading

open Text (utf8)

/-! ## Lines -/

/-- A line without the carriage return at its end. -/
def dropReturn (line : String) : String :=
  if line.toList.getLast? = some '\r' then String.ofList line.toList.dropLast else line

/-- Bytes without the carriage return that stands first. -/
def dropFirstReturn : List UInt8 → List UInt8
  | 0x0D :: line => line
  | line => line

theorem linesFrom_cons (line : List UInt8) (b : UInt8) (rest : List UInt8) :
    linesFrom line (b :: rest) =
      if b = 0x0A then (dropFirstReturn line).reverse :: linesFrom [] rest
      else linesFrom (b :: line) rest := rfl

theorem linesFrom_append {line bytes : List UInt8} (h : 0x0A ∉ bytes) (rest : List UInt8) :
    linesFrom line (bytes ++ 0x0A :: rest) =
      (dropFirstReturn (bytes.reverse ++ line)).reverse :: linesFrom [] rest := by
  induction bytes generalizing line with
  | nil => rfl
  | cons b bytes ih =>
      rw [List.mem_cons, not_or] at h
      rw [List.cons_append, linesFrom_cons, if_neg (Ne.symm h.1), ih h.2, List.reverse_cons,
        List.append_assoc, List.singleton_append]

theorem linesFrom_last {line bytes : List UInt8} (h : 0x0A ∉ bytes) :
    linesFrom line bytes =
      if (bytes.reverse ++ line).isEmpty then [] else [(bytes.reverse ++ line).reverse] := by
  induction bytes generalizing line with
  | nil => rfl
  | cons b bytes ih =>
      rw [List.mem_cons, not_or] at h
      rw [linesFrom_cons, if_neg (Ne.symm h.1), ih h.2, List.reverse_cons, List.append_assoc,
        List.singleton_append]

theorem lineFeed_notMem_utf8 {line : String} (h : '\n' ∉ line.toList) : 0x0A ∉ utf8 line :=
  fun hmem => h (Text.mem_toList_of_mem_utf8 hmem (by decide))

theorem dropFirstReturn_of_ne {b : UInt8} (h : b ≠ 0x0D) (line : List UInt8) :
    dropFirstReturn (b :: line) = b :: line := by
  unfold dropFirstReturn
  split
  · next heq => exact absurd (List.cons.inj heq).1 h
  · rfl

/-- The bytes of a line lose a carriage return exactly if its text does. -/
theorem dropFirstReturn_utf8 (line : String) :
    (dropFirstReturn (utf8 line).reverse).reverse = utf8 (dropReturn line) := by
  rw [Text.utf8_eq, Text.utf8_eq, dropReturn]
  cases hchars : line.toList using List.reverseRecOn with
  | nil => simp [hchars, dropFirstReturn]
  | append_singleton chars c =>
      rw [List.getLast?_concat, List.flatMap_append, List.flatMap_singleton, List.reverse_append]
      by_cases hc : c = '\r'
      · subst hc
        have hbytes : String.utf8EncodeChar '\r' = [0x0D] := by decide
        simp [hbytes, dropFirstReturn]
      · obtain ⟨before, b, hbytes⟩ := (List.eq_nil_or_concat (String.utf8EncodeChar c)).resolve_left
          String.utf8EncodeChar_ne_nil
        have hb : b ≠ 0x0D := by
          rintro rfl
          have hmem : 0x0D ∈ String.utf8EncodeChar c := by simp [hbytes]
          have hcode := (Text.utf8EncodeChar_of_lt hmem (by decide)).2
          exact hc (Char.toNat_inj.mp hcode)
        rw [if_neg (by simpa using hc), hchars, List.flatMap_append, List.flatMap_singleton, hbytes,
          List.concat_eq_append, List.reverse_append, List.reverse_singleton, List.singleton_append,
          List.cons_append, dropFirstReturn_of_ne hb]
        simp

/-- The first line of a text. -/
theorem lines_append {line : String} (h : '\n' ∉ line.toList) (rest : String) :
    lines (utf8 (line ++ "\n" ++ rest)) = utf8 (dropReturn line) :: lines (utf8 rest) := by
  have hfeed : utf8 "\n" = [0x0A] := by rw [Text.utf8_eq]; decide
  rw [Text.utf8_append, Text.utf8_append, hfeed, List.append_assoc, List.singleton_append, lines,
    linesFrom_append (lineFeed_notMem_utf8 h), List.append_nil, dropFirstReturn_utf8]
  rfl

/-- A text without a line feed is its only line. -/
theorem lines_of_lineFeed_notMem {line : String} (h : '\n' ∉ line.toList) (hne : line ≠ "") :
    lines (utf8 line) = [utf8 line] := by
  rw [lines, linesFrom_last (lineFeed_notMem_utf8 h), List.append_nil, List.reverse_reverse,
    if_neg (by simpa using Text.utf8_ne_nil hne)]

theorem lines_empty : lines (utf8 "") = [] := by
  rw [Text.utf8_empty]
  rfl

theorem dropReturn_of_notMem {line : String} (h : '\r' ∉ line.toList) : dropReturn line = line :=
  if_neg fun hlast => h (List.mem_of_getLast? hlast)

theorem dropReturn_append (line : String) : dropReturn (line ++ "\r") = line := by
  unfold dropReturn
  simp

theorem trim_dropReturn {line : String} (h : Text.trim line = "") :
    Text.trim (dropReturn line) = "" := by
  rw [Text.trim_eq_empty_iff] at h ⊢
  intro c hc
  unfold dropReturn at hc
  split at hc
  · rw [String.toList_ofList] at hc
    exact h c ((List.dropLast_sublist line.toList).subset hc)
  · exact h c hc

end Loading

end Significance
