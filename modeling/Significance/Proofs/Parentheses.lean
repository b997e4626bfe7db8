import Mathlib.Data.List.DropRight
import Significance.Text.Parenthesis

/-! # Parenthesised parts

What the removal of parenthesised parts leaves is determined by a rule for the first part of a text.
Nothing is left to remove, so a second removal changes nothing. Where the parts are cut out of the
bytes of a text, no cut falls inside a character. -/

namespace Significance.Text

/-! ## White space at the ends -/

/-- The code points that Unicode lists as white space. -/
def whiteSpace : List ℕ :=
  [0x9, 0xA, 0xB, 0xC, 0xD, 0x20, 0x85, 0xA0, 0x1680, 0x2000, 0x2001, 0x2002, 0x2003, 0x2004,
    0x2005, 0x2006, 0x2007, 0x2008, 0x2009, 0x200A, 0x2028, 0x2029, 0x202F, 0x205F, 0x3000]

/-- A text that neither starts nor ends with white space. -/
def Trimmed (text : List Char) : Prop :=
  (∀ c ∈ text.head?, c.toNat ∉ whiteSpace) ∧ ∀ c ∈ text.getLast?, c.toNat ∉ whiteSpace

theorem isBlank_iff {c : Char} : isBlank c = true ↔ c.toNat ∈ whiteSpace := by
  simp only [isBlank, whiteSpace, Bool.or_eq_true, Bool.and_eq_true, decide_eq_true_eq,
    List.mem_cons, List.not_mem_nil, or_false]
  omega

theorem isBlank_eq_false_iff {c : Char} : isBlank c = false ↔ c.toNat ∉ whiteSpace := by
  rw [← isBlank_iff, Bool.not_eq_true]

theorem trimChars_eq (text : List Char) :
    trimChars text = (text.dropWhile isBlank).rdropWhile isBlank := rfl

theorem sublist_trimChars (text : List Char) : (trimChars text).Sublist text :=
  (List.rdropWhile_prefix isBlank _).sublist.trans (List.dropWhile_suffix isBlank).sublist

/-- What is taken away at either end is white space. -/
theorem exists_trimChars (text : List Char) :
    ∃ before after, text = before ++ trimChars text ++ after ∧
      ∀ c ∈ before ++ after, c.toNat ∈ whiteSpace := by
  have hblank {own : List Char} {c : Char} (h : c ∈ own.takeWhile isBlank) :
      c.toNat ∈ whiteSpace :=
    isBlank_iff.mp (List.mem_takeWhile_imp h)
  let tail := text.dropWhile isBlank
  have htail : trimChars text ++ (tail.reverse.takeWhile isBlank).reverse = tail := by
    rw [trimChars, ← List.reverse_append, List.takeWhile_append_dropWhile, List.reverse_reverse]
  refine ⟨text.takeWhile isBlank, (tail.reverse.takeWhile isBlank).reverse, ?_, ?_⟩
  · rw [List.append_assoc, htail, List.takeWhile_append_dropWhile]
  · intro c hc
    rcases List.mem_append.mp hc with hc | hc
    · exact hblank hc
    · exact hblank (List.mem_reverse.mp hc)

theorem trimmed_trimChars (text : List Char) : Trimmed (trimChars text) := by
  rw [trimChars_eq]
  constructor
  · intro c hc
    obtain ⟨after, hafter⟩ := List.rdropWhile_prefix isBlank (text.dropWhile isBlank)
    have hhead : (text.dropWhile isBlank).head? = some c := by
      rw [← hafter, List.head?_append, hc]
      rfl
    have hnil : text.dropWhile isBlank ≠ [] := by
      intro h
      simp [h] at hhead
    have hfirst := List.head_dropWhile_not isBlank hnil
    rw [List.head?_eq_some_head hnil, Option.some_inj] at hhead
    rwa [hhead, isBlank_eq_false_iff] at hfirst
  · intro c hc
    have hnil : (text.dropWhile isBlank).rdropWhile isBlank ≠ [] := by
      intro h
      simp [h] at hc
    have hlast := List.rdropWhile_last_not isBlank _ hnil
    rw [Option.mem_def, List.getLast?_eq_some_getLast hnil, Option.some_inj] at hc
    rwa [hc, isBlank_iff] at hlast

theorem trimChars_of_trimmed {text : List Char} (h : Trimmed text) : trimChars text = text := by
  have hfirst : text.dropWhile isBlank = text := by
    cases text with
    | nil => rfl
    | cons c rest =>
        have hc : isBlank c = false := isBlank_eq_false_iff.mpr (h.1 c rfl)
        simp [hc]
  have hlast : ∀ hnil : text ≠ [], ¬isBlank (text.getLast hnil) = true := by
    intro hnil
    rw [isBlank_iff]
    exact h.2 _ (List.getLast?_eq_some_getLast hnil)
  rw [trimChars_eq, hfirst, List.rdropWhile_eq_self_iff.mpr hlast]

/-- A character that is not white space stays. -/
theorem mem_trimChars {c : Char} (hc : isBlank c = false) (text : List Char) :
    c ∈ trimChars text ↔ c ∈ text := by
  have hdrop (text : List Char) : c ∈ text.dropWhile isBlank ↔ c ∈ text := by
    induction text with
    | nil => rfl
    | cons d rest ih =>
        by_cases hd : isBlank d = true
        · have hne : c ≠ d := by
            rintro rfl
            simp [hc] at hd
          simp [hd, ih, hne]
        · simp [hd]
  simp only [trimChars, List.mem_reverse, hdrop]

/-! ## The first part -/

/-- An opening parenthesis has a closing one somewhere after it. -/
def HasPart (text : List Char) : Prop :=
  ['(', ')'].Sublist text

/-- From left to right, each stretch from an opening parenthesis to the first closing one after it
is removed, until no opening parenthesis has a closing one after it. -/
inductive Removal : List Char → List Char → Prop
  | done {text} : ¬HasPart text → Removal text text
  | part {before inside after rest} : '(' ∉ before → ')' ∉ inside → Removal after rest →
      Removal (before ++ '(' :: (inside ++ ')' :: after)) (before ++ rest)

theorem hasPart_cons {c : Char} {rest : List Char} :
    HasPart (c :: rest) ↔ (c = '(' ∧ ')' ∈ rest) ∨ HasPart rest := by
  constructor
  · intro h
    cases h with
    | cons _ h => exact Or.inr h
    | cons_cons _ h => exact Or.inl ⟨rfl, List.singleton_sublist.mp h⟩
  · rintro (⟨rfl, h⟩ | h)
    · exact (List.singleton_sublist.mpr h).cons_cons _
    · exact h.cons _

/-- Before what has no opening parenthesis, nothing can be paired. -/
theorem hasPart_append {before rest : List Char} (h : '(' ∉ before) :
    HasPart (before ++ rest) ↔ HasPart rest := by
  induction before with
  | nil => rfl
  | cons c before ih =>
      rw [List.mem_cons, not_or] at h
      rw [List.cons_append, hasPart_cons, ih h.2]
      simp [Ne.symm h.1]

/-- The first part of a text that has one. -/
theorem HasPart.exists_part {text : List Char} (h : HasPart text) :
    ∃ before inside after, '(' ∉ before ∧ ')' ∉ inside ∧
      text = before ++ '(' :: (inside ++ ')' :: after) := by
  have hopen : '(' ∈ text := h.subset List.mem_cons_self
  obtain ⟨before, rest, rfl, hbefore⟩ := List.eq_append_cons_of_mem hopen
  have hclose : ')' ∈ rest := by
    rcases hasPart_cons.mp ((hasPart_append hbefore).mp h) with ⟨-, hclose⟩ | hpart
    · exact hclose
    · exact hpart.subset (List.mem_cons_of_mem _ List.mem_cons_self)
  obtain ⟨inside, after, rfl, hinside⟩ := List.eq_append_cons_of_mem hclose
  exact ⟨before, inside, after, hbefore, hinside, rfl⟩

/-! ## The rule and the recursion -/

theorem dropParenthesized_inside {inside : List Char} (h : ')' ∉ inside) (after : List Char) :
    dropParenthesized true (inside ++ ')' :: after) = dropParenthesized false after := by
  induction inside with
  | nil => simp [dropParenthesized]
  | cons c inside ih =>
      rw [List.mem_cons, not_or] at h
      have hc : (c != ')') = true := by simpa using Ne.symm h.1
      rw [List.cons_append, dropParenthesized, if_pos rfl, hc, ih h.2]

theorem dropParenthesized_part {before inside : List Char} (hbefore : '(' ∉ before)
    (hinside : ')' ∉ inside) (after : List Char) :
    dropParenthesized false (before ++ '(' :: (inside ++ ')' :: after)) =
      before ++ dropParenthesized false after := by
  induction before with
  | nil =>
      rw [List.nil_append, dropParenthesized]
      simp [dropParenthesized_inside hinside]
  | cons c before ih =>
      rw [List.mem_cons, not_or] at hbefore
      rw [List.cons_append, dropParenthesized]
      simp [Ne.symm hbefore.1, ih hbefore.2]

theorem dropParenthesized_of_not_hasPart {text : List Char} (h : ¬HasPart text) :
    dropParenthesized false text = text := by
  induction text with
  | nil => rfl
  | cons c rest ih =>
      rw [hasPart_cons, not_or] at h
      have hpart : (c == '(' && rest.contains ')') = false := by simpa using h.1
      rw [dropParenthesized, hpart, ih h.2]
      rfl

theorem Removal.dropParenthesized_eq {text rest : List Char} (h : Removal text rest) :
    dropParenthesized false text = rest := by
  induction h with
  | done h => exact dropParenthesized_of_not_hasPart h
  | part hbefore hinside _ ih => rw [dropParenthesized_part hbefore hinside, ih]

theorem removal_dropParenthesized (text : List Char) :
    Removal text (dropParenthesized false text) := by
  by_cases h : HasPart text
  · obtain ⟨before, inside, after, hbefore, hinside, htext⟩ := h.exists_part
    rw [htext, dropParenthesized_part hbefore hinside]
    exact .part hbefore hinside (removal_dropParenthesized after)
  · rw [dropParenthesized_of_not_hasPart h]
    exact .done h
termination_by text.length
decreasing_by
  rw [htext]
  simp only [List.length_append, List.length_cons]
  omega

theorem removal_iff {text rest : List Char} :
    Removal text rest ↔ dropParenthesized false text = rest :=
  ⟨Removal.dropParenthesized_eq, fun h => h ▸ removal_dropParenthesized text⟩

/-- What is kept before a part has no opening parenthesis, so a closing one that stays pairs with
none. -/
theorem Removal.not_hasPart {text rest : List Char} (h : Removal text rest) : ¬HasPart rest := by
  induction h with
  | done h => exact h
  | part hbefore _ _ ih => rwa [hasPart_append hbefore]

/-! ## Cutting at offsets -/

/-- The length of a text in bytes. -/
def byteSize : List Char → ℕ
  | [] => 0
  | c :: rest => c.utf8Size + byteSize rest

/-- How many bytes stand before a character for the first time. -/
def offset? (c : Char) : List Char → Option ℕ
  | [] => none
  | d :: rest => if d = c then some 0 else (offset? c rest).map (d.utf8Size + ·)

/-- A text in two parts, of which the first has so many bytes. There are none for a cut inside a
character or beyond the end. -/
def cut? (n : ℕ) : List Char → Option (List Char × List Char)
  | [] => if n = 0 then some ([], []) else none
  | c :: rest =>
    if n = 0 then some ([], c :: rest)
    else if c.utf8Size ≤ n then
      (cut? (n - c.utf8Size) rest).map fun parts => (c :: parts.1, parts.2)
    else none

@[simp] theorem byteSize_nil : byteSize [] = 0 := rfl

@[simp] theorem byteSize_cons (c : Char) (rest : List Char) :
    byteSize (c :: rest) = c.utf8Size + byteSize rest := rfl

theorem cut?_append (before after : List Char) :
    cut? (byteSize before) (before ++ after) = some (before, after) := by
  induction before with
  | nil => cases after <;> rfl
  | cons c before ih =>
      have hc : c.utf8Size ≠ 0 := c.utf8Size_pos.ne'
      simp [cut?, hc, ih]

theorem eq_append_of_cut? {n : ℕ} {text before after : List Char}
    (h : cut? n text = some (before, after)) : text = before ++ after ∧ byteSize before = n := by
  induction text generalizing n before with
  | nil =>
      by_cases hn : n = 0
      · simp_all [cut?]
      · simp [cut?, hn] at h
  | cons c rest ih =>
      by_cases hn : n = 0
      · simp_all [cut?]
      · by_cases hc : c.utf8Size ≤ n
        · simp only [cut?, hn, hc, if_true, if_false, Option.map_eq_some_iff, Prod.mk.injEq] at h
          obtain ⟨⟨first, last⟩, hcut, rfl, rfl⟩ := h
          obtain ⟨rfl, hsize⟩ := ih hcut
          simp only [List.cons_append, byteSize_cons, hsize, true_and]
          omega
        · simp [cut?, hn, hc] at h

theorem length_lt_of_cut? {n : ℕ} {text before after : List Char}
    (h : cut? (n + 1) text = some (before, after)) : after.length < text.length := by
  obtain ⟨rfl, hsize⟩ := eq_append_of_cut? h
  cases before with
  | nil => simp at hsize
  | cons c before =>
      rw [List.length_append, List.length_cons]
      omega

@[simp] theorem byteSize_append (before after : List Char) :
    byteSize (before ++ after) = byteSize before + byteSize after := by
  induction before with
  | nil => simp
  | cons c before ih =>
      simp only [List.cons_append, byteSize_cons, ih]
      omega

theorem offset?_append {c : Char} {before : List Char} (h : c ∉ before) (after : List Char) :
    offset? c (before ++ c :: after) = some (byteSize before) := by
  induction before with
  | nil => simp [offset?]
  | cons d before ih =>
      rw [List.mem_cons, not_or] at h
      simp [offset?, Ne.symm h.1, ih h.2]

theorem offset?_eq_none {c : Char} {text : List Char} (h : c ∉ text) : offset? c text = none := by
  induction text with
  | nil => rfl
  | cons d rest ih =>
      rw [List.mem_cons, not_or] at h
      simp [offset?, Ne.symm h.1, ih h.2]

/-- The parts of a text cut out at their offsets: from the first opening parenthesis to just behind
the first closing one after it, then in what follows. There is no result where a cut falls inside a
character. -/
def cutParts? (text : List Char) : Option (List Char) :=
  match offset? '(' text with
  | none => some text
  | some start =>
    match cut? start text with
    | none => none
    | some (before, tail) =>
      match offset? ')' tail with
      | none => some text
      | some length =>
        match _ : cut? (start + length + 1) text with
        | none => none
        | some (_, after) => (cutParts? after).map (before ++ ·)
termination_by text.length
decreasing_by exact length_lt_of_cut? ‹_›

theorem cutParts?_of_not_hasPart {text : List Char} (h : ¬HasPart text) :
    cutParts? text = some text := by
  by_cases hopen : '(' ∈ text
  · obtain ⟨before, rest, rfl, hbefore⟩ := List.eq_append_cons_of_mem hopen
    have hclose : ')' ∉ rest := by
      intro hclose
      exact h ((hasPart_append hbefore).mpr (hasPart_cons.mpr (Or.inl ⟨rfl, hclose⟩)))
    have htail : offset? ')' ('(' :: rest) = none := offset?_eq_none (by simp [hclose])
    rw [cutParts?]
    simp only [offset?_append hbefore, cut?_append, htail]
  · rw [cutParts?]
    simp only [offset?_eq_none hopen]

theorem cutParts?_part {before inside : List Char} (hbefore : '(' ∉ before)
    (hinside : ')' ∉ inside) (after : List Char) :
    cutParts? (before ++ '(' :: (inside ++ ')' :: after)) =
      (cutParts? after).map (before ++ ·) := by
  have hnone : ')' ∉ '(' :: inside := by simp [hinside]
  have hclose : offset? ')' ('(' :: (inside ++ ')' :: after)) = some (byteSize ('(' :: inside)) :=
    offset?_append hnone after
  have hsize : byteSize before + byteSize ('(' :: inside) + 1 =
      byteSize (before ++ '(' :: (inside ++ [')'])) := by
    have hparen : ')'.utf8Size = 1 := by decide
    simp [hparen]
    omega
  have hcut : cut? (byteSize before + byteSize ('(' :: inside) + 1)
      (before ++ '(' :: (inside ++ ')' :: after)) =
        some (before ++ '(' :: (inside ++ [')']), after) := by
    rw [hsize, ← cut?_append]
    simp
  rw [cutParts?]
  simp only [offset?_append hbefore, cut?_append, hclose]
  split
  · simp_all
  · simp_all

theorem cutParts?_eq (text : List Char) : cutParts? text = some (dropParenthesized false text) := by
  have hremoval := removal_dropParenthesized text
  generalize dropParenthesized false text = rest at hremoval
  induction hremoval with
  | done h => exact cutParts?_of_not_hasPart h
  | part hbefore hinside _ ih => rw [cutParts?_part hbefore hinside, ih, Option.map_some]

/-! ## Labels -/

@[simp] theorem toList_withoutParentheses (label : String) :
    (withoutParentheses label).toList = trimChars (dropParenthesized false label.toList) :=
  String.toList_ofList

theorem not_hasPart_withoutParentheses (label : String) :
    ¬HasPart (withoutParentheses label).toList := by
  intro h
  rw [toList_withoutParentheses] at h
  exact (removal_dropParenthesized label.toList).not_hasPart (h.trans (sublist_trimChars _))

theorem trimmed_withoutParentheses (label : String) :
    Trimmed (withoutParentheses label).toList := by
  rw [toList_withoutParentheses]
  exact trimmed_trimChars _

/-- A label that has no part to remove and no white space at its ends stays as it is. -/
theorem withoutParentheses_eq_self {label : String} (hpart : ¬HasPart label.toList)
    (htrimmed : Trimmed label.toList) : withoutParentheses label = label := by
  rw [← String.toList_inj, toList_withoutParentheses, dropParenthesized_of_not_hasPart hpart,
    trimChars_of_trimmed htrimmed]

/-- What is left of a label. Cut out of its bytes, the parts never end inside a character. The
rule of removal has one result, in which no opening parenthesis has a closing one after it; without
the white space around it, it is the label, and is left as it is from then on. -/
theorem withoutParentheses_removes (label : String) :
    ∃ rest, cutParts? label.toList = some rest ∧
      (∀ other, Removal label.toList other ↔ other = rest) ∧
      ¬HasPart rest ∧
      withoutParentheses label = String.ofList (trimChars rest) ∧
      (∃ before after, rest = before ++ (withoutParentheses label).toList ++ after ∧
        ∀ c ∈ before ++ after, c.toNat ∈ whiteSpace) ∧
      ¬HasPart (withoutParentheses label).toList ∧
      Trimmed (withoutParentheses label).toList ∧
      withoutParentheses (withoutParentheses label) = withoutParentheses label := by
  refine ⟨dropParenthesized false label.toList, cutParts?_eq _, ?_,
    (removal_dropParenthesized _).not_hasPart, rfl, ?_, not_hasPart_withoutParentheses label,
    trimmed_withoutParentheses label, ?_⟩
  · intro other
    rw [removal_iff, eq_comm]
  · rw [toList_withoutParentheses]
    exact exists_trimChars _
  · exact withoutParentheses_eq_self (not_hasPart_withoutParentheses label)
      (trimmed_withoutParentheses label)

end Significance.Text
