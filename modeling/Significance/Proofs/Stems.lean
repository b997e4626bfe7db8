import Mathlib.Data.List.Nodup
import Significance.Program

/-! # Stems of names

Every name gets a stem of its own, made of letters, digits, hyphens and underscores. A name that is
like an earlier one in safe characters is told apart by the first number that is free. -/

namespace Significance.FileStem

/-! ## Numbers behind a name -/

theorem toString_injective : Function.Injective (toString : ℕ → String) := by
  intro i j h
  have hdigits : Nat.toDigits 10 i = Nat.toDigits 10 j := by
    rw [← Nat.toList_repr, ← Nat.toList_repr]
    exact congrArg String.toList h
  have hread := congrArg (fun digits => Nat.ofDigitChars 10 digits 0) hdigits
  simpa using hread

theorem candidate_injective (base : String) : Function.Injective (candidate base) := by
  have hlonger : ∀ text : String, base ≠ base ++ "_" ++ text := by
    intro text h
    have hlength := congrArg (fun s : String => s.toList.length) h
    simp only [String.toList_append, List.length_append] at hlength
    have hone : "_".toList.length = 1 := rfl
    omega
  intro i j h
  unfold candidate at h
  split at h
  · next hi =>
    split at h
    · next hj => exact hi.trans hj.symm
    · exact absurd h (hlonger _)
  · split at h
    · exact absurd h.symm (hlonger _)
    · have hdigits := (String.append_right_inj _).mp h
      exact Nat.succ.inj (toString_injective hdigits)

/-- The first candidate that is not in use is taken. More candidates are tried than there are stems
in use. -/
theorem firstFree_eq (used : List String) (base : String) :
    ∃ k ≤ used.length, firstFree used base = candidate base k ∧ candidate base k ∉ used ∧
      ∀ j < k, candidate base j ∈ used := by
  unfold firstFree
  cases hfind : (List.range (used.length + 1)).find? fun i => !used.contains (candidate base i) with
  | some k =>
      obtain ⟨hfree, hk, hbefore⟩ := List.find?_range_eq_some.mp hfind
      refine ⟨k, Nat.lt_succ_iff.mp (List.mem_range.mp hk), rfl, by simpa using hfree, ?_⟩
      exact fun j hj => by simpa using hbefore j hj
  | none =>
      have hall : (List.range (used.length + 1)).map (candidate base) ⊆ used := by
        intro stem hstem
        obtain ⟨i, hi, rfl⟩ := List.mem_map.mp hstem
        simpa using List.find?_eq_none.mp hfind i hi
      have hnodup : ((List.range (used.length + 1)).map (candidate base)).Nodup :=
        List.nodup_range.map (candidate_injective base)
      have hle := hnodup.length_le_of_subset hall
      rw [List.length_map, List.length_range] at hle
      omega

theorem firstFree_notMem (used : List String) (base : String) : firstFree used base ∉ used := by
  obtain ⟨k, -, heq, hfree, -⟩ := firstFree_eq used base
  rwa [heq]

theorem nodup_uniqueAfter (used names : List String) :
    (uniqueAfter used names).Nodup ∧ ∀ stem ∈ uniqueAfter used names, stem ∉ used := by
  induction names generalizing used with
  | nil => simp [uniqueAfter]
  | cons name names ih =>
      obtain ⟨hnodup, hfresh⟩ := ih (firstFree used (sanitize name) :: used)
      have hhead := firstFree_notMem used (sanitize name)
      rw [uniqueAfter]
      constructor
      · exact List.nodup_cons.mpr ⟨fun hmem => hfresh _ hmem List.mem_cons_self, hnodup⟩
      · intro stem hstem
        rcases List.mem_cons.mp hstem with rfl | hstem
        · exact hhead
        · exact fun hmem => hfresh stem hstem (List.mem_cons_of_mem _ hmem)

theorem nodup_unique (names : List String) : (unique names).Nodup :=
  (nodup_uniqueAfter [] names).1

theorem length_unique (names : List String) : (unique names).length = names.length := by
  have hlength : ∀ used, (uniqueAfter used names).length = names.length := by
    induction names with
    | nil => exact fun _ => rfl
    | cons name names ih =>
        intro used
        rw [uniqueAfter, List.length_cons, ih, List.length_cons]
  exact hlength []

/-! ## Safe characters -/

/-- A character that stands in a stem. -/
def IsSafe (c : Char) : Prop :=
  Text.isAlphanumeric c ∨ c = '-' ∨ c = '_'

theorem isSafe_of_isDigit {c : Char} (h : c.isDigit) : IsSafe c := by
  refine Or.inl (List.any_eq_true.mpr ⟨(0x30, 0x39), List.mem_cons_self, ?_⟩)
  simpa [Char.isDigit, UInt32.le_iff_toNat_le] using h

theorem not_isSafe_slash : ¬IsSafe '/' := by
  unfold IsSafe
  decide +kernel

theorem isSafe_sanitizeChar (c : Char) : IsSafe (sanitizeChar c) := by
  unfold sanitizeChar
  split
  · next h => exact h
  · exact Or.inr (Or.inr rfl)

/-- A name in safe characters: an underscore stands for each of the others. -/
def IsPlain (name plain : String) : Prop :=
  List.Forall₂ (fun c d => (IsSafe c ∧ d = c) ∨ (¬IsSafe c ∧ d = '_')) name.toList plain.toList

theorem isPlain_sanitize (name : String) : IsPlain name (sanitize name) := by
  rw [IsPlain, sanitize, String.toList_ofList, List.forall₂_map_right_iff, List.forall₂_same]
  intro c _
  unfold sanitizeChar
  split
  · next h => exact Or.inl ⟨h, rfl⟩
  · next h => exact Or.inr ⟨h, rfl⟩

theorem isSafe_of_mem_sanitize {name : String} {c : Char} (h : c ∈ (sanitize name).toList) :
    IsSafe c := by
  rw [sanitize, String.toList_ofList] at h
  obtain ⟨d, -, rfl⟩ := List.mem_map.mp h
  exact isSafe_sanitizeChar d

theorem isSafe_of_mem_candidate {name : String} {k : ℕ} {c : Char}
    (h : c ∈ (candidate (sanitize name) k).toList) : IsSafe c := by
  unfold candidate at h
  split at h
  · exact isSafe_of_mem_sanitize h
  · rw [String.toList_append, String.toList_append, List.append_assoc, List.mem_append,
      List.mem_append] at h
    rcases h with h | h | h
    · exact isSafe_of_mem_sanitize h
    · exact Or.inr (Or.inr (List.mem_singleton.mp h))
    · have hdigits : c ∈ Nat.toDigits 10 (k + 1) := by rwa [← Nat.toList_repr]
      exact isSafe_of_isDigit (Nat.isDigit_of_mem_toDigits (by decide) (by decide) hdigits)

/-- Every stem is the first one free after those before it. -/
theorem getElem?_uniqueAfter (used names : List String) {i : ℕ} {name : String}
    (hname : names[i]? = some name) :
    (uniqueAfter used names)[i]? =
      some (firstFree (((uniqueAfter used names).take i).reverse ++ used) (sanitize name)) := by
  induction names generalizing used i with
  | nil => simp at hname
  | cons first names ih =>
      rw [uniqueAfter]
      cases i with
      | zero =>
          obtain rfl : first = name := by simpa using hname
          rfl
      | succ i =>
          rw [List.getElem?_cons_succ] at hname ⊢
          rw [ih _ hname, List.take_succ_cons, List.reverse_cons, List.append_assoc,
            List.singleton_append]

/-- Stems for some names: one for each in their order, all different and safe. Each is the name in
safe characters, with the first number, if any, that makes it differ from the stems before it; no
more numbers are tried than there are stems before it. -/
structure StemsFor (names stems : List String) : Prop where
  length_eq : stems.length = names.length
  nodup : stems.Nodup
  safe : ∀ stem ∈ stems, ∀ c ∈ stem.toList, IsSafe c
  sanitized : ∀ name ∈ names, IsPlain name (sanitize name)
  numbered : ∀ (i : ℕ) (name stem : String), names[i]? = some name → stems[i]? = some stem →
    ∃ k ≤ i, stem = candidate (sanitize name) k ∧ stem ∉ stems.take i ∧
      ∀ j < k, candidate (sanitize name) j ∈ stems.take i
  plain : ∀ (i : ℕ) (name : String), names[i]? = some name → sanitize name ∉ stems.take i →
    stems[i]? = some (sanitize name)

theorem stemsFor_unique (names : List String) : StemsFor names (unique names) := by
  have hstem : ∀ (i : ℕ) (name : String), names[i]? = some name →
      ∃ k ≤ i, (unique names)[i]? = some (candidate (sanitize name) k) ∧
        candidate (sanitize name) k ∉ (unique names).take i ∧
        ∀ j < k, candidate (sanitize name) j ∈ (unique names).take i := by
    intro i name hname
    obtain ⟨k, hk, heq, hfree, hbefore⟩ :=
      firstFree_eq (((unique names).take i).reverse ++ []) (sanitize name)
    simp only [List.append_nil, List.length_reverse, List.length_take, List.mem_reverse]
      at hk hfree hbefore
    refine ⟨k, by omega, ?_, hfree, hbefore⟩
    rw [← heq]
    exact getElem?_uniqueAfter [] names hname
  constructor
  case length_eq => exact length_unique names
  case nodup => exact nodup_unique names
  case safe =>
    intro stem hmem c hc
    obtain ⟨i, hget⟩ := List.mem_iff_getElem?.mp hmem
    have hi : i < names.length := by
      rw [← length_unique names]
      exact (List.getElem?_eq_some_iff.mp hget).1
    obtain ⟨k, -, heq, -⟩ := hstem i names[i] (List.getElem?_eq_getElem hi)
    obtain rfl := Option.some.inj (hget.symm.trans heq)
    exact isSafe_of_mem_candidate hc
  case sanitized => exact fun name _ => isPlain_sanitize name
  case numbered =>
    intro i name stem hname hget
    obtain ⟨k, hk, heq, hfree, hbefore⟩ := hstem i name hname
    obtain rfl := Option.some.inj (hget.symm.trans heq)
    exact ⟨k, hk, rfl, hfree, hbefore⟩
  case plain =>
    intro i name hname hplain
    obtain ⟨k, -, heq, -, hbefore⟩ := hstem i name hname
    -- The sanitized name is the candidate with number zero.
    obtain rfl : k = 0 := by
      by_contra hk
      exact hplain (hbefore 0 (Nat.pos_of_ne_zero hk))
    exact heq

example : unique ["a b", "a_b", "a_b_2"] = ["a_b", "a_b_2", "a_b_2_2"] := by decide +kernel

theorem slash_notMem_of_mem_unique {names : List String} {stem : String}
    (h : stem ∈ unique names) : '/' ∉ stem.toList :=
  fun hslash => not_isSafe_slash ((stemsFor_unique names).safe stem h '/' hslash)

end Significance.FileStem
