/-!
# Distinct texts in order

Main statements: `sortedDistinct` has exactly the members of its argument, and they strictly
increase. Among increasing texts, `position?` finds each member, and nothing else.
-/

namespace Significance.Text

/-- Adds a text to strictly increasing texts, unless it is among them. -/
def insertDistinct (s : String) : List String → List String
  | [] => [s]
  | t :: rest =>
    if s < t then s :: t :: rest
    else if s = t then t :: rest
    else t :: insertDistinct s rest

/-- The distinct members of a list of texts, in increasing order of their characters. -/
def sortedDistinct (texts : List String) : List String :=
  texts.foldr insertDistinct []

/-- Halves a stretch of `size` places from `start` on until one place is left, the only one of them
that can hold the text. -/
def halve (texts : List String) (s : String) : Nat → Nat → Nat → Nat
  | 0, start, _ => start
  | fuel + 1, start, size =>
    if size ≤ 1 then start
    else
      let middle := start + size / 2
      halve texts s fuel (if s < texts.getD middle "" then start else middle) (size - size / 2)

/-- The place of a text among increasing texts. -/
def position? (texts : List String) (s : String) : Option Nat :=
  let place := halve texts s texts.length 0 texts.length
  if texts[place]? = some s then some place else none

theorem mem_insertDistinct {s x : String} {texts : List String} :
    x ∈ insertDistinct s texts ↔ x = s ∨ x ∈ texts := by
  induction texts with
  | nil => simp [insertDistinct]
  | cons t rest ih =>
    unfold insertDistinct
    split
    · simp
    · split
      · next h => subst h; simp
      · simp only [List.mem_cons, ih]
        constructor
        · rintro (h | h | h)
          · exact Or.inr (Or.inl h)
          · exact Or.inl h
          · exact Or.inr (Or.inr h)
        · rintro (h | h | h)
          · exact Or.inr (Or.inl h)
          · exact Or.inl h
          · exact Or.inr (Or.inr h)

theorem mem_sortedDistinct {x : String} {texts : List String} :
    x ∈ sortedDistinct texts ↔ x ∈ texts := by
  induction texts with
  | nil => simp [sortedDistinct]
  | cons t rest ih =>
    show x ∈ insertDistinct t (sortedDistinct rest) ↔ x ∈ t :: rest
    rw [mem_insertDistinct, ih, List.mem_cons]

theorem pairwise_insertDistinct {s : String} {texts : List String}
    (h : texts.Pairwise (· < ·)) : (insertDistinct s texts).Pairwise (· < ·) := by
  induction texts with
  | nil => simp [insertDistinct]
  | cons t rest ih =>
    have ⟨head, tail⟩ := List.pairwise_cons.1 h
    unfold insertDistinct
    split
    · next hst =>
      refine List.pairwise_cons.2 ⟨fun x hx => ?_, h⟩
      rcases List.mem_cons.1 hx with rfl | hx
      · exact hst
      · exact String.lt_trans hst (head x hx)
    · split
      · exact h
      · next hst hne =>
        refine List.pairwise_cons.2 ⟨fun x hx => ?_, ih tail⟩
        rcases mem_insertDistinct.1 hx with rfl | hx
        · rcases Classical.em (t < x) with hlt | hlt
          · exact hlt
          · exact absurd (String.le_antisymm hlt hst) hne
        · exact head x hx

theorem pairwise_sortedDistinct (texts : List String) :
    (sortedDistinct texts).Pairwise (· < ·) := by
  induction texts with
  | nil => exact List.Pairwise.nil
  | cons t rest ih => exact pairwise_insertDistinct ih

/-- Increasing texts are told apart by their order. -/
theorem lt_getElem_iff {texts : List String} (h : texts.Pairwise (· < ·)) {i j : Nat}
    (hi : i < texts.length) (hj : j < texts.length) : texts[i] < texts[j] ↔ i < j := by
  constructor
  · intro hlt
    rcases Nat.lt_or_ge i j with hij | hij
    · exact hij
    · rcases Nat.eq_or_lt_of_le hij with rfl | hij
      · exact absurd hlt (String.lt_irrefl _)
      · exact absurd (String.lt_trans hlt (List.pairwise_iff_getElem.1 h j i hj hi hij))
          (String.lt_irrefl _)
  · exact List.pairwise_iff_getElem.1 h i j hi hj

/-- A text within the stretch stays within the halves, so it is at the place that is left. -/
theorem halve_eq {texts : List String} (h : texts.Pairwise (· < ·)) {i : Nat}
    (hi : i < texts.length) (fuel start size : Nat) (hfuel : size ≤ fuel + 1)
    (hend : start + size ≤ texts.length) (hstart : start ≤ i) (hlt : i < start + size) :
    halve texts texts[i] fuel start size = i := by
  induction fuel generalizing start size with
  | zero =>
    unfold halve
    omega
  | succ fuel ih =>
    unfold halve
    split
    · omega
    · next hsize =>
      have hmiddle : start + size / 2 < texts.length := by omega
      have hget : texts.getD (start + size / 2) "" = texts[start + size / 2] := by
        simp [List.getD_eq_getElem?_getD, hmiddle]
      dsimp only
      rw [hget]
      split
      · next hbefore =>
        have hbefore := (lt_getElem_iff h hi hmiddle).1 hbefore
        exact ih start (size - size / 2) (by omega) (by omega) hstart (by omega)
      · next hbehind =>
        have hbehind := mt (lt_getElem_iff h hi hmiddle).2 hbehind
        exact ih (start + size / 2) (size - size / 2) (by omega) (by omega) (by omega) (by omega)

theorem position?_getElem {texts : List String} (h : texts.Pairwise (· < ·)) {i : Nat}
    (hi : i < texts.length) : position? texts texts[i] = some i := by
  have hplace : halve texts texts[i] texts.length 0 texts.length = i :=
    halve_eq h hi _ _ _ (by omega) (by omega) (by omega) (by omega)
  simp only [position?, hplace]
  exact if_pos (List.getElem?_eq_getElem hi)

/-- A text that is not among increasing texts has no place, and a member has its own. -/
theorem position?_eq_some_iff {texts : List String} (h : texts.Pairwise (· < ·)) {s : String}
    {i : Nat} : position? texts s = some i ↔ texts[i]? = some s := by
  constructor
  · intro hplace
    simp only [position?] at hplace
    split at hplace
    · next hfound =>
      injection hplace with hplace
      exact hplace ▸ hfound
    · cases hplace
  · intro hget
    obtain ⟨hi, rfl⟩ := List.getElem?_eq_some_iff.1 hget
    exact position?_getElem h hi

end Significance.Text
