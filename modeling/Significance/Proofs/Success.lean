import Mathlib.Data.List.Perm.Basic

/-! # When a sequence of checks succeeds

A sequence of steps that may fail succeeds exactly when every step does. -/

namespace Significance.Success

variable {ε α β : Type}

theorem bind_eq_ok {x : Except ε α} {f : α → Except ε β} {b : β} :
    (x >>= f) = .ok b ↔ ∃ a, x = .ok a ∧ f a = .ok b := by
  cases x with
  | error e => simp [bind, Except.bind]
  | ok a => simp [bind, Except.bind]

theorem error_bind {e : ε} {f : α → Except ε β} : (Except.error e >>= f) = .error e := rfl

theorem ok_bind {a : α} {f : α → Except ε β} : (Except.ok a >>= f) = f a := rfl

theorem pure_eq_ok {a b : α} : (pure a : Except ε α) = .ok b ↔ a = b := by
  simp [pure, Except.pure]

theorem toOption_eq_some {x : Except ε α} {a : α} : x.toOption = some a ↔ x = .ok a := by
  cases x with
  | error e => simp [Except.toOption]
  | ok a => simp [Except.toOption]

theorem map_eq_ok {x : Except ε α} {f : α → β} {b : β} :
    x.map f = .ok b ↔ ∃ a, x = .ok a ∧ f a = b := by
  cases x with
  | error e => simp [Except.map]
  | ok a => simp [Except.map]

/-- A step behind a check succeeds where the check does not refuse. -/
theorem check_eq_ok {p : Prop} [Decidable p] {e : ε} {f : α → Except ε β} {x : Except ε β}
    {b : β} : (if p then throw e >>= f else x) = .ok b ↔ ¬p ∧ x = .ok b := by
  by_cases h : p
  · simp [h, throw, throwThe, MonadExceptOf.throw, bind, Except.bind]
  · simp [h]

/-- After one and the same step two computations agree up to a translation where their rests do. -/
theorem bind_eq_map_bind {γ : Type} {x : Except ε α} {f : α → Except ε β} {f' : α → Except ε γ}
    {g : β → γ} (h : ∀ a, x = .ok a → f' a = (f a).map g) : (x >>= f') = (x >>= f).map g := by
  cases x with
  | error e => rfl
  | ok a => exact h a rfl

theorem check_eq_map_check {γ : Type} {p q : Prop} [Decidable p] [Decidable q] {e : ε}
    {f : α → Except ε β} {f' : α → Except ε γ} {x : Except ε β} {x' : Except ε γ} {g : β → γ}
    (hiff : q ↔ p) (h : ¬p → x' = x.map g) :
    (if q then throw e >>= f' else x') = (if p then throw e >>= f else x).map g := by
  by_cases hp : p
  · rw [if_pos (hiff.mpr hp), if_pos hp]
    rfl
  · rw [if_neg (mt hiff.mp hp), if_neg hp]
    exact h hp

/-- A list of steps succeeds with the list of their results. -/
theorem mapM_eq_ok {f : α → Except ε β} {xs : List α} {ys : List β} :
    xs.mapM f = .ok ys ↔ List.Forall₂ (fun x y => f x = .ok y) xs ys := by
  induction xs generalizing ys with
  | nil =>
      rw [List.mapM_nil, pure_eq_ok, List.forall₂_nil_left_iff]
      exact eq_comm
  | cons x xs ih =>
      simp only [List.mapM_cons, bind_eq_ok, pure_eq_ok, ih]
      constructor
      · rintro ⟨y, hy, ys, hys, rfl⟩
        exact List.Forall₂.cons hy hys
      · intro h
        cases h with
        | cons hy hys => exact ⟨_, hy, _, hys, rfl⟩

/-- Steps that depend on the data alone succeed with the results they must have. -/
theorem mapM_eq_ok_map {f : α → Except ε β} {g : α → β} {xs : List α} {p : α → Prop}
    (h : ∀ x ∈ xs, ∀ y, f x = .ok y ↔ p x ∧ y = g x) {ys : List β} :
    xs.mapM f = .ok ys ↔ (∀ x ∈ xs, p x) ∧ ys = xs.map g := by
  rw [mapM_eq_ok]
  induction xs generalizing ys with
  | nil => simp
  | cons x xs ih =>
      have htail : ∀ ys, List.Forall₂ (fun x y => f x = .ok y) xs ys ↔
          (∀ x ∈ xs, p x) ∧ ys = xs.map g :=
        fun ys => ih fun z hz => h z (List.mem_cons_of_mem x hz)
      rw [List.forall₂_cons_left_iff]
      simp only [h x List.mem_cons_self, htail, List.forall_mem_cons, List.map_cons]
      constructor
      · rintro ⟨y, zs, ⟨hp, rfl⟩, ⟨hall, rfl⟩, rfl⟩
        exact ⟨⟨hp, hall⟩, rfl⟩
      · rintro ⟨⟨hp, hall⟩, rfl⟩
        exact ⟨_, _, ⟨hp, rfl⟩, ⟨hall, rfl⟩, rfl⟩

theorem mapM_congr {f f' : α → Except ε β} {xs : List α} (h : ∀ x ∈ xs, f x = f' x) :
    xs.mapM f = xs.mapM f' := by
  induction xs with
  | nil => rfl
  | cons x xs ih =>
      obtain ⟨hhead, htail⟩ := List.forall_mem_cons.mp h
      rw [List.mapM_cons, List.mapM_cons, hhead, ih htail]

/-- Steps on other members that agree up to a translation give the translated results. -/
theorem mapM_eq_map_mapM {γ δ : Type} {f : α → Except ε β} {f' : γ → Except ε δ} {k : α → γ}
    {g : β → δ} {xs : List α} (h : ∀ x ∈ xs, f' (k x) = (f x).map g) :
    (xs.map k).mapM f' = (xs.mapM f).map (List.map g) := by
  induction xs with
  | nil => rfl
  | cons x xs ih =>
      obtain ⟨hhead, htail⟩ := List.forall_mem_cons.mp h
      rw [List.map_cons, List.mapM_cons, List.mapM_cons, hhead, ih htail]
      cases f x with
      | error e => rfl
      | ok y =>
          cases xs.mapM f with
          | error e => rfl
          | ok ys => rfl

/-- Steps in another order give the results in another order. -/
theorem exists_mapM_of_perm {f : α → Except ε β} {xs xs' : List α} {ys : List β}
    (hperm : xs'.Perm xs) (hmap : xs.mapM f = .ok ys) :
    ∃ ys', xs'.mapM f = .ok ys' ∧ ys'.Perm ys := by
  obtain ⟨ys', hmap', hresults⟩ := List.perm_comp_forall₂ hperm (mapM_eq_ok.mp hmap)
  exact ⟨ys', mapM_eq_ok.mpr hmap', hresults⟩

theorem exists_mapM_eq_ok {f : α → Except ε β} {xs : List α} (h : ∀ x ∈ xs, ∃ y, f x = .ok y) :
    ∃ ys, xs.mapM f = .ok ys := by
  induction xs with
  | nil => exact ⟨[], rfl⟩
  | cons x xs ih =>
      obtain ⟨⟨y, hy⟩, htail⟩ := List.forall_mem_cons.mp h
      obtain ⟨ys, hys⟩ := ih htail
      exact ⟨y :: ys, mapM_eq_ok.mpr (List.Forall₂.cons hy (mapM_eq_ok.mp hys))⟩

/-- What holds of the result of each step holds of the list of results. -/
theorem map_of_mapM_eq_ok {γ : Type*} {f : α → Except ε β} {p : β → γ} {q : α → γ} {xs : List α}
    {ys : List β} (hmap : xs.mapM f = .ok ys) (h : ∀ x ∈ xs, ∀ y, f x = .ok y → p y = q x) :
    ys.map p = xs.map q := by
  rw [mapM_eq_ok] at hmap
  induction hmap with
  | nil => rfl
  | cons hy _ ih =>
      obtain ⟨hhead, htail⟩ := List.forall_mem_cons.mp h
      rw [List.map_cons, List.map_cons, hhead _ hy, ih htail]

/-- Every member of one of two related lists has a partner in the other. -/
theorem exists_of_mem_forall₂ {r : α → β → Prop} {xs : List α} {ys : List β}
    (h : List.Forall₂ r xs ys) {y : β} (hy : y ∈ ys) : ∃ x ∈ xs, r x y := by
  induction h with
  | nil => simp at hy
  | @cons x z xs ys hz _ ih =>
      rcases List.mem_cons.mp hy with rfl | hy
      · exact ⟨x, List.mem_cons_self, hz⟩
      · obtain ⟨x', hx', hxy⟩ := ih hy
        exact ⟨x', List.mem_cons_of_mem x hx', hxy⟩

theorem exists_of_mem_mapM {f : α → Except ε β} {xs : List α} {ys : List β}
    (hmap : xs.mapM f = .ok ys) {y : β} (hy : y ∈ ys) : ∃ x ∈ xs, f x = .ok y :=
  exists_of_mem_forall₂ (mapM_eq_ok.mp hmap) hy

/-- The result of a step is found by a key that tells the steps apart. -/
theorem find?_of_mapM {f : α → Except ε β} {key : β → α} [DecidableEq α] {xs : List α} {ys : List β}
    (hmap : xs.mapM f = .ok ys) (hkey : ∀ x y, f x = .ok y → key y = x) {x : α} (hx : x ∈ xs) :
    ∃ y, f x = .ok y ∧ (ys.find? fun y => key y = x) = some y := by
  rw [mapM_eq_ok] at hmap
  induction hmap with
  | nil => simp at hx
  | @cons z y zs ys hz _ ih =>
      by_cases heq : key y = x
      · rw [← heq, hkey z y hz]
        exact ⟨y, hz, by simp [hkey z y hz]⟩
      · have hne : x ≠ z := fun h => heq ((hkey z y hz).trans h.symm)
        obtain ⟨y', hy', hfind⟩ := ih (List.mem_of_ne_of_mem hne hx)
        refine ⟨y', hy', ?_⟩
        rwa [List.find?_cons_of_neg (by simpa using heq)]

theorem forM_eq_ok {f : α → Except ε Unit} {xs : List α} :
    xs.forM f = .ok () ↔ ∀ x ∈ xs, f x = .ok () := by
  induction xs with
  | nil => simp [pure_eq_ok]
  | cons x xs ih =>
      change (f x >>= fun _ => xs.forM f) = .ok () ↔ _
      simp only [bind_eq_ok, ih, List.forall_mem_cons]
      constructor
      · rintro ⟨_, hx, hxs⟩
        exact ⟨hx, hxs⟩
      · rintro ⟨hx, hxs⟩
        exact ⟨(), hx, hxs⟩

/-- Steps with a result each have the list of their results. -/
theorem mapM_eq_some_map {f : α → Option β} {g : α → β} {xs : List α}
    (h : ∀ x ∈ xs, f x = some (g x)) : xs.mapM f = some (xs.map g) := by
  induction xs with
  | nil => rfl
  | cons x xs ih =>
      obtain ⟨hhead, htail⟩ := List.forall_mem_cons.mp h
      rw [List.mapM_cons, hhead, ih htail]
      rfl

theorem length_of_mapM_eq_some {f : α → Option β} {xs : List α} {ys : List β}
    (h : xs.mapM f = some ys) : ys.length = xs.length := by
  induction xs generalizing ys with
  | nil =>
      cases h
      rfl
  | cons x xs ih =>
      simp only [List.mapM_cons, Option.bind_eq_bind, Option.bind_eq_some_iff] at h
      obtain ⟨y, -, rest, hrest, hys⟩ := h
      cases hys
      rw [List.length_cons, List.length_cons, ih hrest]

theorem mapM_eq_none {f : α → Option β} {xs : List α} (h : ∃ x ∈ xs, f x = none) :
    xs.mapM f = none := by
  induction xs with
  | nil => simp at h
  | cons x xs ih =>
      rw [List.mapM_cons]
      cases hx : f x with
      | none => rfl
      | some y =>
          obtain ⟨z, hz, hnone⟩ := h
          rcases List.mem_cons.mp hz with rfl | hz
          · rw [hx] at hnone
            cases hnone
          · rw [ih ⟨z, hz, hnone⟩]
            rfl

end Significance.Success
