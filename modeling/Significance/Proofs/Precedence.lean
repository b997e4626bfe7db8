import Mathlib.Data.List.OfFn
import Significance.Proofs.Success

/-! # Which of several reasons decides

Checks are made one after another, so of several reasons for a refusal the first one decides. A
sequence of steps is refused for the reasons of its steps in their order. -/

namespace Significance

variable {ε α β : Type}

/-- The error of the first reason that holds. A reason says with which errors it holds. -/
inductive First : List (ε → Prop) → ε → Prop
  | here {reason : ε → Prop} {reasons : List (ε → Prop)} {e : ε} (h : reason e) :
      First (reason :: reasons) e
  | later {reason : ε → Prop} {reasons : List (ε → Prop)} {e : ε} (hnot : ∀ e', ¬reason e')
      (h : First reasons e) : First (reason :: reasons) e

namespace First

variable {reason : ε → Prop} {reasons others : List (ε → Prop)} {e : ε}

theorem not_nil : ¬First [] e :=
  fun h => nomatch h

theorem cons_iff :
    First (reason :: reasons) e ↔ reason e ∨ (∀ e', ¬reason e') ∧ First reasons e := by
  constructor
  · intro h
    cases h with
    | here h => exact Or.inl h
    | later hnot h => exact Or.inr ⟨hnot, h⟩
  · rintro (h | ⟨hnot, h⟩)
    · exact here h
    · exact later hnot h

theorem singleton_iff : First [reason] e ↔ reason e := by
  rw [cons_iff, or_iff_left]
  exact fun h => not_nil h.2

/-- A reason decides exactly where some reason holds. -/
theorem exists_iff : (∃ e, First reasons e) ↔ ∃ reason ∈ reasons, ∃ e, reason e := by
  induction reasons with
  | nil => simp [not_nil]
  | cons reason reasons ih =>
      rw [List.exists_mem_cons_iff, ← ih]
      constructor
      · rintro ⟨e, h⟩
        rcases cons_iff.mp h with h | ⟨-, h⟩
        · exact Or.inl ⟨e, h⟩
        · exact Or.inr ⟨e, h⟩
      · rintro (⟨e, h⟩ | ⟨e, h⟩)
        · exact ⟨e, here h⟩
        · by_cases hhead : ∃ e', reason e'
          · obtain ⟨e', he'⟩ := hhead
            exact ⟨e', here he'⟩
          · exact ⟨e, later (not_exists.mp hhead) h⟩

theorem append_iff :
    First (reasons ++ others) e ↔ First reasons e ∨ (∀ e', ¬First reasons e') ∧ First others e := by
  induction reasons with
  | nil => simp [not_nil]
  | cons reason reasons ih =>
      rw [List.cons_append, cons_iff, ih, cons_iff]
      constructor
      · rintro (h | ⟨hnot, h | ⟨hrest, h⟩⟩)
        · exact Or.inl (Or.inl h)
        · exact Or.inl (Or.inr ⟨hnot, h⟩)
        · refine Or.inr ⟨?_, h⟩
          intro e' he'
          rcases cons_iff.mp he' with he' | ⟨-, he'⟩
          · exact hnot e' he'
          · exact hrest e' he'
      · rintro ((h | ⟨hnot, h⟩) | ⟨hnone, h⟩)
        · exact Or.inl h
        · exact Or.inr ⟨hnot, Or.inl h⟩
        · have hnot : ∀ e', ¬reason e' := fun e' he' => hnone e' (here he')
          exact Or.inr ⟨hnot, Or.inr ⟨fun e' he' => hnone e' (later hnot he'), h⟩⟩

/-- The first member of a list that has a reason decides. -/
theorem map_iff_exists {reasonOf : α → ε → Prop} {xs : List α} :
    First (xs.map reasonOf) e ↔ ∃ before x after, xs = before ++ x :: after ∧
      (∀ y ∈ before, ∀ e', ¬reasonOf y e') ∧ reasonOf x e := by
  induction xs with
  | nil => simp [not_nil]
  | cons x xs ih =>
      rw [List.map_cons, cons_iff, ih]
      constructor
      · rintro (h | ⟨hnot, before, y, after, rfl, hbefore, h⟩)
        · exact ⟨[], x, xs, rfl, by simp, h⟩
        · exact ⟨x :: before, y, after, rfl, List.forall_mem_cons.mpr ⟨hnot, hbefore⟩, h⟩
      · rintro ⟨before, y, after, hxs, hbefore, h⟩
        cases before with
        | nil =>
            rw [(List.cons.inj hxs).1]
            exact Or.inl h
        | cons z before =>
            obtain ⟨rfl, rfl⟩ := List.cons.inj hxs
            obtain ⟨hnot, hbefore⟩ := List.forall_mem_cons.mp hbefore
            exact Or.inr ⟨hnot, before, y, after, rfl, hbefore, h⟩

/-- The first member of a list against which something is found decides. -/
theorem map_iff_findSome? {reasonOf : α → ε → Prop} {f : α → Option β} {error : β → ε} {xs : List α}
    (h : ∀ x ∈ xs, ∀ e, reasonOf x e ↔ ∃ b, f x = some b ∧ e = error b) :
    First (xs.map reasonOf) e ↔ ∃ b, xs.findSome? f = some b ∧ e = error b := by
  induction xs with
  | nil => simp [not_nil]
  | cons x xs ih =>
      obtain ⟨hhead, htail⟩ := List.forall_mem_cons.mp h
      rw [List.map_cons, cons_iff, ih htail, List.findSome?_cons]
      simp only [hhead]
      cases f x with
      | none => simp
      | some b => simp

theorem map_iff_find? {p : α → Bool} {error : α → ε} {xs : List α} :
    First (xs.map fun x e => p x = true ∧ e = error x) e ↔
      ∃ x, xs.find? p = some x ∧ e = error x := by
  rw [List.find?_eq_findSome?_guard]
  apply map_iff_findSome?
  intro x _ e
  simp [Option.guard_eq_some_iff]

end First

/-- A computation fails with the error of the first reason that holds, and succeeds where none
does. -/
def Refused (x : Except ε α) (reasons : List (ε → Prop)) : Prop :=
  ∀ e, x = .error e ↔ First reasons e

namespace Refused

variable {x : Except ε α} {reasons others : List (ε → Prop)}

theorem exists_ok_iff (h : Refused x reasons) :
    (∃ a, x = .ok a) ↔ ∀ reason ∈ reasons, ∀ e, ¬reason e := by
  have hnone : (∃ a, x = .ok a) ↔ ¬∃ e, x = .error e := by
    cases x with
    | error e => simp
    | ok a => simp
  simp only [hnone, h _, First.exists_iff, not_exists, not_and]

theorem not_first (h : Refused x reasons) {a : α} (hx : x = .ok a) (e : ε) : ¬First reasons e := by
  rw [← h e, hx]
  exact fun heq => nomatch heq

theorem ok (a : α) : Refused (.ok a : Except ε α) [] :=
  fun _ => iff_of_false (fun heq => nomatch heq) First.not_nil

/-- Where a step fails with an error of its own, that is the reason. -/
theorem of_forall {reason : ε → Prop} (h : ∀ e, x = .error e ↔ reason e) : Refused x [reason] :=
  fun e => (h e).trans First.singleton_iff.symm

theorem congr (h : Refused x reasons) (hiff : ∀ e, First reasons e ↔ First others e) :
    Refused x others :=
  fun e => (h e).trans (hiff e)

/-- The reasons of the next step count where the first step succeeds. -/
theorem bind {f : α → Except ε β} (h : Refused x reasons)
    (hnext : ∀ a, x = .ok a → Refused (f a) others) : Refused (x >>= f) (reasons ++ others) := by
  intro e
  rw [First.append_iff]
  cases hx : x with
  | error e' =>
      have hfirst : First reasons e' := (h e').mp hx
      have hnone : ¬((∀ e, ¬First reasons e) ∧ First others e) := fun hboth => hboth.1 e' hfirst
      rw [or_iff_left hnone, ← h e, hx, Success.error_bind, Except.error.injEq, Except.error.injEq]
  | ok a =>
      have hnone : ∀ e, ¬First reasons e := h.not_first hx
      rw [and_iff_right hnone, or_iff_right (hnone e)]
      exact hnext a hx e

theorem bind_cons {reason : ε → Prop} {f : α → Except ε β} (h : Refused x [reason])
    (hnext : ∀ a, x = .ok a → Refused (f a) others) : Refused (x >>= f) (reason :: others) :=
  h.bind hnext

/-- A next step that cannot fail adds no reason. -/
theorem bind_of_ok {f : α → Except ε β} (h : Refused x reasons)
    (hnext : ∀ a, x = .ok a → ∃ b, f a = .ok b) : Refused (x >>= f) reasons := by
  rw [← List.append_nil reasons]
  apply h.bind
  intro a ha
  obtain ⟨b, hb⟩ := hnext a ha
  rw [hb]
  exact ok b

/-- A check refuses with its error where its condition holds. -/
theorem check {p q : Prop} [Decidable p] {e : ε} {f : α → Except ε β} {rest : Except ε β}
    (hiff : q ↔ p) (h : ¬p → Refused rest reasons) :
    Refused (if p then throw e >>= f else rest) ((fun e' => q ∧ e' = e) :: reasons) := by
  intro e'
  by_cases hp : p
  · have hq : q := hiff.mpr hp
    have hhere : (q ∧ e' = e) ∨ (∀ e', ¬(q ∧ e' = e)) ∧ First reasons e' ↔ e' = e := by
      rw [and_iff_right hq, or_iff_left]
      exact fun hboth => hboth.1 e ⟨hq, rfl⟩
    rw [if_pos hp, First.cons_iff, hhere]
    change Except.error e = Except.error e' ↔ e' = e
    rw [Except.error.injEq, eq_comm]
  · have hq : ¬q := mt hiff.mp hp
    rw [if_neg hp, First.cons_iff, or_iff_right (fun hboth => hq hboth.1),
      and_iff_right fun _ hboth => hq hboth.1]
    exact h hp e'

theorem map_iff {f : α → β} : Refused (x.map f) reasons ↔ Refused x reasons := by
  have herror : ∀ e, x.map f = .error e ↔ x = .error e := by
    intro e
    cases x with
    | error e' => simp [Except.map]
    | ok a => simp [Except.map]
  simp only [Refused, herror]

/-- A list of steps is refused for the reasons of each in their order. -/
theorem mapM {f : α → Except ε β} {reasonsOf : α → List (ε → Prop)} {xs : List α}
    (h : ∀ x ∈ xs, Refused (f x) (reasonsOf x)) : Refused (xs.mapM f) (xs.flatMap reasonsOf) := by
  induction xs with
  | nil => exact ok []
  | cons x xs ih =>
      obtain ⟨hhead, htail⟩ := List.forall_mem_cons.mp h
      rw [List.mapM_cons, List.flatMap_cons]
      apply hhead.bind
      intro y _
      exact (ih htail).bind_of_ok fun ys _ => ⟨y :: ys, rfl⟩

theorem forM {f : α → Except ε Unit} {reasonsOf : α → List (ε → Prop)} {xs : List α}
    (h : ∀ x ∈ xs, Refused (f x) (reasonsOf x)) : Refused (xs.forM f) (xs.flatMap reasonsOf) := by
  induction xs with
  | nil => exact ok ()
  | cons x xs ih =>
      obtain ⟨hhead, htail⟩ := List.forall_mem_cons.mp h
      rw [List.flatMap_cons]
      exact hhead.bind fun _ _ => ih htail

end Refused

end Significance
