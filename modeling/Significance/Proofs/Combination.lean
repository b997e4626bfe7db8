import Mathlib.Data.List.Chain
import Mathlib.Data.List.Sort
import Mathlib.Data.List.Sublists
import Mathlib.Data.Nat.Choose.Bounds
import Significance.Combination

/-! # Combinations of positions

One turn goes from a combination to the next one in the order of words: what stands at its last
places is lined up again behind the entry that moves. So all turns together go through the sublists
of the positions, without ever reading or subtracting what is not there. -/

namespace Significance.Combination

open List

/-! ## Sublists of a length -/

/-- The sublists with `k` members, those with earlier members first. -/
def choose {β : Type} : ℕ → List β → List (List β)
  | 0, _ => [[]]
  | _ + 1, [] => []
  | k + 1, x :: rest => (choose k rest).map (x :: ·) ++ choose (k + 1) rest

/-- The sublists of a length, in another order than the library's. -/
theorem choose_perm {β : Type} (k : ℕ) (xs : List β) : choose k xs ~ sublistsLen k xs := by
  induction xs generalizing k with
  | nil =>
      cases k with
      | zero => simp [choose]
      | succ k => simp [choose]
  | cons x xs ih =>
      cases k with
      | zero => simp [choose]
      | succ k =>
          rw [choose, sublistsLen_succ_cons]
          exact (((ih k).map _).append (ih (k + 1))).trans perm_append_comm

theorem mem_choose {β : Type} {k : ℕ} {xs ys : List β} :
    ys ∈ choose k xs ↔ ys <+ xs ∧ ys.length = k := by
  rw [(choose_perm k xs).mem_iff, mem_sublistsLen]

theorem nodup_choose {β : Type} (k : ℕ) {xs : List β} (h : xs.Nodup) : (choose k xs).Nodup :=
  (choose_perm k xs).nodup_iff.mpr (nodup_sublistsLen k h)

theorem length_choose {β : Type} (k : ℕ) (xs : List β) :
    (choose k xs).length = xs.length.choose k := by
  rw [(choose_perm k xs).length_eq, length_sublistsLen]

theorem choose_of_lt {β : Type} {k : ℕ} {xs : List β} (h : xs.length < k) : choose k xs = [] := by
  rw [← length_eq_zero_iff, length_choose, Nat.choose_eq_zero_of_lt h]

theorem choose_one {β : Type} (xs : List β) : choose 1 xs = xs.map fun x => [x] := by
  induction xs with
  | nil => rfl
  | cons x xs ih => simp [choose, ih]

theorem choose_map {β γ : Type} (f : β → γ) (k : ℕ) (xs : List β) :
    choose k (xs.map f) = (choose k xs).map (List.map f) := by
  induction xs generalizing k with
  | nil =>
      cases k with
      | zero => rfl
      | succ k => rfl
  | cons x xs ih =>
      cases k with
      | zero => rfl
      | succ k => simp [choose, ih]

/-- The sublists of increasing numbers stand in the order of words. -/
theorem pairwise_choose (k : ℕ) {xs : List ℕ} (h : xs.Pairwise (· < ·)) :
    (choose k xs).Pairwise (· < ·) := by
  induction xs generalizing k with
  | nil =>
      cases k with
      | zero => simp [choose]
      | succ k => simp [choose]
  | cons x xs ih =>
      obtain ⟨hhead, htail⟩ := pairwise_cons.mp h
      cases k with
      | zero => simp [choose]
      | succ k =>
          rw [choose, pairwise_append, pairwise_map]
          refine ⟨(ih k htail).imp fun hlt => cons_lt_cons_iff.mpr (Or.inr ⟨rfl, hlt⟩),
            ih (k + 1) htail, ?_⟩
          intro ys hys zs hzs
          obtain ⟨ws, -, rfl⟩ := mem_map.mp hys
          obtain ⟨hsub, hlength⟩ := mem_choose.mp hzs
          cases zs with
          | nil => simp at hlength
          | cons z zs => exact cons_lt_cons_iff.mpr (Or.inl (hhead z (hsub.subset (by simp))))

/-- The combinations of positions are their increasing lists. -/
theorem mem_choose_range {n k : ℕ} {places : List ℕ} :
    places ∈ choose k (range n) ↔
      places.Pairwise (· < ·) ∧ places.length = k ∧ ∀ place ∈ places, place < n := by
  rw [mem_choose]
  constructor
  · rintro ⟨hsub, hlength⟩
    exact ⟨pairwise_lt_range.sublist hsub, hlength, fun place hplace =>
      mem_range.mp (hsub.subset hplace)⟩
  · rintro ⟨hpairwise, hlength, hlt⟩
    have hsubset : places ⊆ range n := fun place hplace => mem_range.mpr (hlt place hplace)
    have hnodup : places.Nodup := hpairwise.imp ne_of_lt
    exact ⟨sublist_of_subperm_of_pairwise (hnodup.subperm hsubset) hpairwise pairwise_lt_range,
      hlength⟩

/-! ## One turn -/

/-- The entries behind the one that moves stand at their last places, and it does not. -/
inductive Turn (n : ℕ) : List ℕ → List ℕ → Prop
  | intro (front : List ℕ) (place count : ℕ) (h : place + count + 1 < n) :
    Turn n (front ++ place :: range' (n - count) count) (front ++ range' (place + 1) (count + 1))

theorem Turn.cons {n : ℕ} {places next : List ℕ} (h : Turn n places next) (first : ℕ) :
    Turn n (first :: places) (first :: next) := by
  cases h with
  | intro front place count h => exact Turn.intro (first :: front) place count h

theorem Turn.length_eq {n : ℕ} {places next : List ℕ} (h : Turn n places next) :
    next.length = places.length := by
  cases h with
  | intro front place count h => simp

theorem difference?_eq {a b : ℕ} (h : b ≤ a) : difference? a b = some (a - b) :=
  if_pos h

theorem movable?_succ {n k : ℕ} {places : List ℕ} {i place : ℕ} (hplace : places[i]? = some place)
    (hk : k ≤ i + n) :
    movable? n k places (i + 1) =
      if place = i + n - k then movable? n k places i else some (i + 1) := by
  rw [movable?, hplace, difference?_eq hk]
  rfl

/-- Entries at their last places are passed over. -/
theorem movable?_last (front : List ℕ) {n count : ℕ} (hcount : count ≤ n) {j : ℕ}
    (hj : j ≤ count) :
    movable? n (front.length + count) (front ++ range' (n - count) count) (front.length + j) =
      movable? n (front.length + count) (front ++ range' (n - count) count) front.length := by
  induction j with
  | zero => rfl
  | succ j ih =>
      have hplace : (front ++ range' (n - count) count)[front.length + j]? =
          some (n - count + j) := by
        rw [getElem?_append_right (by omega), Nat.add_sub_cancel_left,
          getElem?_range' (by omega), one_mul]
      rw [← Nat.add_assoc, movable?_succ hplace (by omega), if_pos (by omega), ih (by omega)]

theorem lineUp?_eq (front : List ℕ) (place : ℕ) (behind : List ℕ) :
    lineUp? behind.length (front.length + 1) (front ++ place :: behind) =
      some (front ++ range' place (behind.length + 1)) := by
  induction behind generalizing front place with
  | nil => rfl
  | cons old behind ih =>
      have hset : (front ++ place :: old :: behind).set (front.length + 1) (place + 1) =
          front ++ place :: (place + 1) :: behind := by
        rw [set_append_right _ _ (by omega)]
        simp
      have hreplace : replace? (front ++ place :: old :: behind) (front.length + 1) (place + 1) =
          some (front ++ place :: (place + 1) :: behind) := by
        rw [replace?, if_pos (by simp), hset]
      have hlonger : lineUp? behind.length (front.length + 1 + 1)
          (front ++ place :: (place + 1) :: behind) =
            some (front ++ place :: range' (place + 1) (behind.length + 1)) := by
        simpa using ih (front ++ [place]) (place + 1)
      rw [length_cons, lineUp?, difference?_eq (by omega)]
      simp [hreplace, hlonger, range'_succ]

theorem turn?_eq {n : ℕ} {places next : List ℕ} (h : Turn n places next) :
    turn? n places.length places = some (some next) := by
  cases h with
  | intro front place count h =>
      have hlength : (front ++ place :: range' (n - count) count).length =
          front.length + 1 + count := by
        simp
        omega
      have hmovable : movable? n (front.length + 1 + count)
          (front ++ place :: range' (n - count) count) (front.length + 1 + count) =
            some (front.length + 1) := by
        have hcount : count ≤ n := by omega
        have hlast := movable?_last (front ++ [place]) hcount le_rfl
        rw [append_assoc, singleton_append, length_append, length_singleton] at hlast
        have hplace : (front ++ place :: range' (n - count) count)[front.length]? = some place := by
          simp
        rw [hlast, movable?_succ hplace (by omega), if_neg (by omega)]
      have hreplace : replace? (front ++ place :: range' (n - count) count) front.length
          (place + 1) = some (front ++ (place + 1) :: range' (n - count) count) := by
        simp [replace?]
      have hline := lineUp?_eq front (place + 1) (range' (n - count) count)
      rw [length_range'] at hline
      rw [hlength, turn?, hmovable]
      simp [difference?, hreplace, hline]

/-- No entry of the last combination moves. -/
theorem turn?_last {n k : ℕ} (h : k ≤ n) : turn? n k (range' (n - k) k) = some none := by
  have hlast := movable?_last [] h le_rfl
  rw [nil_append, length_nil, Nat.zero_add] at hlast
  rw [turn?, hlast, movable?]
  rfl

/-! ## All turns -/

/-- A list of combinations, each the next one to that before it, up to the last. -/
structure Walks (n k : ℕ) (first : List ℕ) (places : List (List ℕ)) : Prop where
  chain : places.IsChain (Turn n)
  head : places.head? = some first
  last : places.getLast? = some (range' (n - k) k)

theorem walk?_eq {n k : ℕ} (hk : k ≤ n) {places : List ℕ} {rest : List (List ℕ)}
    (hwalks : Walks n k places (places :: rest)) (hlength : places.length = k) {limit : ℕ}
    (hlimit : rest.length < limit) : walk? n k limit places = some (places :: rest) := by
  induction rest generalizing places limit with
  | nil =>
      obtain ⟨limit, rfl⟩ := Nat.exists_eq_succ_of_ne_zero (Nat.ne_zero_of_lt hlimit)
      obtain rfl : places = range' (n - k) k := by simpa using hwalks.last
      rw [walk?, turn?_last hk]
      rfl
  | cons next rest ih =>
      obtain ⟨limit, rfl⟩ := Nat.exists_eq_succ_of_ne_zero (Nat.ne_zero_of_lt hlimit)
      obtain ⟨hturn, hchain⟩ := isChain_cons_cons.mp hwalks.chain
      have hrest : Walks n k next (next :: rest) :=
        ⟨hchain, rfl, by simpa using hwalks.last⟩
      have hnext := ih hrest (hturn.length_eq.trans hlength) (Nat.lt_of_succ_lt_succ hlimit)
      rw [walk?, ← hlength, turn?_eq hturn, hlength]
      simp [hnext]

/-- The combinations of consecutive positions walk from those at the start to those at the end. -/
theorem walks_choose {k count : ℕ} (hk : k ≤ count) (start : ℕ) :
    Walks (start + count) k (range' start k) (choose k (range' start count)) := by
  induction count generalizing k start with
  | zero =>
      obtain rfl := Nat.le_zero.mp hk
      exact ⟨isChain_singleton _, rfl, rfl⟩
  | succ count ih =>
      cases k with
      | zero => exact ⟨isChain_singleton _, rfl, rfl⟩
      | succ k =>
          have hn : start + 1 + count = start + (count + 1) := by omega
          have hwith := ih (Nat.le_of_succ_le_succ hk) (start + 1)
          rw [hn] at hwith
          have hchain : ((choose k (range' (start + 1) count)).map (start :: ·)).IsChain
              (Turn (start + (count + 1))) :=
            isChain_map_of_isChain (start :: ·) (fun _ _ h => Turn.cons h start) hwith.chain
          have hsplit : choose (k + 1) (range' start (count + 1)) =
              (choose k (range' (start + 1) count)).map (start :: ·) ++
                choose (k + 1) (range' (start + 1) count) := by
            rw [range'_succ, choose]
          rw [hsplit]
          by_cases hle : k + 1 ≤ count
          · have hwithout := ih hle (start + 1)
            rw [hn] at hwithout
            refine ⟨hchain.append hwithout.chain ?_, ?_, ?_⟩
            · -- The first entry moves once all behind it stand at their last places.
              intro places hplaces next hnext
              rw [getLast?_map, hwith.last] at hplaces
              rw [hwithout.head] at hnext
              obtain rfl := Option.some.inj hplaces
              obtain rfl := Option.some.inj hnext
              exact Turn.intro [] start k (by omega)
            · rw [head?_append, head?_map, hwith.head]
              rfl
            · rw [getLast?_append, hwithout.last]
              rfl
          · have hnone : choose (k + 1) (range' (start + 1) count) = [] :=
              choose_of_lt (by rw [length_range']; omega)
            have hlast : start + (count + 1) - k = start + 1 := by omega
            have hstart : start + (count + 1) - (k + 1) = start := by omega
            rw [hnone, append_nil]
            refine ⟨hchain, ?_, ?_⟩
            · rw [head?_map, hwith.head]
              rfl
            · rw [getLast?_map, hwith.last, hlast, hstart]
              rfl

/-- All combinations are found. -/
theorem all?_eq (n : ℕ) {k : ℕ} (hk : 0 < k) : all? n k = some (choose k (range n)) := by
  by_cases hlt : n < k
  · rw [all?, if_pos (Or.inr hlt), choose_of_lt (by simpa using hlt)]
  · have hle : k ≤ n := not_lt.mp hlt
    have hwalks := walks_choose hle 0
    rw [Nat.zero_add, ← range_eq_range', ← range_eq_range'] at hwalks
    obtain ⟨rest, hrest⟩ := head?_eq_some_iff.mp hwalks.head
    have hlength : (choose k (range n)).length ≤ 2 ^ n := by
      rw [length_choose, length_range]
      exact Nat.choose_le_two_pow n k
    rw [hrest] at hwalks hlength
    rw [all?, if_neg (by omega), hrest]
    exact walk?_eq hle hwalks length_range hlength

end Significance.Combination
