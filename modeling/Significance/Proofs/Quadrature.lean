import Significance.Distribution.StudentizedRange
import Significance.Proofs.Positive

/-! # The rules of quadrature

Which nodes the two rules have, in which order and with which weights, and where the nodes of the
first one fall in the pieces of an interval. -/

namespace Significance.Distribution.StudentizedRange

open Exact

section

variable {α : Type} [Scalar α]

/-- The rule of order twelve counts its table up and then down. A node has the weight that the table
has for its place. -/
theorem getElem?_twelve {j : ℕ} (hj : j < 12) : (twelve : List (Node α))[j]? =
    if j < 6 then halfOfTwelve[j]?.map Node.mirrored else halfOfTwelve[11 - j]? := by
  have hlength : (halfOfTwelve : List (Node α)).length = 6 := rfl
  rw [twelve, List.getElem?_append, List.length_map, hlength, List.getElem?_map]
  split_ifs with h
  · rfl
  · rw [List.getElem?_reverse (by omega), hlength]
    congr 1
    omega

/-- The rule of order sixteen counts its table up twice. -/
theorem getElem?_sixteen (j : ℕ) : (sixteen : List (Node α))[j]? =
    if j < 8 then halfOfSixteen[j]?.map Node.mirrored else halfOfSixteen[j - 8]? := by
  have hlength : (halfOfSixteen : List (Node α)).length = 8 := rfl
  rw [sixteen, List.getElem?_append, List.length_map, hlength, List.getElem?_map]

end

/-- Taking members while a test holds leaves out only failing ones where all that follow a failing
one fail as well. -/
theorem takeWhile_eq_filter {β : Type*} {p : β → Bool} {xs : List β}
    (h : xs.Pairwise fun a b => p b = true → p a = true) : xs.takeWhile p = xs.filter p := by
  induction h with
  | nil => rfl
  | @cons a xs hhead _ ih =>
      cases ha : p a with
      | true => rw [List.takeWhile_cons_of_pos ha, List.filter_cons_of_pos ha, ih]
      | false =>
          have hxs : ∀ b ∈ xs, ¬p b = true := by
            intro b hb hpb
            have hpa := hhead b hb hpb
            rw [ha] at hpa
            exact Bool.noConfusion hpa
          have hneg : ¬p a = true := by simp [ha]
          rw [List.takeWhile_cons_of_neg hneg, List.filter_cons_of_neg hneg,
            List.filter_eq_nil_iff.mpr hxs]

variable [Wording]

/-! ## Places and weights -/

/-- The node is strictly between `-1` and `1`, and its weight is positive. -/
def Node.Inside (node : Node Exact) : Prop :=
  ∃ t s : ℝ, (-1 < t ∧ t < 1) ∧ 0 < s ∧ node = ⟨real t, real s⟩

/-- The positive nodes of a rule, from the end of the interval inwards. -/
structure IsHalf (nodes : List (Node Exact)) : Prop where
  inside : ∀ node ∈ nodes, ∃ t s : ℝ, (0 < t ∧ t < 1) ∧ 0 < s ∧ node = ⟨real t, real s⟩
  descends : nodes.Pairwise fun a b => b.place < a.place

namespace IsHalf

variable {half : List (Node Exact)} {a b : Node Exact}

theorem inside_of_mem (h : IsHalf half) (ha : a ∈ half.map Node.mirrored ∨ a ∈ half) :
    a.Inside := by
  rcases ha with ha | ha
  · obtain ⟨node, hnode, rfl⟩ := List.mem_map.mp ha
    obtain ⟨t, s, ht, hs, rfl⟩ := h.inside node hnode
    exact ⟨-t, s, ⟨by linarith [ht.2], by linarith [ht.1]⟩, hs, rfl⟩
  · obtain ⟨t, s, ht, hs, rfl⟩ := h.inside a ha
    exact ⟨t, s, ⟨by linarith [ht.1], ht.2⟩, hs, rfl⟩

theorem mirrored_ascends (h : IsHalf half) :
    (half.map Node.mirrored).Pairwise fun a b => a.place < b.place := by
  rw [List.pairwise_map]
  apply h.descends.imp_of_mem
  intro a b ha hb hlt
  obtain ⟨t, _, -, -, rfl⟩ := h.inside a ha
  obtain ⟨u, _, -, -, rfl⟩ := h.inside b hb
  have hneg : -t < -u := neg_lt_neg (real_lt u t |>.mp hlt)
  exact hneg

theorem mirrored_lt (h : IsHalf half) (ha : a ∈ half.map Node.mirrored) (hb : b ∈ half) :
    a.place < b.place := by
  obtain ⟨node, hnode, rfl⟩ := List.mem_map.mp ha
  obtain ⟨t, _, ht, -, rfl⟩ := h.inside node hnode
  obtain ⟨u, _, hu, -, rfl⟩ := h.inside b hb
  have hlt : -t < u := by linarith [ht.1, hu.1]
  exact hlt

/-- Counted up and then down, the nodes are in increasing order. -/
theorem ascends (h : IsHalf half) :
    (half.map Node.mirrored ++ half.reverse).Pairwise fun a b => a.place < b.place := by
  rw [List.pairwise_append]
  refine ⟨h.mirrored_ascends, List.pairwise_reverse.mpr h.descends, ?_⟩
  intro a ha b hb
  exact h.mirrored_lt ha (List.mem_reverse.mp hb)

/-- Counted up twice, no two nodes are at the same place. -/
theorem distinct (h : IsHalf half) : (half.map Node.mirrored ++ half).Pairwise fun a b =>
    a.place < b.place ∨ b.place < a.place := by
  rw [List.pairwise_append]
  refine ⟨h.mirrored_ascends.imp .inl, h.descends.imp .inr, ?_⟩
  intro a ha b hb
  exact .inl (h.mirrored_lt ha hb)

end IsHalf

theorem isHalf_twelve : IsHalf halfOfTwelve := by
  constructor
  · intro node hnode
    simp only [halfOfTwelve, List.mem_cons, List.not_mem_nil, or_false] at hnode
    rcases hnode with rfl | rfl | rfl | rfl | rfl | rfl
    all_goals exact ⟨_, _, by norm_num, by norm_num, rfl⟩
  · simp only [halfOfTwelve, ofScientific_eq]
    norm_num

theorem isHalf_sixteen : IsHalf halfOfSixteen := by
  constructor
  · intro node hnode
    simp only [halfOfSixteen, List.mem_cons, List.not_mem_nil, or_false] at hnode
    rcases hnode with rfl | rfl | rfl | rfl | rfl | rfl | rfl | rfl
    all_goals exact ⟨_, _, by norm_num, by norm_num, rfl⟩
  · simp only [halfOfSixteen, ofScientific_eq]
    norm_num

theorem inside_of_mem_twelve {node : Node Exact} (h : node ∈ twelve) : node.Inside :=
  IsHalf.inside_of_mem isHalf_twelve ((List.mem_append.mp h).imp_right List.mem_reverse.mp)

theorem inside_of_mem_sixteen {node : Node Exact} (h : node ∈ sixteen) : node.Inside :=
  IsHalf.inside_of_mem isHalf_sixteen (List.mem_append.mp h)

theorem twelve_ascends : twelve.Pairwise fun a b : Node Exact => a.place < b.place :=
  IsHalf.ascends isHalf_twelve

theorem sixteen_distinct :
    sixteen.Pairwise fun a b : Node Exact => a.place < b.place ∨ b.place < a.place :=
  IsHalf.distinct isHalf_sixteen

/-! ## Pieces -/

/-- The piece has a length and lies ahead of zero. -/
def Piece.Ahead (piece : Piece Exact) : Prop :=
  ∃ m b : ℝ, 0 < b ∧ b ≤ m ∧ piece = ⟨real m, real b⟩

theorem ahead_of_mem_pieces {length : ℝ} (hlength : 0 < length) {count : ℕ} {lower upper : ℝ}
    (hlower : 0 ≤ lower) (hlt : lower < upper) {piece : Piece Exact}
    (h : piece ∈ pieces (real length) count (real lower) (real upper)) : piece.Ahead := by
  induction count generalizing lower upper with
  | zero => exact absurd h List.not_mem_nil
  | succ count ih =>
      rcases List.mem_cons.mp h with rfl | h
      · refine ⟨0.5 * (upper + lower), 0.5 * (upper - lower), by linarith, by linarith, ?_⟩
        simp only [ofScientific_eq, real_add, real_sub, real_mul]
      · exact ih (hlower.trans hlt.le) (lt_add_of_pos_right upper hlength) h

namespace Piece.Ahead

variable {piece : Piece Exact} {a b : Node Exact}

theorem locate_lt (h : piece.Ahead) (ha : a.Inside) (hb : b.Inside) (hlt : a.place < b.place) :
    piece.locate a < piece.locate b := by
  obtain ⟨middle, half, hpos, -, rfl⟩ := h
  obtain ⟨t, _, -, -, rfl⟩ := ha
  obtain ⟨u, _, -, -, rfl⟩ := hb
  have hmul : half * t < half * u := mul_lt_mul_of_pos_left hlt hpos
  have hadd : middle + half * t < middle + half * u := by linarith
  exact hadd

theorem locate_pos (h : piece.Ahead) (ha : a.Inside) : Positive (piece.locate a) := by
  obtain ⟨middle, half, hpos, hle, rfl⟩ := h
  obtain ⟨t, _, ht, -, rfl⟩ := ha
  have hmul : half * -1 < half * t := mul_lt_mul_of_pos_left ht.1 hpos
  exact ⟨middle + half * t, by linarith, rfl⟩

/-- The nodes fall in a piece in increasing order. -/
theorem locate_ascends (h : piece.Ahead) : (twelve.map piece.locate).Pairwise (· < ·) := by
  rw [List.pairwise_map]
  apply twelve_ascends.imp_of_mem
  intro a b ha hb hlt
  exact h.locate_lt (inside_of_mem_twelve ha) (inside_of_mem_twelve hb) hlt

end Piece.Ahead

/-- Stopping at the first node at which the density has vanished drops just the nodes at which it
has. -/
theorem Piece.Ahead.nodes_eq {piece : Piece Exact} (h : piece.Ahead) :
    piece.nodes = twelve.filter fun node => ¬60.0 < Scalar.square (piece.locate node) := by
  rw [Piece.nodes, takeWhile_eq_filter]
  · exact List.filter_congr fun node _ => by simp
  -- A later node is further from zero, so where the density has not vanished it had not before.
  · apply twelve_ascends.imp_of_mem
    intro a b ha hb hlt hkept
    obtain ⟨x, hx, hxa⟩ := h.locate_pos (inside_of_mem_twelve ha)
    obtain ⟨y, hy, hyb⟩ := h.locate_pos (inside_of_mem_twelve hb)
    have hxy := h.locate_lt (inside_of_mem_twelve ha) (inside_of_mem_twelve hb) hlt
    rw [hxa, hyb, real_lt] at hxy
    have hsq : x ^ 2 ≤ y ^ 2 := pow_le_pow_left₀ hx.le hxy.le 2
    simp only [hxa, hyb, ofScientific_eq, square_real, real_lt, Bool.not_eq_true',
      decide_eq_false_iff_not, not_lt] at hkept ⊢
    exact hsq.trans hkept

end Significance.Distribution.StudentizedRange
