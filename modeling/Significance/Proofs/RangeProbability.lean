import Significance.Proofs.Quadrature

/-! # The probability of a range

The sum over the nodes of quadrature is a probability for every range above zero: none of its
operations leaves the real numbers, and each piece is run through from its first node to the first
one at which the density has vanished. -/

namespace Significance.Distribution.StudentizedRange

open Exact

/-! ## The parts of the sum -/

section

variable {α : Type} [Scalar α] (cdf : α → α) (w k : α)

/-- The chance that a value lies within `w / 2` of zero. -/
def inside : α :=
  2.0 * cdf (w * 0.5) - 1.0

/-- The chance that a value lies within the range `w` below `x`. -/
def within (x : α) : α :=
  cdf x - cdf (x - w)

/-- The share of a node in the sum over a piece. -/
def share (piece : Piece α) (node : Node α) : α :=
  node.weight * Scalar.exp (-0.5 * Scalar.square (piece.locate node)) *
    Scalar.pow (within cdf w (piece.locate node)) (k - 1.0)

/-- How many pieces the values above `w / 2` are divided into. -/
def pieceCount : ℕ :=
  if 3.0 < w then 2 else 3

/-- The pieces from `w / 2` to the reach of the sum. -/
def rangePieces : List (Piece α) :=
  let half := w * 0.5
  let length := (reach - half) / Scalar.ofNat (pieceCount w)
  pieces length (pieceCount w) half (half + length)

theorem centredMass_eq : centredMass cdf w k =
    if Scalar.exp (-50.0 / k) ≤ inside cdf w then Scalar.pow (inside cdf w) k else 0.0 := rfl

theorem pieceMass_eq (piece : Piece α) : pieceMass cdf w k piece =
    piece.nodes.foldl (fun sum node =>
        if Scalar.exp (-30.0 / (k - 1.0)) ≤ within cdf w (piece.locate node) then
          sum + share cdf w k piece node
        else sum) 0.0 *
      (2.0 * piece.halfLength * k * inverseRootTwoPi) := rfl

/-- The sum over the values within `w / 2` of zero and over all pieces. -/
def rangeMass : α :=
  centredMass cdf w k + (rangePieces w).foldl (fun sum piece => sum + pieceMass cdf w k piece) 0.0

theorem rangeBelow_eq : rangeBelow cdf w k =
    if reach ≤ w * 0.5 then 1.0
    else if rangeMass cdf w k ≤ Scalar.exp (-30.0) then 0.0
    else Scalar.minimum (rangeMass cdf w k) 1.0 := rfl

end

variable [Wording] {cdf : Exact → Exact} {Φ : ℝ → ℝ} {w k : ℝ}

/-- Whatever the arguments, the probability of a range is defined. -/
theorem isUndefined_rangeBelow (cdf : Exact → Exact) (w k : Exact) :
    Scalar.isUndefined (rangeBelow cdf w k) = false := by
  rw [rangeBelow_eq]
  split_ifs
  · exact isUndefined_real _
  · exact isUndefined_real _
  · exact isUndefined_minimum_one _

/-! ## The range of real values -/

/-- The distribution function of a real variable that is as often below zero as above. -/
structure IsCentred (cdf : Exact → Exact) (Φ : ℝ → ℝ) : Prop where
  real_eq : ∀ x, cdf (real x) = real (Φ x)
  strictMono : StrictMono Φ
  zero : Φ 0 = 1 / 2

theorem pieceCount_pos (w : Exact) : 0 < pieceCount w := by
  rw [pieceCount]
  split_ifs
  · exact two_pos
  · exact three_pos

theorem inside_pos (h : IsCentred cdf Φ) (hw : 0 < w) : Positive (inside cdf (real w)) := by
  have hlt : Φ 0 < Φ (w * 0.5) := h.strictMono (by linarith)
  rw [h.zero] at hlt
  refine ⟨2 * Φ (w * 0.5) - 1, by linarith, ?_⟩
  rw [inside, two_eq, one_eq, ofScientific_eq, real_mul, h.real_eq, real_mul, real_sub]

theorem within_pos (h : IsCentred cdf Φ) (hw : 0 < w) {x : Exact} (hx : Positive x) :
    Positive (within cdf (real w) x) := by
  obtain ⟨r, -, rfl⟩ := hx
  have hlt : Φ (r - w) < Φ r := h.strictMono (sub_lt_self r hw)
  refine ⟨Φ r - Φ (r - w), sub_pos.mpr hlt, ?_⟩
  simp only [within, h.real_eq, real_sub]

/-- Up to the reach of the sum the pieces lie side by side above half the range. -/
theorem ahead_of_mem_rangePieces (hw : 0 < w) (hreach : ¬reach ≤ real w * 0.5)
    {piece : Piece Exact} (h : piece ∈ rangePieces (real w)) : piece.Ahead := by
  have hcount : (0 : ℝ) < pieceCount (real w) := Nat.cast_pos.mpr (pieceCount_pos _)
  simp only [reach, ofScientific_eq, real_mul, real_le, not_le] at hreach
  have hlength : 0 < (8.0 - w * 0.5) / (pieceCount (real w) : ℝ) :=
    div_pos (sub_pos.mpr hreach) hcount
  simp only [rangePieces, reach, ofScientific_eq, ofNat_eq, real_mul, real_sub,
    real_div _ hcount.ne', real_add] at h
  exact ahead_of_mem_pieces hlength (by positivity) (lt_add_of_pos_right _ hlength) h

theorem centredMass_nonneg (h : IsCentred cdf Φ) (hw : 0 < w) (k : ℝ) :
    Nonnegative (centredMass cdf (real w) (real k)) := by
  obtain ⟨r, hr, hinside⟩ := inside_pos h hw
  rw [centredMass_eq, hinside]
  split_ifs
  · rw [pow_real hr]
    exact ⟨r ^ k, by positivity, rfl⟩
  · rw [zero_eq, nonnegative_real]

theorem share_nonneg (h : IsCentred cdf Φ) (hw : 0 < w) (k : ℝ) {piece : Piece Exact}
    (hpiece : piece.Ahead) {node : Node Exact} (hnode : node ∈ piece.nodes) :
    Nonnegative (share cdf (real w) (real k) piece node) := by
  have hinside := inside_of_mem_twelve (List.takeWhile_subset _ hnode)
  obtain ⟨x, hx, hlocate⟩ := hpiece.locate_pos hinside
  obtain ⟨r, hr, hwithin⟩ := within_pos h hw ⟨x, hx, rfl⟩
  obtain ⟨_, s, -, hs, rfl⟩ := hinside
  simp only [share, hwithin, hlocate, square_real, ofScientific_eq, real_neg, real_mul, exp_real,
    real_sub, pow_real hr]
  rw [nonnegative_real]
  positivity

theorem pieceMass_nonneg (h : IsCentred cdf Φ) (hw : 0 < w) (hk : 0 ≤ k) {piece : Piece Exact}
    (hpiece : piece.Ahead) : Nonnegative (pieceMass cdf (real w) (real k) piece) := by
  rw [pieceMass_eq]
  apply Nonnegative.mul
  · apply List.foldlRecOn
    · rw [zero_eq, nonnegative_real]
    -- A node below the cut-off leaves the sum as it is.
    · intro sum hsum node hnode
      split_ifs
      · exact hsum.add (share_nonneg h hw k hpiece hnode)
      · exact hsum
  · obtain ⟨_, half, hpos, -, rfl⟩ := hpiece
    simp only [inverseRootTwoPi, ofScientific_eq, real_mul, nonnegative_real]
    positivity

theorem rangeMass_nonneg (h : IsCentred cdf Φ) (hw : 0 < w) (hk : 0 ≤ k)
    (hreach : ¬reach ≤ real w * 0.5) : Nonnegative (rangeMass cdf (real w) (real k)) := by
  apply (centredMass_nonneg h hw k).add
  apply List.foldlRecOn
  · rw [zero_eq, nonnegative_real]
  · intro sum hsum piece hpiece
    exact hsum.add (pieceMass_nonneg h hw hk (ahead_of_mem_rangePieces hw hreach hpiece))

theorem rangeBelow_isProbability (h : IsCentred cdf Φ) (hw : 0 < w) (hk : 0 ≤ k) :
    IsProbability (rangeBelow cdf (real w) (real k)) := by
  rw [rangeBelow_eq]
  split_ifs with hreach hnone
  · simp
  · simp
  · exact (rangeMass_nonneg h hw hk hreach).minimum_one

/-- The sum for the probability of a range is sound: its divisors and the bases of its powers are
positive, and every piece is run through in increasing order of the nodes, up to those at which the
density has vanished. The first equations say what is summed up. -/
structure SoundRange (cdf : Exact → Exact) (w k : Exact) : Prop where
  below_eq : rangeBelow cdf w k =
    if reach ≤ w * 0.5 then 1.0
    else if rangeMass cdf w k ≤ Scalar.exp (-30.0) then 0.0
    else Scalar.minimum (rangeMass cdf w k) 1.0
  centred_eq : centredMass cdf w k =
    if Scalar.exp (-50.0 / k) ≤ StudentizedRange.inside cdf w then
      Scalar.pow (StudentizedRange.inside cdf w) k
    else 0.0
  piece_eq : ∀ piece, pieceMass cdf w k piece =
    piece.nodes.foldl (fun sum node =>
        if Scalar.exp (-30.0 / (k - 1.0)) ≤ StudentizedRange.within cdf w (piece.locate node) then
          sum + share cdf w k piece node
        else sum) 0.0 *
      (2.0 * piece.halfLength * k * inverseRootTwoPi)
  probability : IsProbability (rangeBelow cdf w k)
  values : Positive k
  others : Positive (k - 1.0)
  count : Positive (Scalar.ofNat (pieceCount w))
  inside : Positive (inside cdf w)
  mass : ¬reach ≤ w * 0.5 → Nonnegative (rangeMass cdf w k)
  within : ¬reach ≤ w * 0.5 → ∀ piece ∈ rangePieces w, ∀ node ∈ piece.nodes,
    Positive (within cdf w (piece.locate node))
  ascends : ¬reach ≤ w * 0.5 → ∀ piece ∈ rangePieces w,
    (twelve.map piece.locate).Pairwise (· < ·)
  stops : ¬reach ≤ w * 0.5 → ∀ piece ∈ rangePieces w,
    piece.nodes = twelve.filter fun node => ¬60.0 < Scalar.square (piece.locate node)

theorem soundRange (h : IsCentred cdf Φ) (hw : 0 < w) (hk : 2 ≤ k) :
    SoundRange cdf (real w) (real k) where
  below_eq := rangeBelow_eq cdf (real w) (real k)
  centred_eq := centredMass_eq cdf (real w) (real k)
  piece_eq := pieceMass_eq cdf (real w) (real k)
  probability := rangeBelow_isProbability h hw (by linarith)
  values := positive_real.mpr (by linarith)
  others := by
    rw [one_eq, real_sub, positive_real]
    linarith
  count := by
    rw [ofNat_eq, positive_real, Nat.cast_pos]
    exact pieceCount_pos _
  inside := inside_pos h hw
  mass := rangeMass_nonneg h hw (by linarith)
  within hreach piece hpiece node hnode :=
    within_pos h hw ((ahead_of_mem_rangePieces hw hreach hpiece).locate_pos
      (inside_of_mem_twelve (List.takeWhile_subset _ hnode)))
  ascends hreach _ hpiece := (ahead_of_mem_rangePieces hw hreach hpiece).locate_ascends
  stops hreach _ hpiece := (ahead_of_mem_rangePieces hw hreach hpiece).nodes_eq

end Significance.Distribution.StudentizedRange
