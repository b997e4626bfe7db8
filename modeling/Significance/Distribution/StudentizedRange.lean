import Significance.Scalar

/-!
# The studentized range

The range of `k` independent standard normal values, and that range over an independent estimate of
the scale with `df` degrees of freedom. Both distribution functions are sums over Gauss-Legendre
nodes, piece by piece; the quantile is found by the secant method. The normal distribution function
and the logarithm of the gamma function are arguments here.
-/

namespace Significance.Distribution.StudentizedRange

variable {α : Type} [Scalar α]

/-- A point of a quadrature rule on `[-1, 1]` and its weight. -/
structure Node (α : Type) where
  place : α
  weight : α

/-- The node on the other side of zero. -/
def Node.mirrored (node : Node α) : Node α :=
  { node with place := -node.place }

/-- The positive nodes of the rule of order twelve, from the end of the interval inwards. -/
def halfOfTwelve : List (Node α) :=
  [⟨0.981560634246719250690549090149, 0.047175336386511827194615961485⟩,
    ⟨0.904117256370474856678465866119, 0.106939325995318430960254718194⟩,
    ⟨0.769902674194304687036893833213, 0.160078328543346226334652529543⟩,
    ⟨0.587317954286617447296702418941, 0.203167426723065921749064455810⟩,
    ⟨0.367831498998180193752691536644, 0.233492536538354808760849898925⟩,
    ⟨0.125233408511468915472441369464, 0.249147045813402785000562436043⟩]

/-- The positive nodes of the rule of order sixteen, from the end of the interval inwards. -/
def halfOfSixteen : List (Node α) :=
  [⟨0.989400934991649932596154173450, 0.0271524594117540948517805724560⟩,
    ⟨0.944575023073232576077988415535, 0.0622535239386478928628438369944⟩,
    ⟨0.865631202387831743880467897712, 0.0951585116824927848099251076022⟩,
    ⟨0.755404408355003033895101194847, 0.124628971255533872052476282192⟩,
    ⟨0.617876244402643748446671764049, 0.149595988816576732081501730547⟩,
    ⟨0.458016777657227386342419442984, 0.169156519395002538189312079030⟩,
    ⟨0.281603550779258913230460501460, 0.182603415044923588866763667969⟩,
    ⟨0.0950125098376374401853193354250, 0.189450610455068496285396723208⟩]

/-- The rule of order twelve, its nodes in increasing order. -/
def twelve : List (Node α) :=
  halfOfTwelve.map Node.mirrored ++ halfOfTwelve.reverse

/-- The rule of order sixteen: the lower half and then the upper half, each inwards. -/
def sixteen : List (Node α) :=
  halfOfSixteen.map Node.mirrored ++ halfOfSixteen

/-- One over the square root of `2 * π`. -/
def inverseRootTwoPi : α := 0.3989422804014327

/-- Beyond half a range of this many standard deviations nothing is left. -/
def reach : α := 8.0

/-- A piece of the integration range: its middle and half its length. -/
structure Piece (α : Type) where
  middle : α
  halfLength : α

/-- `count` pieces of equal length side by side from `lower` on. -/
def pieces (length : α) : Nat → α → α → List (Piece α)
  | 0, _, _ => []
  | count + 1, lower, upper =>
    ⟨0.5 * (upper + lower), 0.5 * (upper - lower)⟩ :: pieces length count upper (upper + length)

/-- Where a node falls in a piece. -/
def Piece.locate (piece : Piece α) (node : Node α) : α :=
  piece.middle + piece.halfLength * node.place

/-- The nodes of the rule of order twelve up to the first at which the normal density, whose
exponent is half the negative square, has vanished. -/
def Piece.nodes (piece : Piece α) : List (Node α) :=
  twelve.takeWhile fun node => !(60.0 < Scalar.square (piece.locate node))

section Range

variable (cdf : α → α)

/-- The chance that the largest value lies in the piece and all others within the range `w` below
it. -/
@[specialize] def pieceMass (w k : α) (piece : Piece α) : α :=
  let sum := piece.nodes.foldl
    (fun sum node =>
      let x := piece.locate node
      let others := k - 1.0
      let within := cdf x - cdf (x - w)
      if Scalar.exp (-30.0 / others) ≤ within then
        sum + node.weight * Scalar.exp (-0.5 * Scalar.square x) * Scalar.pow within others
      else sum)
    0.0
  sum * (2.0 * piece.halfLength * k * inverseRootTwoPi)

/-- The chance that all `k` values lie within `w / 2` of zero. -/
@[specialize] def centredMass (w k : α) : α :=
  let inside := 2.0 * cdf (w * 0.5) - 1.0
  if Scalar.exp (-50.0 / k) ≤ inside then Scalar.pow inside k else 0.0

/-- The probability that the range of `k` standard normal values is below `w`. -/
@[specialize] def rangeBelow (w k : α) : α :=
  let half := w * 0.5
  if reach ≤ half then 1.0
  else
    let count := if 3.0 < w then 2 else 3
    let length := (reach - half) / Scalar.ofNat count
    let outer := (pieces length count half (half + length)).foldl
      (fun sum piece => sum + pieceMass cdf w k piece) 0.0
    let mass := centredMass cdf w k + outer
    if mass ≤ Scalar.exp (-30.0) then 0.0 else Scalar.minimum mass 1.0

end Range

/-- Half the length of the pieces over which the scale is integrated: shorter for more degrees of
freedom, where its density is steeper. -/
def scaleStep (df : α) : α :=
  if df ≤ 100.0 then 1.0
  else if df ≤ 800.0 then 0.5
  else if df ≤ 5000.0 then 0.25
  else 0.125

/-- The natural logarithm of two. -/
def logTwo : α := 0.693147180559945309417232121458

section Studentized

variable (cdf logGamma : α → α)

/-- The logarithm of the factor of the density of the scale. -/
@[specialize] def logFactor (df : α) : α :=
  let half := df * 0.5
  half * Scalar.log df - df * logTwo - logGamma half + Scalar.log (scaleStep df)

/-- The part of the probability that comes from the piece of the scale around `middle`. -/
@[specialize] def scaleMass (q k df factor step middle : α) : α :=
  sixteen.foldl
    (fun sum node =>
      let u := middle + node.place * step
      let exponent := factor + (df * 0.5 - 1.0) * Scalar.log u - u * (df * 0.25)
      if -30.0 ≤ exponent then
        sum + rangeBelow cdf (q * Scalar.sqrt (u * 0.5)) k * node.weight * Scalar.exp exponent
      else sum)
    0.0

/-- Adds up pieces of the scale from piece `i` on. It ends at a piece that adds nothing, once the
left tail of the scale is behind. -/
@[specialize] def scaleMasses (q k df factor step : α) : Nat → Nat → α → α
  | 0, _, sum => sum
  | fuel + 1, i, sum =>
    let mass := scaleMass cdf q k df factor step (Scalar.ofNat (2 * i - 1) * step)
    if 1.0 ≤ Scalar.ofNat i * step ∧ mass ≤ 1e-14 then sum
    else scaleMasses q k df factor step fuel (i + 1) (sum + mass)

/-- The probability that the studentized range is below `q`, for two values and two degrees of
freedom at least. Above 25000 degrees of freedom the scale counts as known. -/
@[specialize] def below (q k df : α) : α :=
  if Scalar.isUndefined q ∨ k < 2.0 ∨ df < 2.0 then Scalar.undefined
  else if q ≤ 0.0 then 0.0
  else if !Scalar.isFinite q then 1.0
  else if 25000.0 < df then rangeBelow cdf q k
  else
    Scalar.minimum
      (scaleMasses cdf q k df (logFactor logGamma df) (scaleStep df) 50 1 0.0) 1.0

/-- An approximation of the quantile, from which the search starts. -/
def initialQuantile (p k df : α) : α :=
  let tail := 0.5 - 0.5 * p
  let y := Scalar.sqrt (Scalar.log (1.0 / (tail * tail)))
  let numerator :=
    (((y * -0.453642210148e-4 + -0.204231210125) * y + -0.342242088547) * y + -1.0) * y
      + 0.322232421088
  let denominator :=
    (((y * 0.38560700634e-2 + 0.103537752850) * y + 0.531103462366) * y + 0.588581570495) * y
      + 0.993484626060e-1
  let normal := y + numerator / denominator
  let t := if df < 120.0 then normal + (normal * normal * normal + normal) / df / 4.0 else normal
  let slope := 0.8832 - 0.2368 * t
  let slope := if df < 120.0 then slope + (-1.214 / df + 1.208 * t / df) else slope
  t * (slope * Scalar.log (k - 1.0) + 1.4142)

/-- Follows secants of the distribution function from the points `x₀` and `x₁`, where it exceeds `p`
by `v₀` and `v₁`, until two successive points are closer than `0.0001`. -/
@[specialize] def secant (p k df : α) : Nat → α → α → α → α → α
  | 0, _, _, x₁, _ => x₁
  | fuel + 1, x₀, v₀, x₁, v₁ =>
    let x := x₁ - (v₁ * (x₁ - x₀)) / (v₁ - v₀)
    let x := if x < 0.0 then 0.0 else x
    if Scalar.abs (x - x₁) < 0.0001 then x
    else secant p k df fuel x₁ v₁ x (below cdf logGamma x k df - p)

/-- The value that the studentized range stays below with probability `p`. -/
@[specialize] def quantile (p k df : α) : α :=
  if Scalar.isUndefined p ∨ k < 2.0 ∨ df < 2.0 ∨ ¬(0.0 ≤ p ∧ p ≤ 1.0) then Scalar.undefined
  else if p ≤ 0.0 then 0.0
  else if 1.0 ≤ p then Scalar.infinity
  else
    let x₀ := initialQuantile p k df
    let v₀ := below cdf logGamma x₀ k df - p
    let x₁ := if 0.0 < v₀ then Scalar.maximum (x₀ - 1.0) 0.0 else x₀ + 1.0
    secant cdf logGamma p k df 49 x₀ v₀ x₁ (below cdf logGamma x₁ k df - p)

end Studentized

end Significance.Distribution.StudentizedRange
