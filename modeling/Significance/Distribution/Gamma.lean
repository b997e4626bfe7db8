/-!
# The logarithm of the gamma function
-/

namespace Significance.Distribution.Gamma

/-- The coefficients of a partial fraction expansion of the gamma function, the constant first. -/
def coefficients : List Float :=
  [2.48574089138753565546e-5, 1.05142378581721974210, -3.45687097222016235469,
    4.51227709466894823700, -2.98285225323576655721, 1.05639711577126713077,
    -1.95428773191645869583e-1, 1.70970543404441224307e-2, -5.71926117404305781283e-4,
    4.63399473359905636708e-6, -2.71994908488607703910e-9]

/-- The shift that belongs to these coefficients. -/
def shift : Float := 10.900511

/-- The logarithm of `2 * sqrt (e / π)`. -/
def logConstant : Float := 0.6207822376352452223455184457816472122518527279025978

/-- The base of natural logarithms. -/
def e : Float := 2.71828182845904523536

/-- The sum `c₀ + c₁ / x + c₂ / (x + 1) + …`. -/
def fractions (x : Float) : Float :=
  match coefficients with
  | [] => 0.0
  | first :: rest =>
    (rest.foldl (fun (sum, place) c => (sum + c / (x + place), place + 1.0)) (first, 0.0)).1

/-- The logarithm of the gamma function at a positive argument. An argument below one half is moved
up by one. -/
def log (x : Float) : Float :=
  let above (x : Float) :=
    Float.log (fractions x) + logConstant + (x - 0.5) * Float.log ((x - 0.5 + shift) / e)
  if x < 0.5 then above (x + 1.0) - Float.log x else above x

end Significance.Distribution.Gamma
