import Significance.Decimal.Layout
import Significance.Scalar

/-!
# Doubles as scalars
-/

namespace Significance

@[always_inline] instance : Scalar Float where
  decidableLT := inferInstance
  decidableLE := inferInstance
  ofNat := Float.ofNat
  infinity := 1.0 / 0.0
  undefined := 0.0 / 0.0
  isFinite := Float.isFinite
  abs := Float.abs
  sqrt := Float.sqrt
  exp := Float.exp
  log := Float.log
  pow := Float.pow
  whole? := Decimal.whole?
  text := Decimal.plain

end Significance
