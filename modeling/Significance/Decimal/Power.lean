/-!
# Powers of two and of ten
-/

namespace Significance.Decimal

/-- The power of two with a given exponent. -/
def twoTo (k : Nat) : Nat :=
  Nat.pow 2 k

/-- The power of ten with a given exponent. -/
def tenTo (k : Nat) : Nat :=
  Nat.pow 10 k

theorem twoTo_pos (k : Nat) : 0 < twoTo k :=
  Nat.pow_pos (by decide)

theorem tenTo_pos (k : Nat) : 0 < tenTo k :=
  Nat.pow_pos (by decide)

end Significance.Decimal
