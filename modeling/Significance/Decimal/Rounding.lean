/-!
# Rounding a quotient to a whole number

Main statement: the rounded quotient is within half a unit of the quotient.
-/

namespace Significance.Decimal

/-- Where a quotient that lies midway between two whole numbers goes. -/
inductive Tie
  | toEven
  | up
  deriving DecidableEq, Repr

/-- The whole number nearest to `numerator / denominator`. -/
def roundQuotient (tie : Tie) (numerator denominator : Nat) : Nat :=
  let below := numerator / denominator
  let rest := 2 * (numerator % denominator)
  if rest < denominator then below
  else if denominator < rest then below + 1
  else match tie with
    | .up => below + 1
    | .toEven => if below % 2 = 0 then below else below + 1

/-- The quotient is rounded down only from the lower half and up only from the upper half. -/
theorem roundQuotient_cases (tie : Tie) (n d : Nat) :
    (roundQuotient tie n d = n / d ∧ 2 * (n % d) ≤ d) ∨
      (roundQuotient tie n d = n / d + 1 ∧ d ≤ 2 * (n % d)) := by
  unfold roundQuotient
  dsimp only
  split
  · exact Or.inl ⟨rfl, by omega⟩
  · split
    · exact Or.inr ⟨rfl, by omega⟩
    · cases tie with
      | up => exact Or.inr ⟨rfl, by omega⟩
      | toEven =>
        dsimp only
        split
        · exact Or.inl ⟨rfl, by omega⟩
        · exact Or.inr ⟨rfl, by omega⟩

/-- The rounded quotient differs from the quotient by half a unit at most. -/
theorem roundQuotient_near (tie : Tie) (n : Nat) {d : Nat} (hd : 0 < d) :
    2 * n ≤ 2 * (d * roundQuotient tie n d) + d ∧
      2 * (d * roundQuotient tie n d) ≤ 2 * n + d := by
  have whole := Nat.div_add_mod n d
  have rest := Nat.mod_lt n hd
  rcases roundQuotient_cases tie n d with ⟨h, half⟩ | ⟨h, half⟩ <;> rw [h]
  · omega
  · rw [Nat.mul_add, Nat.mul_one]
    omega

example : roundQuotient .toEven 25 10 = 2 ∧ roundQuotient .up 25 10 = 3 := by decide
example : roundQuotient .toEven 35 10 = 4 ∧ roundQuotient .toEven 26 10 = 3 := by decide

end Significance.Decimal
