import Significance.Combination
import Significance.Error

/-!
# Model terms

A term is a main effect of one factor or an interaction of several. The full lattice of some
factors has a term for every non-empty subset of them: fewer factors first, and among terms of one
size those with earlier factors first.
-/

namespace Significance

/-- A main effect, or an interaction, of the named factors. -/
structure Term where
  factors : List String
  deriving DecidableEq, Repr

namespace Term

/-- Number of factors. -/
def order (term : Term) : Nat :=
  term.factors.length

/-- Whether the term is the effect of a single factor. -/
def isMain (term : Term) : Bool :=
  term.order = 1

/-- The factor names between colons. -/
def name (term : Term) : String :=
  ":".intercalate term.factors

/-- Whether every factor of `other` is among the factors of `term`. -/
def includes (term other : Term) : Bool :=
  other.factors.all term.factors.contains

/-- Most factors that a model may have. -/
def maxFactors : Nat := 16

/-- The term of the factors at some positions, if they all are positions of factors. -/
def ofPlaces? (factors : List String) (places : List Nat) : Option Term :=
  (places.mapM fun place => factors[place]?).map Term.mk

/-- The terms of all combinations of the factors, as far as the combinations can be found. -/
def enumerate? (factors : List String) : Option (List Term) := do
  let blocks ← (List.range' 1 factors.length).mapM fun k => do
    let combinations ← Combination.all? factors.length k
    combinations.mapM (ofPlaces? factors)
  some blocks.flatten

/-- The first name that repeats an earlier one. -/
def firstRepeat? : List String → List String → Option String
  | _, [] => none
  | seen, name :: rest =>
    if seen.contains name then some name else firstRepeat? (name :: seen) rest

/-- Refuses factor lists that are empty or name a factor twice. -/
def checkFactors {α : Type} (factors : List String) : Except (Error α) Unit :=
  if factors.isEmpty then .error .noFactors
  else match firstRepeat? [] factors with
    | some factor => .error (.repeatedFactor factor)
    | none => .ok ()

/-- The full lattice of terms over some factors. It lacks none, for all combinations are found. -/
def lattice {α : Type} (factors : List String) : Except (Error α) (List Term) := do
  checkFactors factors
  let n := factors.length
  if maxFactors < n then
    throw (.invalidInput (.tooManyFactors n maxFactors))
  return (enumerate? factors).getD []

/-- The formula of a model: its target and the names of its terms. -/
def formula (target : String) (terms : List Term) : String :=
  target ++ " ~ " ++ " + ".intercalate (terms.map name)

end Term

end Significance
