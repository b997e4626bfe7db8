import Significance.TukeyTest
import Significance.VarianceTable

/-!
# Post-hoc comparisons

Every requested factor with a significant main effect has its levels compared in pairs. Where that
is impossible the reason is recorded, and the other factors are not affected. Interactions are never
compared.
-/

namespace Significance

/-- What came of the comparisons of one factor. -/
inductive Outcome (α : Type)
  | completed (test : TukeyTest α)
  | skipped (reason : String)

/-- The outcome for one factor. -/
structure FactorOutcome (α : Type) where
  factor : String
  outcome : Outcome α

/-- The outcomes in the order of the table. -/
structure PostHoc (α : Type) where
  entries : List (FactorOutcome α)

namespace FactorOutcome

variable {α : Type}

/-- The test, if it was completed. -/
def test? (entry : FactorOutcome α) : Option (TukeyTest α) :=
  match entry.outcome with
  | .completed test => some test
  | .skipped _ => none

/-- The remark on a comparison that was skipped. -/
def remark? (entry : FactorOutcome α) : Option String :=
  match entry.outcome with
  | .completed _ => none
  | .skipped reason => some s!"Error in post-hoc test for {entry.factor}: {reason}"

end FactorOutcome

namespace PostHoc

variable {α : Type}

/-- The outcome for a factor. -/
def outcome? (results : PostHoc α) (factor : String) : Option (Outcome α) :=
  (results.entries.find? fun entry => entry.factor = factor).map FactorOutcome.outcome

/-- The completed tests. -/
def completed (results : PostHoc α) : List (TukeyTest α) :=
  results.entries.filterMap FactorOutcome.test?

/-- The remarks on all comparisons that were skipped. -/
def remarks (results : PostHoc α) : List String :=
  results.entries.filterMap FactorOutcome.remark?

/-- Compares the levels of a field by the values of another. -/
def compareLevels [Scalar α] (d : Distribution α) (data : Dataset α) (target factor : String) :
    Except (Error α) (TukeyTest α) := do
  let values ← data.numericColumn target
  TukeyTest.run d (← Factor.ofDataset data factor) values significanceLevel

/-- The outcome for a field. -/
def entry [Scalar α] (d : Distribution α) (data : Dataset α) (target factor : String) :
    FactorOutcome α :=
  { factor
    outcome :=
      match compareLevels d data target factor with
      | .ok test => .completed test
      | .error e => .skipped e.message }

/-- Whether a row of a table asks for comparisons. -/
def asks [Scalar α] (factors : List String) (effect : Effect α) : Bool :=
  effect.isMain && factors.contains effect.name && effect.isSignificant

/-- Compares the levels of every listed factor whose main effect is significant. -/
def run [Scalar α] (d : Distribution α) (data : Dataset α) (target : String)
    (table : VarianceTable α) (factors : List String) : PostHoc α :=
  ⟨(table.effects.filter (asks factors)).map fun effect => entry d data target effect.name⟩

/-- The text of an entry, every line ended. -/
def entryText (entry : FactorOutcome Float) : String :=
  match entry.outcome with
  | .completed test => test.text ++ "\n"
  | .skipped reason => s!"Post-hoc test for '{entry.factor}' skipped: {reason}\n"

/-- The outcomes as text, every line ended. -/
def text (results : PostHoc Float) : String :=
  String.join (results.entries.map entryText)

end PostHoc

end Significance
