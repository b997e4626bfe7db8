import Significance.Cell

/-!
# Designs of factorial models

A design has one column for the intercept and, for every term, one column for each combination of
levels of its factors that leaves out each factor's first level. The entry of a column is one for
the records that have all its levels and zero for the others.
-/

namespace Significance

/-- A level of a factor, by its position, that a record must have. -/
structure Requirement where
  factor : Factor
  level : Nat
  deriving DecidableEq, Repr

/-- The levels that a record must have to count in a column; the intercept asks for none. -/
abbrev Column := List Requirement

namespace Column

/-- The combinations of one level per factor, each but the first, the last factor varying
fastest. -/
def combinations : List Factor → List Column
  | [] => [[]]
  | factor :: rest =>
    (List.range' 1 (factor.levels.length - 1)).flatMap fun level =>
      (combinations rest).map (⟨factor, level⟩ :: ·)

/-- For each of the first `rows` records, whether it has all the levels. -/
def indicator (rows : Nat) (column : Column) : List Bool :=
  column.foldl
    (fun hits requirement =>
      hits.zipWith (fun hit code => hit && code = requirement.level) requirement.factor.codes)
    (List.replicate rows true)

/-- The part of a column name that stands for one level; in a main effect it also names the level
that is left out. -/
def levelName (main : Bool) (requirement : Requirement) : String :=
  let factor := requirement.factor
  let level := factor.levels.getD requirement.level ""
  if main then factor.name ++ "_" ++ level ++ "_vs_" ++ factor.levels.getD 0 ""
  else factor.name ++ "_" ++ level

/-- The name of a column of a term. -/
def name (term : Term) (column : Column) : String :=
  "_x_".intercalate (column.map (levelName term.isMain))

end Column

/-- The columns of a model over `rows` records, the intercept first, with their names, and for every
term the positions of its columns among them. -/
structure Design where
  rows : Nat
  columns : List Column
  names : List String
  positions : List (Term × List Nat)

namespace Design

/-- The design of the intercept alone. -/
def intercept (rows : Nat) : Design :=
  { rows, columns := [[]], names := ["Intercept"], positions := [] }

/-- Puts a column of a term behind the others. With the design go the positions of the columns that
the term has so far; the new one stands where the names end. -/
def addColumn (term : Term) : Design × List Nat → Column → Design × List Nat
  | (design, places), column =>
    ({ design with
        columns := design.columns ++ [column]
        names := design.names ++ [column.name term] },
      places ++ [design.names.length])

/-- Puts the columns of a term behind the others, one after another. -/
def addTerm {α : Type} (factors : List Factor) (design : Design) (term : Term) :
    Except (Error α) Design := do
  let own ← term.resolve factors
  let added := (Column.combinations own).foldl (addColumn term) (design, [])
  return { added.1 with positions := added.1.positions ++ [(term, added.2)] }

/-- The design of some terms over the factors. -/
def ofTerms {α : Type} (factors : List Factor) (terms : List Term) :
    Except (Error α) Design := do
  let rows := (factors.head?.map Factor.size).getD 0
  if rows = 0 then
    throw (.emptyData .designRows)
  terms.foldlM (addTerm factors) (intercept rows)

/-- The intercept and the columns of the given terms, in the order of the whole design. The terms
keep the positions that they have there. -/
def select (design : Design) (terms : List Term) : Design :=
  let chosen := design.positions.filter fun (term, _) => terms.contains term
  let places := 0 :: chosen.flatMap Prod.snd
  { rows := design.rows
    columns := places.map (design.columns.getD · [])
    names := places.map (design.names.getD · "")
    positions := chosen }

/-- The entries of all columns. -/
def indicators (design : Design) : List (List Bool) :=
  design.columns.map (Column.indicator design.rows)

end Design

end Significance
