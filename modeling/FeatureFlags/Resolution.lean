import FeatureFlags.Evaluator

/-!
# Resolutions

The values of all entries of a table, in ascending order of names.
-/

namespace FeatureFlags

structure Resolution where
  values : Array (String × Bool)
deriving DecidableEq, Repr, Inhabited

namespace Resolution

def empty : Resolution := ⟨#[]⟩

/-- The names that are on, in order. -/
def enabled (resolution : Resolution) : List String :=
  (resolution.values.toList.filter (·.2)).map (·.1)

/-- Halves the places from `low` up to but not including `high` until `name` is found. -/
def search (values : Array (String × Bool)) (name : String) (low high : Nat) : Option Bool :=
  if _h : low < high then
    let middle := (low + high) / 2
    match values[middle]? with
    | none => none
    | some (found, value) =>
      match compare found name with
      | .eq => some value
      | .lt => search values name (middle + 1) high
      | .gt => search values name low middle
  else none
termination_by high - low

def isEnabled? (resolution : Resolution) (name : String) : Option Bool :=
  search resolution.values name 0 resolution.values.size

end Resolution

namespace Evaluator

variable {graph : Graph}

/-- The values of all nodes, and the evaluator that knows them. -/
def resolution (evaluator : Evaluator graph) : Except Error Resolution × Evaluator graph :=
  match evaluator.values with
  | (.ok values, evaluator) => (.ok ⟨values⟩, evaluator)
  | (.error error, evaluator) => (.error error, evaluator)

end Evaluator

/-- Links the table and works out the value of every entry. -/
def Table.resolve (table : Table) : Except Error Resolution :=
  match Graph.link table with
  | .error error => .error error
  | .ok graph => (Evaluator.new graph).resolution.1

end FeatureFlags
