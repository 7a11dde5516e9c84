import FeatureFlags.Log.Event
import FeatureFlags.Overrides

/-!
# The table of entries

All entries of a configuration, one for each name. A later declaration of a name replaces the
earlier one, and what the table lists is in ascending order of names.
-/

namespace FeatureFlags

/-- What a declaration says about its name. -/
structure Definition where
  default : Toggle
  dependencies : List Dependency
  origin : Origin
deriving DecidableEq, Repr, Inhabited

def Entry.definition (entry : Entry) : Definition :=
  ⟨entry.default, entry.dependencies, entry.origin⟩

def Definition.entry (definition : Definition) (name : String) : Entry :=
  ⟨name, definition.default, definition.dependencies, definition.origin⟩

@[simp] theorem Entry.entry_definition (entry : Entry) :
    entry.definition.entry entry.name = entry := rfl

/-- The definitions in force, by name. -/
structure Table where
  definitions : Std.TreeMap String Definition

namespace Table

def empty : Table := ⟨∅⟩

instance : Inhabited Table := ⟨empty⟩

def get? (table : Table) (name : String) : Option Entry :=
  table.definitions[name]?.map (·.entry name)

def contains (table : Table) (name : String) : Bool := table.definitions.contains name

def size (table : Table) : Nat := table.definitions.size

/-- The entries in ascending order of their names. -/
def entries (table : Table) : List Entry :=
  table.definitions.toList.map fun (name, definition) => definition.entry name

/-- The table with `entry` in it, in the place of any earlier entry of that name. -/
def insert (table : Table) (entry : Entry) : Table :=
  ⟨table.definitions.insert entry.name entry.definition⟩

theorem get?_insert (table : Table) (entry : Entry) (name : String) :
    (table.insert entry).get? name = if entry.name = name then some entry else table.get? name := by
  simp only [get?, insert, Std.TreeMap.getElem?_insert, Std.LawfulEqCmp.compare_eq_iff_eq]
  by_cases h : entry.name = name
  · subst h; simp
  · simp [h]

/-- What inserting `entry` reports: the declaration that it replaces, if there is one. -/
def redefinition (table : Table) (entry : Entry) : List Event :=
  match table.get? entry.name with
  | some first => [.redefined entry.name first.origin entry.origin]
  | none => []

/-- The table with another default for one of its entries; an unknown name changes nothing. -/
def setDefault (table : Table) (name : String) (value : Toggle) : Table :=
  match table.definitions[name]? with
  | some definition => ⟨table.definitions.insert name { definition with default := value }⟩
  | none => table

/-- The table with the defaults that `overrides` names replaced. -/
def applyOverrides (table : Table) (overrides : Overrides) : Table :=
  overrides.toList.foldl (fun table (name, value) => table.setDefault name value) table

/-- How many entries of the table `overrides` names. -/
def overrideCount (table : Table) (overrides : Overrides) : Nat :=
  (overrides.toList.filter fun (name, _) => table.contains name).length

/-- What applying `overrides` reports, in ascending order of names. -/
def overrideEvents (table : Table) (overrides : Overrides) : List Event :=
  overrides.toList.map fun (name, value) =>
    match table.get? name with
    | some entry => .applyingOverride name entry.default value
    | none => .ignoringOverride name

end Table

end FeatureFlags
