import FeatureFlags.Line
import Std.Data.TreeMap

/-!
# Overrides

An override file lists values that replace declared defaults. Of several values for one name the
last one counts.
-/

namespace FeatureFlags

/-- A value for each overridden name. -/
structure Overrides where
  values : Std.TreeMap String Toggle

namespace Overrides

def empty : Overrides := ⟨∅⟩

instance : Inhabited Overrides := ⟨empty⟩

def insert (overrides : Overrides) (name : String) (value : Toggle) : Overrides :=
  ⟨overrides.values.insert name value⟩

def get? (overrides : Overrides) (name : String) : Option Toggle := overrides.values[name]?

/-- The overridden names in ascending order, each with its value. -/
def toList (overrides : Overrides) : List (String × Toggle) := overrides.values.toList

def size (overrides : Overrides) : Nat := overrides.values.size

def ofList (pairs : List (String × Toggle)) : Overrides :=
  pairs.foldl (fun overrides (name, value) => overrides.insert name value) empty

/-- Reads a line of an override file into the overrides that the lines before it gave. -/
def readLine (file : Path) (overrides : Overrides) (line : List Char × Nat) :
    Except Error Overrides :=
  match parseOverride ⟨file, line.2⟩ (String.ofList line.1) with
  | .ok none => .ok overrides
  | .ok (some (name, value)) => .ok (overrides.insert name value)
  | .error error => .error error

/-- Reads the text of an override file; `file` is where a refused line is reported. -/
def parse (file : Path) (text : String) : Except Error Overrides :=
  ((Text.lines text.toList).zipIdx 1).foldlM (readLine file) empty

end Overrides

end FeatureFlags
