import FeatureFlags.FileSystem.Walk
import FeatureFlags.Settings
import FeatureFlags.Yaml.Node
import FeatureFlags.Yaml.Writer

/-!
# Settings files

Settings are kept in a YAML mapping, one key for each field. A field that is left out has its
default, and an unknown key is passed over, but a known key may stand only once. A text takes any
scalar as it is written; the name width takes a plain integer of 64 bits.
-/

namespace FeatureFlags

namespace Settings

/-- The fields of settings, in the order in which they are written. -/
inductive Field where
  | symbolPrefix
  | nameWidth
  | makefileName
  | headerName
  | headerGuard
  | generator
deriving DecidableEq, Repr

namespace Field

def all : List Field :=
  [symbolPrefix, nameWidth, makefileName, headerName, headerGuard, generator]

def key : Field → String
  | symbolPrefix => "symbol_prefix"
  | nameWidth => "name_width"
  | makefileName => "makefile_name"
  | headerName => "header_name"
  | headerGuard => "header_guard"
  | generator => "generator"

def ofKey? (key : String) : Option Field := all.find? (·.key = key)

@[simp] theorem ofKey?_key (field : Field) : ofKey? field.key = some field := by
  cases field <;> rfl

end Field

/-! ## Reading -/

/-- The width that a scalar gives: a plain one, or a literal one that is tagged as an integer. -/
def widthOf? (scalar : Yaml.Scalar) : Option UInt64 :=
  if scalar.style = .plain ∨ (scalar.style = .literal ∧ scalar.tag = some (Yaml.coreTag "int")) then
    match Yaml.natural? scalar.text.toList with
    | some value => if value < UInt64.size then some (UInt64.ofNat value) else none
    | none => none
  else none

/-- The settings with one field set to what a scalar gives. -/
def set? (settings : Settings) (scalar : Yaml.Scalar) : Field → Option Settings
  | .symbolPrefix => some { settings with symbolPrefix := scalar.text }
  | .nameWidth => (widthOf? scalar).map fun width => { settings with nameWidth := width }
  | .makefileName => some { settings with makefileName := scalar.text }
  | .headerName => some { settings with headerName := scalar.text }
  | .headerGuard => some { settings with headerGuard := scalar.text }
  | .generator => some { settings with generator := scalar.text }

/-- Reads the pairs of a mapping into settings in which the fields `seen` are set already. -/
def ofPairs? (document : Yaml.Document) (seen : List Field) (settings : Settings) :
    List (Yaml.Node × Yaml.Node) → Option Settings
  | [] => some settings
  | (key, value) :: rest => do
    let key ← document.scalar? key
    match Field.ofKey? key.text with
    | none => ofPairs? document seen settings rest
    | some field =>
      if field ∈ seen then none
      else
        let settings ← settings.set? (← document.scalar? value) field
        ofPairs? document (field :: seen) settings rest

/-- The settings of a document. One with nothing in it gives the defaults. -/
def ofDocument? (document : Yaml.Document) : Option Settings :=
  match document.root with
  | none => some {}
  | some (.scalar scalar) =>
    if scalar.style = .plain ∧ scalar.text = "" then some {} else none
  | some (.mapping pairs) => ofPairs? document [] {} pairs
  | some _ => none

/-- Reads and accepts settings. -/
def ofYaml (text : String) : Except Error Settings :=
  match (Yaml.Document.ofText? text).bind ofDocument? with
  | none => .error .malformedSettings
  | some settings =>
    match settings.validate with
    | .ok () => .ok settings
    | .error error => .error error

/-- Reads a settings file. -/
def load (files : FileSystem) (path : Path) : Except Error Settings :=
  match files.readText path with
  | .ok text => ofYaml text
  | .error fault => .error (.unreadableSettings path fault)

/-! ## Writing -/

/-- The value of a field as it is written. -/
def written (settings : Settings) : Field → List Char
  | .symbolPrefix => Yaml.writeText settings.symbolPrefix.toList
  | .nameWidth => (toString settings.nameWidth.toNat).toList
  | .makefileName => Yaml.writeText settings.makefileName.toList
  | .headerName => Yaml.writeText settings.headerName.toList
  | .headerGuard => Yaml.writeText settings.headerGuard.toList
  | .generator => Yaml.writeText settings.generator.toList

/-- All fields, each with its key. -/
def toYaml (settings : Settings) : String :=
  String.ofList (Field.all.flatMap fun field =>
    Yaml.writePair field.key (settings.written field))

end Settings

end FeatureFlags
