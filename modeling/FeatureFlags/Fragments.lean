import FeatureFlags.Resolution
import FeatureFlags.Settings
import FeatureFlags.Staging
import FeatureFlags.Text

/-!
# Generated fragments

The makefile and the header list the entries that are on, one a line, in ascending order of names.
The listing shows every entry with its default and its dependencies. The two generated files are
written as a pair.
-/

namespace FeatureFlags

structure Fragments where
  makefile : String
  header : String
deriving DecidableEq, Repr

namespace Fragments

def maxColumn : Nat := 65535

/-- The padded symbols of the entries that are on. -/
def symbols (resolution : Resolution) (settings : Settings) : List String :=
  resolution.enabled.map fun name =>
    settings.symbolPrefix ++ Text.padRight settings.nameWidth.toNat name

def makefileOf (resolution : Resolution) (settings : Settings) : String :=
  "# AUTOGENERATED from " ++ settings.generator ++ ". DO NOT EDIT!\n\n" ++
    String.join ((symbols resolution settings).map fun symbol => symbol ++ " = y\n")

def headerOf (resolution : Resolution) (settings : Settings) : String :=
  "/* AUTOGENERATED from " ++ settings.generator ++ ". DO NOT EDIT! */\n\n" ++
    "#ifndef " ++ settings.headerGuard ++ "\n#define " ++ settings.headerGuard ++ "\n\n" ++
    String.join ((symbols resolution settings).map fun symbol => "#define " ++ symbol ++ " y\n") ++
    "\n#endif\n"

/-- Both texts. A column that is too wide breaks the run off, if there is a name to pad to it. -/
def render (resolution : Resolution) (settings : Settings) : Except Error Fragments :=
  if resolution.enabled ≠ [] ∧ maxColumn < settings.nameWidth.toNat then
    .error (.columnTooWide settings.nameWidth.toNat)
  else .ok ⟨makefileOf resolution settings, headerOf resolution settings⟩

def targets (directory : Path) (settings : Settings) : Path × Path :=
  (directory.join ⟨settings.makefileName⟩, directory.join ⟨settings.headerName⟩)

/-- Writes both files, or neither. -/
def write (files : FileSystem) (directory : Path) (settings : Settings)
    (fragments : Fragments) : Staged.Outcome :=
  let (makefile, header) := targets directory settings
  match Staged.stage files makefile fragments.makefile.toUTF8 with
  | (files, .error error) => ⟨files, [], .error error⟩
  | (files, .ok stagedMakefile) =>
    match Staged.stage files header fragments.header.toUTF8 with
    | (files, .error error) => ⟨Staged.discard files stagedMakefile, [], .error error⟩
    | (files, .ok stagedHeader) =>
      match Staged.commitAll files [stagedMakefile, stagedHeader] with
      | ⟨files, events, .error error⟩ => ⟨files, events, .error error⟩
      | ⟨files, events, .ok written⟩ =>
        ⟨files, events ++ [.wrote makefile fragments.makefile.utf8ByteSize,
          .wrote header fragments.header.utf8ByteSize], .ok written⟩

end Fragments

namespace Table

/-- The column that the dependencies of a listed entry start after. -/
def listingColumn : Nat := 30

/-- The line of an entry: its symbol, its default, and its dependencies if it has any. -/
def listingLine (settings : Settings) (entry : Entry) : String :=
  let declared := settings.symbol entry.name ++ "=" ++ entry.default.text
  if entry.dependencies = [] then declared ++ "\n"
  else
    Text.padRight listingColumn declared ++ " | " ++
      " ".intercalate (entry.positive ++ entry.negative.map ("!" ++ ·)) ++ "\n"

/-- Every entry of the table, a line each, in ascending order of names. -/
def listing (table : Table) (settings : Settings) : String :=
  String.join (table.entries.map (listingLine settings))

end Table

end FeatureFlags
