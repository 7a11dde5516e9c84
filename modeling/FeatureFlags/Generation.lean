import FeatureFlags.CommandLine
import FeatureFlags.Description
import FeatureFlags.Fragments
import FeatureFlags.SettingsFile

/-!
# Generation

What a run does: it reads the settings, the overrides and the description, applies the overrides,
works out the value of every entry, and writes the two fragments. Everything is read and worked out
before the first file is touched.
-/

namespace FeatureFlags

/-- What a run leaves: the files, what it reported and printed, and how it ended. -/
structure Generation where
  files : FileSystem
  events : List Event
  /-- The listing, if the run was asked for it and got so far. -/
  output : String
  /-- The files written, in order. -/
  result : Except Error (List Path)

namespace Generation

def loadOverrides (files : FileSystem) (path : Path) : List Event × Except Error Overrides :=
  match files.readText path with
  | .error fault => ([], .error (.unreadableOverrides path fault))
  | .ok text => ([.parsingOverrides path], Overrides.parse path text)

/-- The overrides of a run; without an override file there are none. -/
def overridesOf (files : FileSystem) : Option Path → List Event × Except Error Overrides
  | some path => loadOverrides files path
  | none => ([], .ok .empty)

/-- The settings of a run; without a settings file they are the defaults. -/
def settingsOf (files : FileSystem) : Option Path → Except Error Settings
  | some path => Settings.load files path
  | none => .ok {}

def tableOf (files : FileSystem) (config : Path) (overrides : Overrides) :
    List Event × Except Error Table :=
  match Description.load files config .empty with
  | (reading, .error error) => (reading.events.toList, .error error)
  | (reading, .ok ()) =>
    let table := reading.table
    (reading.events.toList ++ .parsed table.size :: table.overrideEvents overrides ++
        [.appliedOverrides (table.overrideCount overrides) overrides.size],
      .ok (table.applyOverrides overrides))

def resolutionOf (table : Table) : List Event × Except Error Resolution :=
  let linked := Graph.linkEvents (Graph.link table)
  match table.resolve with
  | .error error => (linked, .error error)
  | .ok resolution =>
    (linked ++ [.resolved resolution.enabled.length resolution.values.size], .ok resolution)

/-- What the fragments are made from. -/
structure Inputs where
  settings : Settings
  table : Table
  resolution : Resolution

/-- Everything up to the fragments. Of several errors the first in this order counts. -/
def inputsOf (files : FileSystem) (commandLine : CommandLine) :
    List Event × Except Error Inputs :=
  match settingsOf files commandLine.settings with
  | .error error => ([], .error error)
  | .ok settings =>
    match overridesOf files commandLine.overrides with
    | (events, .error error) => (events, .error error)
    | (events, .ok overrides) =>
      match tableOf files commandLine.config overrides with
      | (read, .error error) => (events ++ read, .error error)
      | (read, .ok table) =>
        match resolutionOf table with
        | (resolved, .error error) => (events ++ read ++ resolved, .error error)
        | (resolved, .ok resolution) =>
          (events ++ read ++ resolved, .ok ⟨settings, table, resolution⟩)

def writeFragments (files : FileSystem) (directory : Path) (inputs : Inputs) : Staged.Outcome :=
  match Fragments.render inputs.resolution inputs.settings with
  | .error error => ⟨files, [], .error error⟩
  | .ok fragments => fragments.write files directory inputs.settings

def run (files : FileSystem) (commandLine : CommandLine) : Generation :=
  match inputsOf files commandLine with
  | (events, .error error) => ⟨files, events, "", .error error⟩
  | (events, .ok inputs) =>
    let output := if commandLine.dump then inputs.table.listing inputs.settings else ""
    let written := writeFragments files commandLine.outDirectory inputs
    ⟨written.files, events ++ written.events, output, written.result⟩

end Generation

end FeatureFlags
