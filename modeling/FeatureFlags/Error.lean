import FeatureFlags.Path
import FeatureFlags.FileSystem.Fault

/-!
# Errors

Every way in which a run can fail, by its cause. `Error.message` holds the wording and
`Error.exitCode` what the program ends with.
-/

namespace FeatureFlags

/-- What is wrong with a line of a description or an override file. -/
inductive LineFault where
  | missingDefault (name : String)
  | invalidName (name : String)
  | invalidDefault (word : String)
  | invalidDependency (token : String)
  | tokenCount (expected found : Nat)
  | includeCycle (file : Path)
deriving DecidableEq, Repr

def LineFault.message : LineFault → String
  | missingDefault name => "missing default value for '" ++ name ++ "'"
  | invalidName name =>
    "invalid name '" ++ name ++ "': names may only contain letters, digits and '_'"
  | invalidDefault word => "default is invalid: '" ++ word ++ "' (must be 'yes' or 'no')"
  | invalidDependency token => "invalid dependency '" ++ token ++ "'"
  | tokenCount expected found =>
    "expected " ++ toString expected ++ " tokens, found " ++ toString found
  | includeCycle file => "include cycle: '" ++ file.text ++ "' is already being parsed"

/-- The two settings that name a generated file. -/
inductive NameField where
  | makefileName
  | headerName
deriving DecidableEq, Repr

def NameField.text : NameField → String
  | makefileName => "makefile_name"
  | headerName => "header_name"

/-- Why settings are refused. -/
inductive SettingsFault where
  | symbolPrefix (text : String)
  | headerGuard (text : String)
  | notAFileName (field : NameField) (text : String)
  | sameName (text : String)
deriving DecidableEq, Repr

def SettingsFault.message : SettingsFault → String
  | symbolPrefix text => "symbol_prefix '" ++ text ++ "' is not a valid identifier"
  | headerGuard text => "header_guard '" ++ text ++ "' is not a valid identifier"
  | notAFileName field text =>
    field.text ++ " must be a plain file name (found '" ++ text ++ "')"
  | sameName text => "makefile_name and header_name are both '" ++ text ++ "'"

/-- Why an operation of the program failed. -/
inductive Error where
  /-- A line of a description or override file is refused. -/
  | badLine (origin : Origin) (fault : LineFault)
  /-- An entry depends on a name that no entry declares. -/
  | unknownDependency (entry dependency : String)
  /-- An entry depends on itself; the chain starts and ends with it. -/
  | circularDependency (chain : List String)
  | unreadableDescription (file : Path) (fault : FileFault)
  | unreadableInclude (file : Path) (includedAt : Origin) (fault : FileFault)
  | unreadableOverrides (file : Path) (fault : FileFault)
  | unreadableSettings (file : Path) (fault : FileFault)
  /-- The settings file is no YAML mapping with values of the right kind. -/
  | malformedSettings
  | refusedSettings (fault : SettingsFault)
  | directoryNotCreated (directory : Path) (fault : FileFault)
  | invalidOutputPath (file : Path)
  | temporaryNotCreated (file : Path) (fault : FileFault)
  | temporaryNotWritten (file : Path) (fault : FileFault)
  | notReplaced (file : Path) (fault : FileFault)
  | notRemoved (file : Path) (fault : FileFault)
  /-- A name cannot be padded to a column this wide; the run breaks off. -/
  | columnTooWide (width : Nat)
deriving DecidableEq, Repr

namespace Error

def message : Error → String
  | badLine origin fault => "parse error at " ++ origin.text ++ ": " ++ fault.message
  | unknownDependency entry dependency => entry ++ " has unknown dependency: " ++ dependency
  | circularDependency chain =>
    "circular dependency detected: " ++ " -> ".intercalate chain
  | unreadableDescription file fault =>
    "failed to read config description '" ++ file.text ++ "': " ++ fault.message
  | unreadableInclude file includedAt fault =>
    "failed to read included file '" ++ file.text ++ "' (included from " ++ includedAt.text ++
      "): " ++ fault.message
  | unreadableOverrides file fault =>
    "failed to read override file '" ++ file.text ++ "': " ++ fault.message
  | unreadableSettings file fault =>
    "failed to read settings file '" ++ file.text ++ "': " ++ fault.message
  | malformedSettings => "failed to parse settings YAML"
  | refusedSettings fault => "settings validation failed: " ++ fault.message
  | directoryNotCreated directory fault =>
    "failed to create output directory '" ++ directory.text ++ "': " ++ fault.message
  | invalidOutputPath file => "invalid output path '" ++ file.text ++ "'"
  | temporaryNotCreated file fault =>
    "failed to create temporary file '" ++ file.text ++ "': " ++ fault.message
  | temporaryNotWritten file fault =>
    "failed to write temporary file '" ++ file.text ++ "': " ++ fault.message
  | notReplaced file fault => "failed to replace '" ++ file.text ++ "': " ++ fault.message
  | notRemoved file fault => "failed to remove '" ++ file.text ++ "': " ++ fault.message
  | columnTooWide _ => "Formatting argument out of range"

/-- 2 for a refused line, 3 for dependencies, 101 for a run that broke off, 1 for all else. -/
def exitCode : Error → Nat
  | badLine .. => 2
  | unknownDependency .. => 3
  | circularDependency .. => 3
  | columnTooWide .. => 101
  | _ => 1

end Error

end FeatureFlags
