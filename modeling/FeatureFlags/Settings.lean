import FeatureFlags.Entry
import FeatureFlags.Error

/-!
# Settings

How the generated files are named and laid out. Each setting has a default, and `validate` says
which settings are accepted.
-/

namespace FeatureFlags

structure Settings where
  /-- Stands before the name of every entry. -/
  symbolPrefix : String := "CONFIG_"
  /-- The column that a name is padded to after the prefix. -/
  nameWidth : UInt64 := 25
  makefileName : String := ".config.mk"
  headerName : String := ".config.h"
  /-- The macro that keeps the header from being read twice. -/
  headerGuard : String := "__CONFIG_H__"
  /-- What the banner names as the generator. -/
  generator : String := "confgen"
deriving DecidableEq, Repr

instance : Inhabited Settings := ⟨{}⟩

/-- A name for a file in a directory: not empty, not `.` or `..`, and without a separator. -/
def isFileName (text : String) : Bool :=
  text ≠ "" && text ≠ "." && text ≠ ".." && text.toList.all fun c => c ≠ '/' && c ≠ '\\'

namespace Settings

/-- Accepts settings, or gives the first fault in this order. -/
def validate (settings : Settings) : Except Error Unit :=
  if !isName settings.symbolPrefix then
    .error (.refusedSettings (.symbolPrefix settings.symbolPrefix))
  else if !isName settings.headerGuard then
    .error (.refusedSettings (.headerGuard settings.headerGuard))
  else if !isFileName settings.makefileName then
    .error (.refusedSettings (.notAFileName .makefileName settings.makefileName))
  else if !isFileName settings.headerName then
    .error (.refusedSettings (.notAFileName .headerName settings.headerName))
  else if settings.makefileName = settings.headerName then
    .error (.refusedSettings (.sameName settings.headerName))
  else .ok ()

/-- The name of an entry in generated files. -/
def symbol (settings : Settings) (name : String) : String := settings.symbolPrefix ++ name

end Settings

end FeatureFlags
