import FeatureFlags.Entry
import FeatureFlags.Error
import FeatureFlags.Text

/-!
# Log events

What a run reports about itself. An event has a level, a message, named fields and a channel; a
log line is the level, the message and the fields in order.
-/

namespace FeatureFlags

/-- How much an event matters; a later level is a finer one. -/
inductive Level where
  | error
  | warn
  | info
  | debug
  | trace
deriving DecidableEq, Repr

namespace Level

def text : Level → String
  | error => "ERROR"
  | warn => "WARN"
  | info => "INFO"
  | debug => "DEBUG"
  | trace => "TRACE"

/-- The place of a level, from 1 for the gravest. -/
def rank : Level → Nat
  | error => 1
  | warn => 2
  | info => 3
  | debug => 4
  | trace => 5

end Level

inductive Event where
  | redefined (name : String) (first second : Origin)
  | notRolledBack (file : Path) (error : Error)
  | parsingDescription (file : Path)
  | includingDescription (file : Path) (includedAt : Origin)
  | parsingOverrides (file : Path)
  | applyingOverride (name : String) (before after : Toggle)
  | ignoringOverride (name : String)
  | linked (entries : Nat)
  | wrote (file : Path) (bytes : Nat)
  | parsed (entries : Nat)
  | appliedOverrides (applied listed : Nat)
  | resolved (enabled total : Nat)
deriving DecidableEq, Repr

namespace Event

def level : Event → Level
  | redefined .. => .warn
  | notRolledBack .. => .warn
  | _ => .debug

def message : Event → String
  | redefined .. => "config redefined, last definition wins"
  | notRolledBack .. => "could not roll back generated file"
  | parsingDescription _ => "parsing config description"
  | includingDescription .. => "including config description"
  | parsingOverrides _ => "parsing overrides"
  | applyingOverride .. => "applying override"
  | ignoringOverride _ => "ignoring override for unknown config"
  | linked _ => "linked config dependencies"
  | wrote .. => "wrote generated file"
  | parsed _ => "parsed config description"
  | appliedOverrides .. => "applied overrides"
  | resolved .. => "resolved configuration"

def fields : Event → List (String × String)
  | redefined name first second =>
    [("name", name), ("first", first.text), ("redefined", second.text)]
  | notRolledBack file error => [("file", file.text), ("error", error.message)]
  | parsingDescription file => [("file", file.text)]
  | includingDescription file includedAt => [("file", file.text), ("from", includedAt.text)]
  | parsingOverrides file => [("file", file.text)]
  | applyingOverride name before after =>
    [("name", name), ("from", before.text), ("to", after.text)]
  | ignoringOverride name => [("name", name)]
  | linked entries => [("entries", toString entries)]
  | wrote file bytes => [("file", file.text), ("bytes", toString bytes)]
  | parsed entries => [("entries", toString entries)]
  | appliedOverrides applied listed =>
    [("applied", toString applied), ("listed", toString listed)]
  | resolved enabled total => [("enabled", toString enabled), ("total", toString total)]

/-- The channel that an event is sent on; a log filter selects channels by how they begin. -/
def channel : Event → String
  | redefined .. => "confgen::kconfig::table"
  | notRolledBack .. => "confgen::fs::atomic"
  | parsingDescription _ => "confgen::kconfig::source"
  | includingDescription .. => "confgen::kconfig::source"
  | parsingOverrides _ => "confgen::kconfig::overrides"
  | applyingOverride .. => "confgen::kconfig::table"
  | ignoringOverride _ => "confgen::kconfig::table"
  | linked _ => "confgen::kconfig::graph"
  | wrote .. => "confgen::output"
  | parsed _ => "confgen::commands::generate"
  | appliedOverrides .. => "confgen::commands::generate"
  | resolved .. => "confgen::commands::generate"

/-- An event in words. -/
def text (event : Event) : String :=
  " ".intercalate
    (event.level.text :: event.message ::
      event.fields.map fun (key, value) => key ++ "=" ++ value)

/-- The line that a log shows for an event, without white space around it. -/
def line (event : Event) : String := String.ofList (Text.trim event.text.toList)

end Event

end FeatureFlags
