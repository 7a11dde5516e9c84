import FeatureFlags.Generation
import FeatureFlags.Log.Filter

/-!
# The program

What a call of the program leaves and shows: the files after it, the text on standard output, the
lines of the log, the text of an error, and the exit code.
-/

namespace FeatureFlags.Program

def name : String := "confgen"

def version : String := "0.1.0"

def summary : String :=
  "Kconfig-style feature flag resolver that generates makefile and C header fragments"

def usage : String :=
  "Usage: " ++ name ++ " [OPTIONS] <CONFIG> [OVERRIDES]"

/-- The text that help shows; its first line is the summary. -/
def help : String :=
  summary ++ "\n\n" ++ usage ++ "\n\n" ++
    "Arguments:\n" ++
    "  <CONFIG>     Config description file\n" ++
    "  [OVERRIDES]  Override file of `NAME yes|no` lines\n\n" ++
    "Options:\n" ++
    "  -o, --out-dir <OUT_DIR>    Directory to write the generated files into [default: .]\n" ++
    "  -s, --settings <SETTINGS>  YAML settings file controlling output names and formatting\n" ++
    "      --dump                 Print every entry with its default and dependencies to stdout\n" ++
    "  -v, --verbose              Enable debug logging (overridden by RUST_LOG)\n" ++
    "  -h, --help                 Print help\n" ++
    "  -V, --version              Print version\n"

/-- What a call shows and leaves. -/
structure Report where
  files : FileSystem
  /-- The files written, in order. -/
  written : List Path
  exitCode : Nat
  output : String
  log : List String
  /-- The text of an error, without the break at its end. -/
  errorText : Option String

/-- The text of the error that ended a run. One that broke off has none. -/
def errorText : Error → Option String
  | .columnTooWide _ => none
  | error => some ("Error: " ++ error.message)

/-- What is left by a call that breaks off before it does anything. -/
def brokenOff (files : FileSystem) : Report := ⟨files, [], 101, "", [], none⟩

/-- Runs what a command line asks for, and logs what the filter admits. -/
def run (files : FileSystem) (filter : Filter) (commandLine : CommandLine) : Report :=
  let generation := Generation.run files commandLine
  let log := filter.lines generation.events
  match generation.result with
  | .ok written => ⟨generation.files, written, 0, generation.output, log, none⟩
  | .error error =>
    ⟨generation.files, [], error.exitCode, generation.output, log, errorText error⟩

/-- Runs what a command line asks for, with the log that a setting asks for. -/
def report (files : FileSystem) (logSetting : Option String) (commandLine : CommandLine) :
    Report :=
  match Filter.ofSetting? logSetting commandLine.verbose with
  | some filter => run files filter commandLine
  | none => brokenOff files

def stopped (files : FileSystem) (stop : UsageStop) : Report :=
  match stop with
  | .help => ⟨files, [], stop.exitCode, help, [], none⟩
  | .version => ⟨files, [], stop.exitCode, name ++ " " ++ version ++ "\n", [], none⟩
  | _ => ⟨files, [], stop.exitCode, "", [], some ("error: " ++ usage)⟩

def call (files : FileSystem) (logSetting : Option String) (arguments : List String) : Report :=
  match CommandLine.parse arguments with
  | .error stop => stopped files stop
  | .ok commandLine => report files logSetting commandLine

end FeatureFlags.Program
