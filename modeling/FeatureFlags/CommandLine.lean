import FeatureFlags.Path

/-!
# The command line

A description file and perhaps an override file, in this order, with options among them. Arguments
are read from left to right, and the first fault counts. The value of an option or of a positional
argument waits until what follows it is known to be acceptable; only then it is checked itself.
-/

namespace FeatureFlags

/-- What a command line asks for. -/
structure CommandLine where
  config : Path
  overrides : Option Path
  outDirectory : Path
  settings : Option Path
  dump : Bool
  verbose : Bool
deriving DecidableEq, Repr

/-- Why a command line gives no run: help or the version is asked for, or it has a fault. -/
inductive UsageStop where
  | help
  | version
  | unknownArgument
  | invalidValue
  | repeatedArgument
  | valueNotTaken
  | missingConfig
deriving DecidableEq, Repr

def UsageStop.exitCode : UsageStop → Nat
  | help => 0
  | version => 0
  | _ => 1

namespace CommandLine

inductive Parameter where
  | config
  | overrides
  | outDirectory
  | settings
deriving DecidableEq, Repr

inductive Flag where
  | dump
  | verbose
  | help
  | version
deriving DecidableEq, Repr

/-- What the name of an option stands for. -/
inductive Switch where
  | parameter (parameter : Parameter)
  | flag (flag : Flag)
deriving DecidableEq, Repr

/-- The option of a long name, the text after `--`. -/
def Switch.ofName? : String → Option Switch
  | "out-dir" => some (.parameter .outDirectory)
  | "settings" => some (.parameter .settings)
  | "dump" => some (.flag .dump)
  | "verbose" => some (.flag .verbose)
  | "help" => some (.flag .help)
  | "version" => some (.flag .version)
  | _ => none

/-- The option of a letter after `-`. -/
def Switch.ofLetter? : Char → Option Switch
  | 'o' => some (.parameter .outDirectory)
  | 's' => some (.parameter .settings)
  | 'v' => some (.flag .verbose)
  | 'h' => some (.flag .help)
  | 'V' => some (.flag .version)
  | _ => none

/-- A parameter whose value is not checked yet, or not even there. -/
structure Pending where
  parameter : Parameter
  value : Option String
deriving DecidableEq, Repr

structure Reader where
  values : List (Parameter × String)
  flags : List Flag
  pending : Option Pending
  /-- The positional parameters still to come. -/
  positionals : List Parameter
deriving DecidableEq, Repr

namespace Reader

def start : Reader := ⟨[], [], none, [.config, .overrides]⟩

def keep (reader : Reader) (parameter : Parameter) (value : String) :
    Except UsageStop Reader :=
  if (reader.values.lookup parameter).isSome then .error .repeatedArgument
  else if value = "" then .error .invalidValue
  else .ok { reader with values := (parameter, value) :: reader.values }

def settle (reader : Reader) : Except UsageStop Reader :=
  match reader.pending with
  | none => .ok reader
  | some ⟨_, none⟩ => .error .invalidValue
  | some ⟨parameter, some value⟩ => { reader with pending := none }.keep parameter value

/-- Sets a flag. Help and the version end the reading. -/
def setFlag (reader : Reader) (flag : Flag) : Except UsageStop Reader :=
  match reader.settle with
  | .error stop => .error stop
  | .ok reader =>
    match flag with
    | .help => .error .help
    | .version => .error .version
    | _ =>
      if flag ∈ reader.flags then .error .repeatedArgument
      else .ok { reader with flags := flag :: reader.flags }

def setValue (reader : Reader) (parameter : Parameter) (value : String) :
    Except UsageStop Reader :=
  match reader.settle with
  | .error stop => .error stop
  | .ok reader => reader.keep parameter value

/-- Waits for the value of an option, which the next argument may be. -/
def await (reader : Reader) (parameter : Parameter) : Except UsageStop Reader :=
  match reader.settle with
  | .error stop => .error stop
  | .ok reader => .ok { reader with pending := some ⟨parameter, none⟩ }

def readPositional (reader : Reader) (value : String) : Except UsageStop Reader :=
  match reader.positionals with
  | [] => .error .unknownArgument
  | parameter :: positionals =>
    match reader.settle with
    | .error stop => .error stop
    | .ok reader =>
      .ok { reader with pending := some ⟨parameter, some value⟩, positionals := positionals }

/-- Takes an argument as the value that is waited for, or else as a positional one. -/
def readWord (reader : Reader) (value : String) : Except UsageStop Reader :=
  match reader.pending with
  | some ⟨parameter, none⟩ => .ok { reader with pending := some ⟨parameter, some value⟩ }
  | _ => reader.readPositional value

/-- Reads the text after `--`: a name, and perhaps a value behind a `=`. -/
def readLong (reader : Reader) (text : List Char) : Except UsageStop Reader :=
  let name := text.takeWhile (· ≠ '=')
  match Switch.ofName? (String.ofList name), text.drop name.length with
  | none, _ => .error .unknownArgument
  | some (.flag _), _ :: _ => .error .valueNotTaken
  | some (.flag flag), [] => reader.setFlag flag
  | some (.parameter parameter), _ :: value => reader.setValue parameter (String.ofList value)
  | some (.parameter parameter), [] => reader.await parameter

/-- Reads the letters after `-`. What follows the letter of a parameter is its value. -/
def readShort (reader : Reader) : List Char → Except UsageStop Reader
  | [] => .ok reader
  | letter :: rest =>
    match Switch.ofLetter? letter with
    | none => .error .unknownArgument
    | some (.flag flag) =>
      match reader.setFlag flag with
      | .error stop => .error stop
      | .ok reader => reader.readShort rest
    | some (.parameter parameter) =>
      match rest with
      | [] => reader.await parameter
      | '=' :: value => reader.setValue parameter (String.ofList value)
      | value => reader.setValue parameter (String.ofList value)

def readArgument (reader : Reader) (argument : String) : Except UsageStop Reader :=
  match argument.toList with
  | '-' :: '-' :: text => reader.readLong text
  | '-' :: letter :: rest => reader.readShort (letter :: rest)
  | _ => reader.readWord argument

/-- Reads arguments. After `--` all of them are positional. -/
def readAll (reader : Reader) (positionalOnly : Bool) : List String → Except UsageStop Reader
  | [] => .ok reader
  | argument :: rest =>
    if !positionalOnly && argument = "--" then reader.readAll true rest
    else
      let read := if positionalOnly then reader.readPositional argument
        else reader.readArgument argument
      match read with
      | .error stop => .error stop
      | .ok reader => reader.readAll positionalOnly rest

def finish (reader : Reader) : Except UsageStop CommandLine :=
  let path? (parameter : Parameter) : Option Path := (reader.values.lookup parameter).map Path.mk
  match path? .config with
  | none => .error .missingConfig
  | some config =>
    .ok {
      config := config
      overrides := path? .overrides
      outDirectory := (path? .outDirectory).getD ⟨"."⟩
      settings := path? .settings
      dump := reader.flags.contains .dump
      verbose := reader.flags.contains .verbose }

end Reader

def parse (arguments : List String) : Except UsageStop CommandLine :=
  match Reader.start.readAll false arguments with
  | .error stop => .error stop
  | .ok reader =>
    match reader.settle with
    | .error stop => .error stop
    | .ok reader => reader.finish

end CommandLine

end FeatureFlags
