import FeatureFlags.Program

/-!
# The disk

Between the files of the disk and a file system as a value: what a run may look at is taken from
the disk before it, and the files that it wrote are put there after it.
-/

namespace FeatureFlags.Disk

def pathOf (place : Location) : String := "/" ++ "/".intercalate place

def emptyAt (workingDirectory : Location) : FileSystem :=
  { FileSystem.ofRoot (.directory []) with workingDirectory }

/-- Adds what is at a place, and the directories that lead there from `above`. -/
def add (files : FileSystem) (above : Location) (tree : FileTree) : Location → FileSystem
  | [] => files
  | name :: rest =>
    let place := above ++ [name]
    if (files.get? place).isSome then add files place tree rest
    else add (files.put place (if rest = [] then tree else .directory [])) place tree rest

/--
What the disk has under a path, and the place of it when links are followed. What is in a file that
cannot be read is left out.
-/
def look (path : String) : IO (Option (Location × FileTree)) := do
  try
    let real ← IO.FS.realPath path
    let place := (Path.mk real.toString).steps
    match (← real.metadata).type with
    | .dir => return some (place, .directory [])
    | .file =>
      try
        return some (place, .file (← IO.FS.readBinFile real))
      catch _ => return some (place, .sealed .empty)
    | _ => return none
  catch _ => return none

/-- Takes over what a walk along `names` meets on the disk, up to the first name that is not there. -/
def takeAlong (files : FileSystem) (here : Location) : List String → IO FileSystem
  | [] => return files
  | name :: rest => do
    if name = "." then takeAlong files here rest
    else if name = ".." then takeAlong files here.dropLast rest
    else
      let place := here ++ [name]
      match ← look (pathOf place) with
      | none => return files
      | some (real, tree) =>
        let files := add files [] tree real
        let files :=
          if real = place then files else add files [] (.link ⟨pathOf real⟩) place
        takeAlong files real rest

def takePath (files : FileSystem) (path : Path) : IO FileSystem :=
  takeAlong files (path.startFrom files.workingDirectory) path.steps

def takePaths (files : FileSystem) (paths : List Path) : IO FileSystem :=
  paths.foldlM takePath files

/-- Takes over included files, one for each attempt to read the inputs of a run. -/
partial def takeIncluded (files : FileSystem) (commandLine : CommandLine) : IO FileSystem := do
  match (Generation.inputsOf files commandLine).2 with
  | .error (.unreadableInclude path _ .notFound) =>
    let more ← takePath files path
    if more.pathExists path then takeIncluded more commandLine else return more
  | _ => return files

def outputs (commandLine : CommandLine) (settings : Settings) : List Path :=
  let (makefile, header) := Fragments.targets commandLine.outDirectory settings
  [makefile, header] ++ [makefile, header].filterMap Staged.temporaryOf?

/-- What a run may look at. -/
def take (commandLine : CommandLine) : IO FileSystem := do
  let here ← IO.currentDir
  let start := emptyAt (Path.mk here.toString).steps
  let files ← takePaths start
    (⟨"."⟩ :: ⟨here.toString⟩ :: commandLine.config :: commandLine.outDirectory ::
      (commandLine.settings.toList ++ commandLine.overrides.toList))
  let files ← takeIncluded files commandLine
  match Generation.settingsOf files commandLine.settings with
  | .ok settings => takePaths files (outputs commandLine settings)
  | .error _ => return files

def store (files : FileSystem) (target : Path) : IO Unit := do
  match files.regularContent? target, Staged.temporaryOf? target with
  | some content, some temporary =>
    if let some directory := target.parent? then
      if directory.text ≠ "" then IO.FS.createDirAll directory.text
    IO.FS.writeBinFile temporary.text content
    IO.FS.rename temporary.text target.text
  | _, _ => return

end FeatureFlags.Disk
