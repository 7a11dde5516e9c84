import FeatureFlags.FileSystem.Walk

/-!
# Changing files

Making directories, writing a file, renaming and removing. Each operation gives the file system
after it or the fault that stopped it; one that can stop half-way gives both.
-/

namespace FeatureFlags.FileSystem

def put (files : FileSystem) (place : Location) (tree : FileTree) : FileSystem :=
  { files with root := files.root.put place tree }

def erase (files : FileSystem) (place : Location) : FileSystem :=
  { files with root := files.root.erase place }

/-- Makes one directory. Whatever is there already, a link included, stands in the way. -/
def makeDirectory (files : FileSystem) (path : Path) : Except FileFault FileSystem := do
  let entry ← files.entry path
  if !entry.isProper then .error .alreadyExists
  else
    match ← files.lookup entry with
    | some _ => .error .alreadyExists
    | none => .ok (files.put entry.place (.directory []))

/--
Makes the first of `paths`, whose parents follow it, and those of its parents that are missing.
What was made before a fault stays.
-/
def makeFirst (files : FileSystem) : List Path → FileSystem × Except FileFault Unit
  | [] => (files, .error .notFound)
  | path :: parents =>
    if path.text = "" then (files, .ok ())
    else
      match files.makeDirectory path with
      | .ok files => (files, .ok ())
      | .error .notFound =>
        match files.makeFirst parents with
        | (files, .error fault) => (files, .error fault)
        | (files, .ok ()) =>
          match files.makeDirectory path with
          | .ok files => (files, .ok ())
          | .error fault => (files, if files.isDirectory path then .ok () else .error fault)
      | .error fault => (files, if files.isDirectory path then .ok () else .error fault)

def makeDirectories (files : FileSystem) (path : Path) :
    FileSystem × Except FileFault Unit :=
  files.makeFirst path.ancestors

/-- What opening a file for writing meets: the place to write to, or a link to be followed. -/
inductive Opening where
  | place (place : Location)
  /-- A link in `directory`, after which `linksLeft` more may be followed, itself included. -/
  | link (directory : Location) (target : Path) (linksLeft : Nat)
deriving Repr

/-- Opens the entry that the last of `names` stands for, whether anything is there or not. -/
def openEntry (files : FileSystem) (links : Nat) (start : Location) (names : List String)
    (asDirectory : Bool) : Except FileFault Opening :=
  match files.entryFrom links start names asDirectory with
  | .error fault => .error fault
  | .ok (entry, linksLeft) =>
    if !entry.isProper || entry.asDirectory then .error .isADirectory
    else
      match files.lookup entry with
      | .error fault => .error fault
      | .ok (some (.directory _)) => .error .isADirectory
      | .ok (some (.sealed _)) => .error .permissionDenied
      | .ok (some (.link target)) => .ok (.link entry.directory target linksLeft)
      | .ok _ => .ok (.place entry.place)

theorem linksLeft_le_of_openEntry {files : FileSystem} {links : Nat} {start : Location}
    {names : List String} {asDirectory : Bool} {directory : Location} {target : Path}
    {linksLeft : Nat}
    (h : files.openEntry links start names asDirectory = .ok (.link directory target linksLeft)) :
    linksLeft ≤ links := by
  unfold openEntry at h
  split at h
  · cases h
  · rename_i hentry
    have hle := linksLeft_le_of_entryFrom hentry
    split at h
    · cases h
    · split at h <;> simp_all

/--
The place that a file opened for writing is at. A link at the end is followed, even to a place
where nothing is yet; all links on the way count.
-/
def writePlace (files : FileSystem) (links : Nat) (start : Location) (names : List String)
    (asDirectory : Bool) : Except FileFault Location :=
  match _hopen : files.openEntry links start names asDirectory with
  | .error fault => .error fault
  | .ok (.place place) => .ok place
  | .ok (.link _ _ 0) => .error .tooManyLinks
  | .ok (.link directory target (links + 1)) =>
    files.writePlace links (target.startFrom directory) target.steps target.endsInSlash
termination_by links
decreasing_by exact linksLeft_le_of_openEntry _hopen

/-- Why a file was not written: it could not be opened, or not filled. -/
inductive WriteFault where
  | notOpened (fault : FileFault)
  | notFilled (fault : FileFault)
deriving DecidableEq, Repr

/--
Replaces what an open file holds and waits until it is stored. A full device takes no byte, no
device can be waited for, and a regular file holds what it took when the filling falls short.
-/
def fill (files : FileSystem) (place : Location) (content : ByteArray) :
    FileSystem × Except FileFault Unit :=
  match files.get? place with
  | some (.device .full) =>
    (files, .error (if content.size = 0 then .invalidArgument else .noSpaceLeft))
  | some (.device .null) => (files, .error .invalidArgument)
  | _ =>
    match files.shortfall? place content with
    | none => (files.put place (.file content), .ok ())
    | some short => (files.put place (.file short.held), .error short.fault)

def write (files : FileSystem) (path : Path) (content : ByteArray) :
    FileSystem × Except WriteFault Unit :=
  let opened := do
    path.checkLength
    files.writePlace Path.maxLinks (path.startFrom files.workingDirectory) path.steps
      path.endsInSlash
  match opened with
  | .error fault => (files, .error (.notOpened fault))
  | .ok place =>
    match files.fill place content with
    | (files, .ok ()) => (files, .ok ())
    | (files, .error fault) => (files, .error (.notFilled fault))

/-- Removes an entry that is not a directory; a link is removed itself. -/
def removeFile (files : FileSystem) (path : Path) : Except FileFault FileSystem := do
  let entry ← files.entry path
  if !entry.isProper then .error .isADirectory
  else
    match ← files.lookup entry with
    | none => .error .notFound
    | some (.directory _) => .error .isADirectory
    | some _ => if entry.asDirectory then .error .notADirectory else .ok (files.erase entry.place)

/--
Gives what is at `old` the entry `new`, in the place of whatever may be replaced there: a file or
link by anything but a directory, an empty directory by a directory.
-/
def rename (files : FileSystem) (old new : Path) : Except FileFault FileSystem := do
  let source ← files.entry old
  let target ← files.entry new
  if !source.isProper || !target.isProper then .error .busy
  else
    match ← files.lookup source with
    | none => .error .notFound
    | some moved =>
      let replaced ← files.lookup target
      let renamed := (files.erase source.place).put target.place moved
      if moved.isDirectory then
        if source.place <+: target.directory then .error .invalidArgument
        else if target.place <+: source.directory then .error .directoryNotEmpty
        else if source.place = target.place then .ok files
        else
          match replaced with
          | none => .ok renamed
          | some (.directory children) =>
            if children = [] then .ok renamed else .error .directoryNotEmpty
          | some _ => .error .notADirectory
      else if source.asDirectory || target.asDirectory then .error .notADirectory
      else if target.place <+: source.directory then .error .directoryNotEmpty
      else if source.place = target.place then .ok files
      else
        match replaced with
        | some (.directory _) => .error .isADirectory
        | _ => .ok renamed

end FeatureFlags.FileSystem
