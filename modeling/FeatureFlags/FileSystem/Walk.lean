import FeatureFlags.FileSystem.Fault
import FeatureFlags.FileSystem.Tree

/-!
# Walking along a path

A path is followed name by name from the root or from the working directory. Links on the way are
followed, a limited number of them; `.` stays and `..` goes up, from the root to the root. A path
that ends in `/` must lead to a directory, which is the same as a `.` at its end.
-/

namespace FeatureFlags

/-- How filling a file falls short: what it holds then, and the fault. -/
structure Shortfall where
  held : ByteArray
  fault : FileFault

/--
A directory tree, the directory that relative paths start from, and the files that cannot be filled:
`shortfall? place content` is what keeps the file at `place` from being filled with `content`.
-/
structure FileSystem where
  root : FileTree
  workingDirectory : Location
  shortfall? : Location → ByteArray → Option Shortfall

namespace Path

/-- The longest name of a directory entry, in bytes. -/
def maxNameBytes : Nat := 255

/-- The longest path that can be opened, in bytes. -/
def maxBytes : Nat := 4095

/-- How many links a walk follows. -/
def maxLinks : Nat := 40

def isEntryName (name : String) : Bool := name ≠ "." && name ≠ ".."

/-- The names of a walk that ends where the path leads, a directory after a `/`. -/
def stepsThrough (path : Path) : List String :=
  if path.endsInSlash then path.steps ++ ["."] else path.steps

/-- Where a walk along the path starts when it is met at `here`. -/
def startFrom (path : Path) (here : Location) : Location :=
  if path.isAbsolute then [] else here

/-- A path that can be handed to the system at all. -/
def check (path : Path) : Except FileFault Unit :=
  if path.text.toList.contains '\x00' then .error .nulInName
  else if path.text = "" then .error .notFound
  else .ok ()

/-- A path that can be opened, changed or asked about. -/
def checkLength (path : Path) : Except FileFault Unit :=
  if path.text.toList.contains '\x00' then .error .nulInName
  else if path.text = "" then .error .notFound
  else if maxBytes < path.text.utf8ByteSize then .error .nameTooLong
  else .ok ()

end Path

namespace FileSystem

/-- The files of a tree, seen from its root, all of which can be filled. -/
def ofRoot (root : FileTree) : FileSystem := ⟨root, [], fun _ _ => none⟩

def get? (files : FileSystem) (place : Location) : Option FileTree := files.root.get? place

/-- Where a walk ends, and how many more links may be followed from there. -/
structure Arrival where
  place : Location
  linksLeft : Nat
deriving DecidableEq, Repr

/--
Walks along `names` from `here` to a place where there is something. A link on the way or at the
end is followed, and `links` is how many of them may be.
-/
def walk (files : FileSystem) (links : Nat) (here : Location) (names : List String) :
    Except FileFault Arrival :=
  match names with
  | [] => if (files.get? here).isSome then .ok ⟨here, links⟩ else .error .notFound
  | name :: rest =>
    match files.get? here with
    | none => .error .notFound
    | some tree =>
      if !tree.isDirectory then .error .notADirectory
      else if name = "." then files.walk links here rest
      else if name = ".." then files.walk links here.dropLast rest
      else if Path.maxNameBytes < name.utf8ByteSize then .error .nameTooLong
      else
        match tree.child? name with
        | none => .error .notFound
        | some (.link target) =>
          match links with
          | 0 => .error .tooManyLinks
          | links + 1 => files.walk links (target.startFrom here) (target.stepsThrough ++ rest)
        | some _ => files.walk links (here ++ [name]) rest
termination_by (links, names.length)

theorem mem_locations_of_walk {files : FileSystem} {links : Nat} {here : Location}
    {names : List String} {arrival : Arrival}
    (h : files.walk links here names = .ok arrival) : arrival.place ∈ files.root.locations := by
  fun_induction FileSystem.walk files links here names <;> simp_all
  obtain ⟨found, hfound⟩ := Option.isSome_iff_exists.mp (by assumption)
  subst h
  exact FileTree.mem_locations hfound

theorem linksLeft_le_of_walk {files : FileSystem} {links : Nat} {here : Location}
    {names : List String} {arrival : Arrival}
    (h : files.walk links here names = .ok arrival) : arrival.linksLeft ≤ links := by
  fun_induction FileSystem.walk files links here names <;> simp_all
  · subst h
    exact Nat.le_refl _
  · omega

/-- The place that a path leads to when links are followed. -/
def canonical (files : FileSystem) (path : Path) : Except FileFault Location :=
  match path.check with
  | .error fault => .error fault
  | .ok () =>
    (files.walk Path.maxLinks (path.startFrom files.workingDirectory) path.stepsThrough).map
      Arrival.place

theorem mem_locations_of_canonical {files : FileSystem} {path : Path} {place : Location}
    (h : files.canonical path = .ok place) : place ∈ files.root.locations := by
  unfold canonical at h
  split at h
  · cases h
  · cases hwalk : files.walk Path.maxLinks (path.startFrom files.workingDirectory)
        path.stepsThrough with
    | error fault => simp [hwalk, Except.map] at h
    | ok arrival =>
      simp only [hwalk, Except.map, Except.ok.injEq] at h
      exact h ▸ mem_locations_of_walk hwalk

def stat (files : FileSystem) (path : Path) : Except FileFault FileTree := do
  path.checkLength
  let place ← files.canonical path
  match files.get? place with
  | some tree => .ok tree
  | none => .error .notFound

def pathExists (files : FileSystem) (path : Path) : Bool :=
  match files.stat path with
  | .ok _ => true
  | .error _ => false

def isDirectory (files : FileSystem) (path : Path) : Bool :=
  match files.stat path with
  | .ok tree => tree.isDirectory
  | .error _ => false

/-- Whether a path leads to a regular file, which need not be readable. -/
def isRegular (files : FileSystem) (path : Path) : Bool :=
  match files.stat path with
  | .ok tree => tree.isRegular
  | .error _ => false

/-- The bytes that reading a file gives. No memory holds those of the full device. -/
def readBytes (files : FileSystem) (path : Path) : Except FileFault ByteArray := do
  match ← files.stat path with
  | .file content => .ok content
  | .sealed _ => .error .permissionDenied
  | .device .null => .ok .empty
  | .device .full => .error .outOfMemory
  | .directory _ => .error .isADirectory
  | .link _ => .error .tooManyLinks

def readText (files : FileSystem) (path : Path) : Except FileFault String := do
  match String.fromUTF8? (← files.readBytes path) with
  | some text => .ok text
  | none => .error .notUtf8

/-- The bytes of a path that leads to a regular file, if they can be read. -/
def regularContent? (files : FileSystem) (path : Path) : Option ByteArray :=
  if files.isRegular path then (files.readBytes path).toOption else none

/-- An entry of a directory, as a path names it. -/
structure DirectoryEntry where
  directory : Location
  /-- `.`, `..` or nothing (for the root) if the path names no entry. -/
  name : String
  /-- The path has a `/` after the name. -/
  asDirectory : Bool
deriving DecidableEq, Repr

namespace DirectoryEntry

def isProper (entry : DirectoryEntry) : Bool :=
  entry.name ≠ "" && Path.isEntryName entry.name

def place (entry : DirectoryEntry) : Location := entry.directory ++ [entry.name]

end DirectoryEntry

/--
The entry that the last of `names` stands for, and how many more links may be followed from there:
links before it are.
-/
def entryFrom (files : FileSystem) (links : Nat) (start : Location) (names : List String)
    (asDirectory : Bool) : Except FileFault (DirectoryEntry × Nat) :=
  match names.getLast? with
  | none => .ok (⟨[], "", asDirectory⟩, links)
  | some name =>
    match files.walk links start names.dropLast with
    | .error fault => .error fault
    | .ok arrival =>
      match files.get? arrival.place with
      | some tree =>
        if tree.isDirectory then .ok (⟨arrival.place, name, asDirectory⟩, arrival.linksLeft)
        else .error .notADirectory
      | none => .error .notFound

theorem linksLeft_le_of_entryFrom {files : FileSystem} {links : Nat} {start : Location}
    {names : List String} {asDirectory : Bool} {entry : DirectoryEntry} {linksLeft : Nat}
    (h : files.entryFrom links start names asDirectory = .ok (entry, linksLeft)) :
    linksLeft ≤ links := by
  unfold entryFrom at h
  split at h
  · simp_all
  · split at h
    · cases h
    · rename_i hwalk
      have hle := linksLeft_le_of_walk hwalk
      split at h
      · split at h <;> simp_all
      · cases h

/-- The entry that a path stands for; a link there is not followed. -/
def entry (files : FileSystem) (path : Path) : Except FileFault DirectoryEntry := do
  path.checkLength
  let (entry, _) ←
    files.entryFrom Path.maxLinks (path.startFrom files.workingDirectory) path.steps
      path.endsInSlash
  .ok entry

def lookup (files : FileSystem) (entry : DirectoryEntry) : Except FileFault (Option FileTree) :=
  if Path.maxNameBytes < entry.name.utf8ByteSize then .error .nameTooLong
  else .ok (files.get? entry.place)

end FileSystem

end FeatureFlags
