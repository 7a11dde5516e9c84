import FeatureFlags.FileSystem.Change
import FeatureFlags.Log.Event

/-!
# Staged files

A generated file is only ever replaced as a whole. Its new content is first written to a temporary
file beside it, and then that file is renamed. Files that belong together are staged before the
first of them is committed, and if one cannot be committed, those before it get back what they
held.
-/

namespace FeatureFlags

/-- A written temporary file and the file that it is to replace. -/
structure Staged where
  temporary : Path
  target : Path
deriving DecidableEq, Repr

namespace Staged

/-- The temporary file of `target`: `.NAME.tmp` in the same directory. -/
def temporaryOf? (target : Path) : Option Path :=
  target.fileName?.map fun name =>
    (target.parent?.getD ⟨"."⟩).join ⟨"." ++ name ++ ".tmp"⟩

def prepareDirectory (files : FileSystem) (target : Path) :
    FileSystem × Except Error Unit :=
  match target.parent? with
  | none => (files, .ok ())
  | some directory =>
    if directory.text = "" || files.pathExists directory then (files, .ok ())
    else
      match files.makeDirectories directory with
      | (files, .ok ()) => (files, .ok ())
      | (files, .error fault) => (files, .error (.directoryNotCreated directory fault))

def removeIfPossible (files : FileSystem) (path : Path) : FileSystem :=
  match files.removeFile path with
  | .ok files => files
  | .error _ => files

/-- Writes a temporary file. One that is not filled is removed again. -/
def writeTemporary (files : FileSystem) (temporary : Path) (content : ByteArray) :
    FileSystem × Except Error Unit :=
  match files.write temporary content with
  | (files, .ok ()) => (files, .ok ())
  | (files, .error (.notOpened fault)) => (files, .error (.temporaryNotCreated temporary fault))
  | (files, .error (.notFilled fault)) =>
    (removeIfPossible files temporary, .error (.temporaryNotWritten temporary fault))

/-- Writes `content` to the temporary file of `target`, which itself stays as it is. -/
def stage (files : FileSystem) (target : Path) (content : ByteArray) :
    FileSystem × Except Error Staged :=
  match prepareDirectory files target with
  | (files, .error error) => (files, .error error)
  | (files, .ok ()) =>
    match temporaryOf? target with
    | none => (files, .error (.invalidOutputPath target))
    | some temporary =>
      match writeTemporary files temporary content with
      | (files, .ok ()) => (files, .ok ⟨temporary, target⟩)
      | (files, .error error) => (files, .error error)

/-- Renames the temporary file over its target. If that fails, the temporary file is removed. -/
def commit (files : FileSystem) (staged : Staged) : FileSystem × Except Error Path :=
  match files.rename staged.temporary staged.target with
  | .ok files => (files, .ok staged.target)
  | .error fault =>
    (removeIfPossible files staged.temporary, .error (.notReplaced staged.target fault))

def discard (files : FileSystem) (staged : Staged) : FileSystem :=
  removeIfPossible files staged.temporary

def discardAll (files : FileSystem) (staged : List Staged) : FileSystem :=
  staged.foldl discard files

def replace (files : FileSystem) (target : Path) (content : ByteArray) :
    FileSystem × Except Error Unit :=
  match stage files target content with
  | (files, .error error) => (files, .error error)
  | (files, .ok staged) =>
    match commit files staged with
    | (files, .ok _) => (files, .ok ())
    | (files, .error error) => (files, .error error)

/-- A committed target and the bytes that it held before, if it was a file that could be read. -/
structure Committed where
  target : Path
  previous : Option ByteArray

/-- Gives a target back what it held, or removes it if it held nothing. -/
def restore (files : FileSystem) (committed : Committed) : FileSystem × Except Error Unit :=
  match committed.previous with
  | some content => replace files committed.target content
  | none =>
    match files.removeFile committed.target with
    | .ok files => (files, .ok ())
    | .error fault => (files, .error (.notRemoved committed.target fault))

/-- Restores targets in the order given, and reports each one for which that fails. -/
def restoreAll (files : FileSystem) : List Committed → FileSystem × List Event
  | [] => (files, [])
  | committed :: rest =>
    match restore files committed with
    | (files, .ok ()) => restoreAll files rest
    | (files, .error error) =>
      let (files, events) := restoreAll files rest
      (files, .notRolledBack committed.target error :: events)

structure Outcome where
  files : FileSystem
  events : List Event
  result : Except Error (List Path)

/--
Commits files in order, after those in `done`, the last of which comes first. If one fails, the
rest are discarded and what is done is undone, the last of it first.
-/
def commitAfter (files : FileSystem) (done : List Committed) : List Staged → Outcome
  | [] => ⟨files, [], .ok (done.reverse.map (·.target))⟩
  | staged :: pending =>
    let previous := files.regularContent? staged.target
    match commit files staged with
    | (files, .ok target) => commitAfter files (⟨target, previous⟩ :: done) pending
    | (files, .error error) =>
      let (files, events) := restoreAll (discardAll files pending) done
      ⟨files, events, .error error⟩

def commitAll (files : FileSystem) (staged : List Staged) : Outcome :=
  commitAfter files [] staged

end Staged

end FeatureFlags
