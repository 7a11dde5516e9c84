import FeatureFlags.FileSystem.Walk
import FeatureFlags.Table

/-!
# Description files

A description is read line by line into a table. An include line reads another file in place; its
path is relative to the directory of the including file as that was spelled. A file may be read
many times over, but not while it is open itself, by whatever path or link it is reached. That
rule ends the reading: each file opened inside another is one more of the finitely many places of
the file system (`unopened_lt`).
-/

namespace FeatureFlags

/-- A table that is being filled, and the events so far. -/
structure Reading where
  table : Table
  events : Array Event

namespace Reading

def start (table : Table) : Reading := ⟨table, #[]⟩

def report (reading : Reading) (event : Event) : Reading :=
  { reading with events := reading.events.push event }

def insert (reading : Reading) (entry : Entry) : Reading :=
  ⟨reading.table.insert entry, reading.events ++ reading.table.redefinition entry⟩

end Reading

namespace Description

/-- How many places of the file system are not among the open files. -/
def unopened (files : FileSystem) (openFiles : List Location) : Nat :=
  (files.root.locations.filter (· ∉ openFiles)).length

theorem unopened_lt {files : FileSystem} {openFiles : List Location} {place : Location}
    (hmem : place ∈ files.root.locations) (hopen : place ∉ openFiles) :
    unopened files (place :: openFiles) < unopened files openFiles := by
  have hsplit : files.root.locations.filter (· ∉ place :: openFiles) =
      (files.root.locations.filter (· ∉ openFiles)).filter (· ≠ place) := by
    rw [List.filter_filter]
    exact List.filter_congr fun other _ => by simp [not_or]
  rw [unopened, unopened, hsplit, List.length_filter_lt_length_iff_exists]
  exact ⟨place, by simp [hmem, hopen], by simp⟩

/-- The fault of a file that cannot be read, with the line that includes it if there is one. -/
def unreadable (path : Path) (includedAt : Option Origin) (fault : FileFault) : Error :=
  match includedAt with
  | some origin => .unreadableInclude path origin fault
  | none => .unreadableDescription path fault

/-- The place and the text of a file that is not open already. -/
def openFile (files : FileSystem) (openFiles : List Location) (path : Path)
    (includedAt : Option Origin) : Except Error (Location × String) :=
  match files.canonical path with
  | .error fault => .error (unreadable path includedAt fault)
  | .ok place =>
    if place ∈ openFiles then .error (.badLine (includedAt.getD ⟨path, 0⟩) (.includeCycle path))
    else
      match files.readText path with
      | .error fault => .error (unreadable path includedAt fault)
      | .ok text => .ok (place, text)

/-- What opening a file reports. -/
def openEvent (path : Path) : Option Origin → Event
  | some origin => .includingDescription path origin
  | none => .parsingDescription path

/-- The numbered lines of a text. -/
def numbered (text : String) : List (List Char × Nat) := (Text.lines text.toList).zipIdx 1

/-- The path that an include line of `file` names. -/
def includePath (file : Path) (target : String) : Path :=
  (file.parent?.getD ⟨""⟩).join ⟨target⟩

theorem mem_locations_of_openFile {files : FileSystem} {openFiles : List Location} {path : Path}
    {includedAt : Option Origin} {place : Location} {text : String}
    (h : openFile files openFiles path includedAt = .ok (place, text)) :
    place ∈ files.root.locations ∧ place ∉ openFiles := by
  unfold openFile at h
  split at h
  · cases h
  · next found hfound =>
    split at h
    · cases h
    · next hopen =>
      split at h
      · cases h
      · cases h
        exact ⟨FileSystem.mem_locations_of_canonical hfound, hopen⟩

/-- Reads numbered lines of `file` while `openFiles` are open; the first error ends it. -/
def readLines (files : FileSystem) (openFiles : List Location) (file : Path)
    (lines : List (List Char × Nat)) (reading : Reading) : Reading × Except Error Unit :=
  match lines with
  | [] => (reading, .ok ())
  | (line, number) :: rest =>
    match Declaration.parse ⟨file, number⟩ (String.ofList line) with
    | .error error => (reading, .error error)
    | .ok none => readLines files openFiles file rest reading
    | .ok (some (.entry entry)) => readLines files openFiles file rest (reading.insert entry)
    | .ok (some (.inclusion target)) =>
      let path := includePath file target
      match _hopen : openFile files openFiles path (some ⟨file, number⟩) with
      | .error error => (reading, .error error)
      | .ok (place, text) =>
        match readLines files (place :: openFiles) path (numbered text)
            (reading.report (openEvent path (some ⟨file, number⟩))) with
        | (reading, .error error) => (reading, .error error)
        | (reading, .ok ()) => readLines files openFiles file rest reading
termination_by (unopened files openFiles, lines.length)
decreasing_by
  · exact Prod.Lex.right _ (Nat.lt_succ_self _)
  · exact Prod.Lex.right _ (Nat.lt_succ_self _)
  · have h := mem_locations_of_openFile ‹_›
    exact Prod.Lex.left _ _ (unopened_lt h.1 h.2)
  · exact Prod.Lex.right _ (Nat.lt_succ_self _)

/-- Reads a text that claims to come from `file`, which anchors its includes. -/
def readText (files : FileSystem) (file : Path) (text : String) (table : Table) :
    Reading × Except Error Unit :=
  readLines files [] file (numbered text) (.start table)

/-- Reads a file and everything it includes. -/
def load (files : FileSystem) (path : Path) (table : Table) : Reading × Except Error Unit :=
  match openFile files [] path none with
  | .error error => (.start table, .error error)
  | .ok (place, text) =>
    readLines files [place] path (numbered text) ((Reading.start table).report (openEvent path none))

end Description

end FeatureFlags
