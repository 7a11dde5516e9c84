import FeatureFlags.Proofs.Replacing

/-!
# Committing a batch

Any number of staged files is committed in order, and if one cannot be, the rest are discarded and
those before it are restored, the last one first. Each of these steps changes two entries at most,
those of the file and of its temporary file (`Changes`). So the steps of files whose entries are
apart do not see each other, and a batch is replaced as a whole or rolled back, but for what a target
was of which no bytes can be remembered (`commitAll_replaces_or_rolls_back`).
-/

namespace FeatureFlags.Staged

open FileSystem FileTree

/-- A staged file, with what was staged, and the entry that it is to replace. -/
structure Replacement where
  staged : Staged
  content : ByteArray
  directory : Location
  name : String

namespace Replacement

variable (r other : Replacement)

def spot : Location := r.directory ++ [r.name]

def temporarySpot : Location := r.directory ++ [temporaryName r.name]

/-- No entry of the one is at or below an entry of the other. -/
structure Independent : Prop where
  spots : Apart r.spot other.spot
  spotTemporary : Apart r.spot other.temporarySpot
  temporarySpot : Apart r.temporarySpot other.spot
  temporarySpots : Apart r.temporarySpot other.temporarySpot

variable {r other}

theorem Independent.symm (h : Independent r other) : Independent other r :=
  ⟨h.spots.symm, h.temporarySpot.symm, h.spotTemporary.symm, h.temporarySpots.symm⟩

end Replacement

/-! ## What a step changes -/

/-- `after` differs from `files` at most in the entries of `batch`, none of which a walk needs. -/
structure Changes (files : FileSystem) (batch : List Replacement) (after : FileSystem) : Prop where
  keeps : files.Keeps after
  elsewhere : ∀ {place : Location},
    (∀ r ∈ batch, Apart r.spot place ∧ Apart r.temporarySpot place) →
      after.get? place = files.get? place

namespace Changes

variable {files middle after : FileSystem} {r other : Replacement} {batch rest : List Replacement}

theorem refl (files : FileSystem) (batch : List Replacement) : Changes files batch files :=
  ⟨.refl files, fun _ => rfl⟩

theorem trans (h : Changes files batch middle) (h' : Changes middle batch after) :
    Changes files batch after :=
  ⟨h.keeps.trans h'.keeps, fun hplace => (h'.elsewhere hplace).trans (h.elsewhere hplace)⟩

theorem append (h : Changes files batch middle) (h' : Changes middle rest after) :
    Changes files (batch ++ rest) after := by
  refine ⟨h.keeps.trans h'.keeps, ?_⟩
  intro place hplace
  rw [h'.elsewhere fun r hr => hplace r (List.mem_append_right _ hr),
    h.elsewhere fun r hr => hplace r (List.mem_append_left _ hr)]

variable (h : Changes files batch after) (hindependent : ∀ r ∈ batch, r.Independent other)
include h hindependent

theorem get?_spot : after.get? other.spot = files.get? other.spot :=
  h.elsewhere fun r hr => ⟨(hindependent r hr).spots, (hindependent r hr).temporarySpot⟩

theorem get?_temporarySpot : after.get? other.temporarySpot = files.get? other.temporarySpot :=
  h.elsewhere fun r hr => ⟨(hindependent r hr).spotTemporary, (hindependent r hr).temporarySpots⟩

end Changes

/-! ## Steps -/

variable {files after : FileSystem} {r other : Replacement}

theorem apart_temporarySpot (r : Replacement) : Apart r.temporarySpot r.spot :=
  apart_siblings (temporaryName_ne r.name) r.directory

/--
`r` was staged, and the directory of its target is there. The temporary file is there too, or it is
gone already.
-/
structure Fresh (files : FileSystem) (r : Replacement) : Prop where
  staged : ∃ before after, stage before r.staged.target r.content = (after, .ok r.staged)
  name : r.staged.target.fileName? = some r.name
  directory : ∃ parent, r.staged.target.parent? = some parent ∧ files.LeadsTo parent r.directory
  temporary : files.get? r.temporarySpot = some (.file r.content) ∨
    files.get? r.temporarySpot = none

/-- `r` was committed: its file is in place. -/
structure Replaced (files : FileSystem) (r : Replacement) : Prop where
  name : PlainName r.name
  base : ∃ base, r.staged = ofName base r.name ∧ Fits base r.name ∧ files.LeadsTo base r.directory
  spot : files.get? r.spot = some (.file r.content)
  temporary : files.get? r.temporarySpot = none

/-- The temporary file of `r` is gone, and its target is as it was. -/
structure Drops (files : FileSystem) (r : Replacement) (after : FileSystem) : Prop where
  changes : Changes files [r] after
  spot : after.get? r.spot = files.get? r.spot
  temporary : after.get? r.temporarySpot = none

theorem Stages.changes {base : Path} {content : ByteArray}
    (h : Stages files base r.name content r.directory after)
    (hunlinked : Unlinked files r.directory r.name) : Changes files [r] after := by
  refine ⟨h.keeps, ?_⟩
  intro place hplace
  rw [(h.eq_put hunlinked).2]
  exact get?_put_of_apart files (hplace r List.mem_cons_self).2 _

/-- What staging gives is fresh, and it changes nothing but the temporary file. -/
theorem exists_fresh_of_stage {before : FileSystem} {target : Path} {content : ByteArray}
    {staged : Staged} (h : stage before target content = (after, .ok staged)) :
    ∃ prepared parent place name, prepareDirectory before target = (prepared, .ok ()) ∧
      staged.target = target ∧ target.parent? = some parent ∧ target.fileName? = some name ∧
      prepared.LeadsTo parent place ∧
      (Unlinked prepared place name →
        Fresh after ⟨staged, content, place, name⟩ ∧
          Changes prepared [⟨staged, content, place, name⟩] after ∧
          after.get? (place ++ [name]) = prepared.get? (place ++ [name]) ∧
          after.get? (place ++ [temporaryName name]) = some (.file content)) := by
  obtain ⟨rfl, htemporary, prepared, hprepared, hwrite⟩ := stage_eq_ok h
  obtain ⟨name, hname, hjoin⟩ := Option.map_eq_some_iff.mp htemporary
  obtain ⟨parent, hparent⟩ := Path.exists_parent?_of_fileName? hname
  rw [hparent] at hjoin
  rw [← hjoin] at hwrite
  obtain ⟨spot, hspot, -, rfl⟩ := write_eq_ok hwrite
  obtain ⟨-, -, place, hstages, -⟩ :=
    stages_of_writesAt (Path.plainName_of_fileName? hname) hspot content
  refine ⟨prepared, parent, place, name, hprepared, rfl, hparent, hname, hstages.leadsTo, ?_⟩
  intro hunlinked
  let r : Replacement := ⟨staged, content, place, name⟩
  have hchanges : Changes prepared [r] _ := Stages.changes hstages hunlinked
  have hheld := hstages.get?_temporaryName hunlinked
  exact ⟨⟨⟨before, _, h⟩, hname, ⟨parent, hparent, hchanges.keeps.leadsTo hstages.leadsTo⟩,
    .inl hheld⟩, hchanges, hstages.get?_name hunlinked, hheld⟩

theorem Fresh.plainName (h : Fresh files r) : PlainName r.name :=
  Path.plainName_of_fileName? h.name

/-- The temporary path leads to the temporary entry, and it is short enough to be used. -/
theorem Fresh.temporary_eq (h : Fresh files r) :
    ∃ parent, r.staged.target.parent? = some parent ∧ files.LeadsTo parent r.directory ∧
      r.staged.temporary = parent.join ⟨temporaryName r.name⟩ ∧
      r.staged.temporary.checkLength = .ok () ∧
      (temporaryName r.name).utf8ByteSize ≤ Path.maxNameBytes := by
  obtain ⟨before, after, hstage⟩ := h.staged
  obtain ⟨parent, hparent, hleads⟩ := h.directory
  obtain ⟨-, htemporary, prepared, -, hwrite⟩ := stage_eq_ok hstage
  have hjoin : r.staged.temporary = parent.join ⟨temporaryName r.name⟩ :=
    Option.some.inj (htemporary.symm.trans (temporaryOf?_of_parent? h.name hparent))
  obtain ⟨spot, hspot, -⟩ := write_eq_ok hwrite
  rw [hjoin] at hspot
  obtain ⟨hlength, hshort, -⟩ := stages_of_writesAt h.plainName hspot .empty
  exact ⟨parent, hparent, hleads, hjoin, hjoin ▸ hlength, hshort⟩

theorem drops_of_eq_none (h : files.get? r.temporarySpot = none) : Drops files r files :=
  ⟨.refl files [r], rfl, h⟩

theorem drops_erase (hdirectory : files.HasDirectory r.directory)
    (hnowhere : LeadsNowhere (files.get? r.temporarySpot)) :
    Drops files r (files.erase r.temporarySpot) := by
  have hwritable : files.Writable r.temporarySpot := ⟨⟨_, _, rfl, hdirectory⟩, hnowhere⟩
  refine ⟨⟨hwritable.keeps_erase, ?_⟩, ?_, ?_⟩
  · intro place hplace
    exact get?_erase_of_apart files (hplace r List.mem_cons_self).2
  · exact get?_erase_of_apart files (apart_temporarySpot r)
  · exact (get?_erase_entry hdirectory _ _).trans (if_pos rfl)

theorem Fresh.drops_discard (h : Fresh files r) : Drops files r (discard files r.staged) := by
  obtain ⟨parent, -, hleads, htemporary, hlength, hshort⟩ := h.temporary_eq
  have hname := plainName_temporaryName h.plainName
  unfold discard removeIfPossible
  rw [htemporary] at hlength ⊢
  rcases h.temporary with hfile | hnone
  · have hremove := (removeFile_join_eq_ok_iff hname).mpr
      ⟨hlength, hshort, r.directory, hleads, rfl, _, hfile, rfl⟩
    rw [hremove]
    apply drops_erase hleads.1
    rw [hfile]
    exact leadsNowhere_file r.content
  · split
    · next other hremove =>
        obtain ⟨-, -, place, hplace, -, tree, htree, -⟩ :=
          (removeFile_join_eq_ok_iff hname).mp hremove
        rw [hplace.unique hleads] at htree
        cases hnone.symm.trans htree
    · exact drops_of_eq_none hnone

theorem Moves.changes {base : Path} {content : ByteArray}
    (h : Moves files base r.name r.directory (.file content) after)
    (hnowhere : LeadsNowhere (files.get? r.spot)) : Changes files [r] after := by
  refine ⟨h.keeps hnowhere, ?_⟩
  intro place hplace
  obtain ⟨hspot, htemporary⟩ := hplace r List.mem_cons_self
  rw [h.eq_put]
  exact (get?_put_of_apart _ hspot _).trans (get?_erase_of_apart files htemporary)

theorem Moves.replaced {base : Path}
    (h : Moves files base r.name r.directory (.file r.content) after) (hname : PlainName r.name)
    (hstaged : r.staged = ofName base r.name) (hfits : Fits base r.name)
    (hleads : after.LeadsTo base r.directory) : Replaced after r :=
  ⟨hname, ⟨base, hstaged, hfits, hleads⟩, h.get?_name, h.get?_temporaryName⟩

/-- What the target of a commit that works is like. -/
theorem Fresh.of_rename (h : Fresh files r) (hrename :
    files.rename r.staged.temporary r.staged.target = .ok after) :
    files.get? r.temporarySpot = some (.file r.content) ∧
      (∃ base, r.staged = ofName base r.name ∧ files.LeadsTo base r.directory) ∧
      ∀ children, files.get? r.spot ≠ some (.directory children) := by
  obtain ⟨parent, hparent, hleads, htemporary, hlength, hshort⟩ := h.temporary_eq
  have hname := plainName_temporaryName h.plainName
  have hsource : files.entry r.staged.temporary =
      .ok ⟨r.directory, temporaryName r.name, false⟩ := by
    rw [htemporary] at hlength ⊢
    exact (entry_join_eq_ok_iff hname).mpr ⟨hlength, r.directory, hleads, rfl⟩
  have hfile : files.get? r.temporarySpot = some (.file r.content) := by
    obtain ⟨source, -, moved, hsource', -, -, -, hmoved, -⟩ := rename_eq_ok hrename
    cases hsource.symm.trans hsource'
    apply h.temporary.resolve_right
    intro hnone
    cases hnone.symm.trans hmoved
  obtain ⟨target, htarget, hproper, hplain, hdirectory⟩ :=
    rename_file_eq_ok hsource hfile hrename
  obtain ⟨base, htargetName, hjoin⟩ := exists_join_of_entry htarget hproper hplain
  have hsame : target.name = r.name := by
    have := h.name
    rw [hjoin, base.fileName?_join htargetName] at this
    exact Option.some.inj this
  rw [hjoin, base.parent?_join htargetName] at hparent
  cases hparent
  have hbase : files.LeadsTo base r.directory := leadsTo_trim_iff.mp hleads
  rw [hsame] at htargetName hjoin
  rw [hjoin] at htarget
  obtain ⟨-, place, hplace, rfl⟩ := (entry_join_eq_ok_iff htargetName).mp htarget
  rw [hplace.unique hbase] at hdirectory
  refine ⟨hfile, ⟨base, ?_, hbase⟩, hdirectory⟩
  unfold ofName
  rw [← htemporary, ← hjoin]

/-- Committing puts the file in place, or it fails and is as good as discarding. -/
theorem Fresh.commit_cases (h : Fresh files r)
    (hlink : ∀ target, files.get? r.spot ≠ some (.link target)) :
    (∃ after, commit files r.staged = (after, .ok r.staged.target) ∧
        LeadsNowhere (files.get? r.spot) ∧
        files.regularContent? r.staged.target = (files.get? r.spot).bind bytes? ∧
        Changes files [r] after ∧ Replaced after r) ∨
      ∃ fault, commit files r.staged =
        (discard files r.staged, .error (.notReplaced r.staged.target fault)) := by
  cases hrename : files.rename r.staged.temporary r.staged.target with
  | error fault =>
      right
      refine ⟨fault, ?_⟩
      unfold commit
      rw [hrename]
      rfl
  | ok after =>
      left
      obtain ⟨hfile, ⟨base, hstaged, hbase⟩, hdirectory⟩ := h.of_rename hrename
      have hname := h.plainName
      have hcommit : commit files r.staged = (after, .ok r.staged.target) := by
        unfold commit
        rw [hrename]
      have hnowhere : LeadsNowhere (files.get? r.spot) := by
        intro tree htree
        cases tree with
        | link target => exact absurd htree (hlink target)
        | directory children => exact absurd htree (hdirectory children)
        | _ => rfl
      have hcommit' := hcommit
      rw [hstaged] at hcommit'
      obtain ⟨-, hfits, place, moved, hmoves⟩ := commit_join_eq_ok hname hcommit'
      cases hmoves.leadsTo.unique hbase
      cases hmoves.found.symm.trans hfile
      have hchanges := hmoves.changes hnowhere
      refine ⟨after, hcommit, hnowhere, ?_, hchanges,
        hmoves.replaced hname hstaged hfits (hchanges.keeps.leadsTo hbase)⟩
      rw [hstaged]
      exact regularContent?_join hname hfits.path hfits.short hbase hnowhere

/-- A file that was committed can be removed again. -/
theorem Replaced.exists_removeFile (h : Replaced files r) :
    ∃ after, files.removeFile r.staged.target = .ok after ∧ Changes files [r] after ∧
      after.get? r.spot = none ∧ after.get? r.temporarySpot = none := by
  obtain ⟨base, hstaged, hfits, hbase⟩ := h.base
  have hremove := (removeFile_join_eq_ok_iff h.name).mpr
    ⟨hfits.path, hfits.short, r.directory, hbase, rfl, _, h.spot, rfl⟩
  have hwritable : files.Writable r.spot := by
    refine ⟨⟨_, _, rfl, hbase.1⟩, ?_⟩
    rw [h.spot]
    exact leadsNowhere_file r.content
  rw [hstaged]
  refine ⟨files.erase r.spot, hremove, ⟨hwritable.keeps_erase, ?_⟩, ?_, ?_⟩
  · intro place hplace
    exact get?_erase_of_apart files (hplace r List.mem_cons_self).1
  · exact (get?_erase_entry hbase.1 _ _).trans (if_pos rfl)
  · exact (get?_erase_of_apart files (apart_temporarySpot r).symm).trans h.temporary

/-- What was begun is removed again. -/
theorem Begins.drops {parent : Path} (h : Begins files parent r.name r.directory after)
    (hname : PlainName r.name) (hunlinked : Unlinked files r.directory r.name) :
    Drops files r (removeIfPossible after (parent.join ⟨temporaryName r.name⟩)) := by
  obtain ⟨hlength, hshort, held, hstages⟩ := h
  have hnowhere : LeadsNowhere (after.get? r.temporarySpot) := by
    have hfile : after.get? r.temporarySpot = some (.file held) :=
      hstages.get?_temporaryName hunlinked
    rw [hfile]
    exact leadsNowhere_file held
  obtain ⟨hchanges, hspot, htemporary⟩ :=
    drops_erase (hstages.keeps.hasDirectory hstages.leadsTo.1) hnowhere
  rw [hstages.removeIfPossible_eq hunlinked hname hlength hshort]
  exact ⟨(hstages.changes hunlinked).trans hchanges, hspot.trans (hstages.get?_name hunlinked),
    htemporary⟩

/-- A file that was committed can be replaced again, through the same temporary file. -/
theorem Replaced.exists_replace (h : Replaced files r) {content : ByteArray}
    (hfills : Fills files r.directory r.name content) :
    ∃ after, replace files r.staged.target content = (after, .ok ()) ∧ Changes files [r] after ∧
      after.get? r.spot = some (.file content) ∧ after.get? r.temporarySpot = none := by
  obtain ⟨base, hstaged, hfits, hbase⟩ := h.base
  have hunlinked : Unlinked files r.directory r.name := unlinked_of_eq_none h.temporary
  obtain ⟨middle, hstage, hstages⟩ := stage_join h.name hfits hbase
    (overwritable_of_eq_none h.temporary) hfills
  have hspot : middle.get? r.spot = some (.file r.content) :=
    (hstages.get?_name hunlinked).trans h.spot
  have hnowhere : LeadsNowhere (middle.get? r.spot) := by
    rw [hspot]
    exact leadsNowhere_file r.content
  have htemporary := hstages.get?_temporaryName hunlinked
  have hfree : ∀ children, middle.get? r.spot ≠ some (.directory children) := by
    rintro children hchildren
    cases hspot.symm.trans hchildren
  obtain ⟨after, hcommit, hmoves⟩ :=
    commit_join h.name hfits (hstages.keeps.leadsTo hbase) rfl htemporary hfree
  rw [hstaged]
  refine ⟨after, ?_, (hstages.changes hunlinked).trans (hmoves.changes hnowhere),
    hmoves.get?_name, hmoves.get?_temporaryName⟩
  unfold replace ofName
  simp only [hstage, hcommit]

/-- If its temporary file cannot be filled, it stays, and the temporary file is removed. -/
theorem Replaced.exists_replace_error (h : Replaced files r) {content : ByteArray}
    (hshort : ¬ Fills files r.directory r.name content) :
    ∃ after error, replace files r.staged.target content = (after, .error error) ∧
      Drops files r after := by
  obtain ⟨base, hstaged, hfits, hbase⟩ := h.base
  obtain ⟨short, hshort⟩ := Option.ne_none_iff_exists'.mp hshort
  have hfree := overwritable_of_eq_none h.temporary
  have hstage := stage_join_eq h.name hfits hbase hfree content
  simp only [hshort] at hstage
  have hbegins : Begins files base.trim r.name r.directory
      (files.put (r.directory ++ [temporaryName r.name]) (.file short.held)) :=
    ⟨hfits.temporaryPath, hfits.temporaryShort, short.held,
      stages_trim_iff.mpr (stages_put hbase hfree short.held)⟩
  refine ⟨_, .temporaryNotWritten (ofName base r.name).temporary short.fault, ?_,
    hbegins.drops h.name (unlinked_of_eq_none h.temporary)⟩
  rw [hstaged]
  unfold replace
  simp only [ofName, hstage]

/-- So it is restored to what is given for it, unless that cannot be written. -/
theorem Replaced.exists_restore (h : Replaced files r) {previous : Option ByteArray}
    (hfills : ∀ content, previous = some content → Fills files r.directory r.name content) :
    ∃ after, restore files ⟨r.staged.target, previous⟩ = (after, .ok ()) ∧
      Changes files [r] after ∧ after.get? r.spot = previous.map file ∧
      after.get? r.temporarySpot = none := by
  cases previous with
  | none =>
      obtain ⟨after, hremove, hafter⟩ := h.exists_removeFile
      refine ⟨after, ?_, hafter⟩
      unfold restore
      simp only [hremove]
  | some content =>
      obtain ⟨after, hreplace, hafter⟩ := h.exists_replace (hfills content rfl)
      exact ⟨after, hreplace, hafter⟩

/-! ## What a step leaves of the others -/

section Others

variable {batch : List Replacement} (hchanges : Changes files batch after)
  (hindependent : ∀ r ∈ batch, r.Independent other)
include hchanges hindependent

theorem Fresh.of_changes (h : Fresh files other) : Fresh after other := by
  obtain ⟨parent, hparent, hleads⟩ := h.directory
  refine ⟨h.staged, h.name, ⟨parent, hparent, hchanges.keeps.leadsTo hleads⟩, ?_⟩
  rw [hchanges.get?_temporarySpot hindependent]
  exact h.temporary

theorem Replaced.of_changes (h : Replaced files other) : Replaced after other := by
  obtain ⟨base, hstaged, hfits, hleads⟩ := h.base
  refine ⟨h.name, ⟨base, hstaged, hfits, hchanges.keeps.leadsTo hleads⟩, ?_, ?_⟩
  · rw [hchanges.get?_spot hindependent]
    exact h.spot
  · rw [hchanges.get?_temporarySpot hindependent]
    exact h.temporary

end Others

/-! ## Rolling back -/

/-- What no commit remembers: a regular file that cannot be read, or a special file. -/
def Forgotten (found : Option FileTree) : Prop :=
  (∃ content, found = some (.sealed content)) ∨ ∃ kind, found = some (.device kind)

/-- The bytes that `r` replaced could not be written again, which `event` tells. -/
structure Unrestored (start after : FileSystem) (r : Replacement) (event : Event) : Prop where
  short : ∃ content, start.get? r.spot = some (.file content) ∧
    ¬ Fills start r.directory r.name content
  event : ∃ error, event = .notRolledBack r.staged.target error
  spot : after.get? r.spot = some (.file r.content)

/-- How the target of `r` ends after a commit that failed. -/
inductive RollsBack (start after : FileSystem) (events : List Event) (r : Replacement) : Prop where
  | unchanged (hspot : after.get? r.spot = start.get? r.spot)
  | lost (hforgotten : Forgotten (start.get? r.spot)) (hspot : after.get? r.spot = none)
  | logged {event : Event} (hevent : event ∈ events) (hunrestored : Unrestored start after r event)

/-- The target of `r` was rolled back, and there is no temporary file. -/
structure Undone (start files : FileSystem) (events : List Event) (r : Replacement) : Prop where
  rollsBack : RollsBack start files events r
  temporary : files.get? r.temporarySpot = none

variable {start : FileSystem} {events : List Event}

theorem Unrestored.of_eq {event : Event} (h : Unrestored start files r event)
    (heq : after.get? r.spot = files.get? r.spot) : Unrestored start after r event :=
  ⟨h.short, h.event, heq.trans h.spot⟩

theorem RollsBack.of_eq {events' : List Event} (h : RollsBack start files events r)
    (heq : after.get? r.spot = files.get? r.spot) (hsub : events ⊆ events') :
    RollsBack start after events' r := by
  cases h with
  | unchanged hspot => exact .unchanged (heq.trans hspot)
  | lost hforgotten hspot => exact .lost hforgotten (heq.trans hspot)
  | logged hevent hunrestored => exact .logged (hsub hevent) (hunrestored.of_eq heq)

/-- A committed file that was restored replaced just that, or something that is forgotten. -/
theorem rollsBack_of_bytes (hnowhere : LeadsNowhere (start.get? r.spot))
    (h : after.get? r.spot = ((start.get? r.spot).bind bytes?).map file) :
    RollsBack start after events r := by
  cases hfound : start.get? r.spot with
  | none =>
      rw [hfound] at h
      exact .unchanged (h.trans hfound.symm)
  | some tree =>
      rw [hfound] at h hnowhere
      cases tree with
      | file content => exact .unchanged (h.trans hfound.symm)
      | sealed content => exact .lost (.inl ⟨content, hfound⟩) h
      | device kind => exact .lost (.inr ⟨kind, hfound⟩) h
      | link target => cases hnowhere _ rfl
      | directory children => cases hnowhere _ rfl

theorem Undone.of_changes {batch : List Replacement} {events' : List Event}
    (h : Undone start files events other) (hchanges : Changes files batch after)
    (hindependent : ∀ r ∈ batch, r.Independent other) (hsub : events ⊆ events') :
    Undone start after events' other :=
  ⟨h.rollsBack.of_eq (hchanges.get?_spot hindependent) hsub,
    (hchanges.get?_temporarySpot hindependent).trans h.temporary⟩

/-! ## Runs -/

theorem discardAll_fresh {batch : List Replacement} (hpairwise : batch.Pairwise (·.Independent ·))
    (hfresh : ∀ r ∈ batch, Fresh files r)
    (hsame : ∀ r ∈ batch, files.get? r.spot = start.get? r.spot) :
    Changes files batch (discardAll files (batch.map (·.staged))) ∧
      ∀ r ∈ batch, Undone start (discardAll files (batch.map (·.staged))) [] r := by
  induction batch generalizing files with
  | nil => exact ⟨.refl files [], by simp⟩
  | cons r rest ih =>
      obtain ⟨hindependent, hrest⟩ := List.pairwise_cons.mp hpairwise
      obtain ⟨hr, hfresh⟩ := List.forall_mem_cons.mp hfresh
      obtain ⟨hrsame, hsame⟩ := List.forall_mem_cons.mp hsame
      obtain ⟨hchanges, hspot, htemporary⟩ := hr.drops_discard
      have hapart : ∀ other ∈ rest, ∀ first ∈ [r], first.Independent other := by
        simpa using hindependent
      obtain ⟨hafter, hundone⟩ := ih hrest
        (fun other hother => (hfresh other hother).of_changes hchanges (hapart other hother))
        (fun other hother => (hchanges.get?_spot (hapart other hother)).trans (hsame other hother))
      refine ⟨hchanges.append hafter, List.forall_mem_cons.mpr ⟨?_, hundone⟩⟩
      have hr : Undone start (discard files r.staged) [] r :=
        ⟨.unchanged (hspot.trans hrsame), htemporary⟩
      exact hr.of_changes hafter (fun other hother => (hindependent other hother).symm)
        (List.Subset.refl [])

/-- What a commit remembers: the target, and the bytes of the regular file that was there. -/
def remembered (start : FileSystem) (r : Replacement) : Committed :=
  ⟨r.staged.target, (start.get? r.spot).bind bytes?⟩

/-- Restoring gives the bytes back that were remembered, or it tells why not. -/
theorem Replaced.restore_cases (h : Replaced files r)
    (hnowhere : LeadsNowhere (start.get? r.spot)) (hshortfall : files.shortfall? = start.shortfall?) :
    (∃ after, restore files (remembered start r) = (after, .ok ()) ∧ Changes files [r] after ∧
        Undone start after [] r) ∨
      ∃ after error, restore files (remembered start r) = (after, .error error) ∧
        Changes files [r] after ∧ after.get? r.temporarySpot = none ∧
        Unrestored start after r (.notRolledBack r.staged.target error) := by
  by_cases hfills : ∀ content, (start.get? r.spot).bind bytes? = some content →
      Fills files r.directory r.name content
  · left
    obtain ⟨after, hrestore, hchanges, hspot, htemporary⟩ := h.exists_restore hfills
    exact ⟨after, hrestore, hchanges, rollsBack_of_bytes hnowhere hspot, htemporary⟩
  · right
    obtain ⟨content, hbytes, hshort⟩ := not_forall₂.mp hfills
    obtain ⟨after, error, hreplace, hchanges, hspot, htemporary⟩ := h.exists_replace_error hshort
    have hfile : start.get? r.spot = some (.file content) := by
      obtain ⟨tree, htree, hheld⟩ := Option.bind_eq_some_iff.mp hbytes
      rw [htree, bytes?_eq_some_iff.mp hheld]
    refine ⟨after, error, ?_, hchanges, htemporary,
      ⟨content, hfile, mt (fills_congr hshortfall).mpr hshort⟩, ⟨error, rfl⟩, hspot.trans h.spot⟩
    unfold remembered restore
    rw [hbytes]
    exact hreplace

/-- Restoring one file undoes its commit, and what that reports is that it does not. -/
theorem Replaced.exists_restoreAll (h : Replaced files r)
    (hnowhere : LeadsNowhere (start.get? r.spot)) (hshortfall : files.shortfall? = start.shortfall?) :
    ∃ after events, restoreAll files [remembered start r] = (after, events) ∧
      Changes files [r] after ∧ Undone start after events r ∧
      ∀ event ∈ events, Unrestored start after r event := by
  rcases h.restore_cases hnowhere hshortfall with
    ⟨after, hrestore, hchanges, hundone⟩ |
    ⟨after, error, hrestore, hchanges, htemporary, hunrestored⟩
  · refine ⟨after, [], ?_, hchanges, hundone, by simp⟩
    simp only [restoreAll, hrestore]
  · refine ⟨after, [.notRolledBack r.staged.target error], ?_, hchanges,
      ⟨.logged List.mem_cons_self hunrestored, htemporary⟩, List.forall_mem_singleton.mpr hunrestored⟩
    simp only [restoreAll, hrestore]
    rfl

theorem restoreAll_cons {middle : FileSystem} {committed : Committed} {rest : List Committed}
    (hfirst : restoreAll files [committed] = (middle, events)) {events' : List Event}
    (hrest : restoreAll middle rest = (after, events')) :
    restoreAll files (committed :: rest) = (after, events ++ events') := by
  rw [restoreAll] at hfirst ⊢
  cases hrestore : restore files committed with
  | mk restored result =>
      cases result with
      | ok =>
          simp only [hrestore, restoreAll] at hfirst ⊢
          cases hfirst
          exact hrest
      | error error =>
          simp only [hrestore, restoreAll] at hfirst ⊢
          cases hfirst
          rw [hrest]
          rfl

theorem exists_restoreAll {batch : List Replacement} (hpairwise : batch.Pairwise (·.Independent ·))
    (hreplaced : ∀ r ∈ batch, Replaced files r)
    (hnowhere : ∀ r ∈ batch, LeadsNowhere (start.get? r.spot))
    (hshortfall : files.shortfall? = start.shortfall?) :
    ∃ after events, restoreAll files (batch.map (remembered start)) = (after, events) ∧
      Changes files batch after ∧ (∀ r ∈ batch, Undone start after events r) ∧
      ∀ event ∈ events, ∃ r ∈ batch, Unrestored start after r event := by
  induction batch generalizing files with
  | nil => exact ⟨files, [], rfl, .refl files [], by simp, by simp⟩
  | cons r rest ih =>
      obtain ⟨hindependent, hrest⟩ := List.pairwise_cons.mp hpairwise
      obtain ⟨hr, hreplaced⟩ := List.forall_mem_cons.mp hreplaced
      obtain ⟨hrnowhere, hnowhere⟩ := List.forall_mem_cons.mp hnowhere
      have hapart : ∀ other ∈ rest, ∀ first ∈ [r], first.Independent other := by
        simpa using hindependent
      have hapart' : ∀ other ∈ rest, other.Independent r :=
        fun other hother => (hindependent other hother).symm
      obtain ⟨middle, told, hrestore, hchanges, hundone, htold⟩ :=
        hr.exists_restoreAll hrnowhere hshortfall
      obtain ⟨after, events, hrestoreAll, hafter, hundones, hevents⟩ := ih hrest
        (fun other hother => (hreplaced other hother).of_changes hchanges (hapart other hother))
        hnowhere (hchanges.keeps.shortfall?.trans hshortfall)
      refine ⟨after, told ++ events, restoreAll_cons hrestore hrestoreAll, hchanges.append hafter,
        List.forall_mem_cons.mpr ⟨?_, ?_⟩, ?_⟩
      · exact hundone.of_changes hafter hapart' (List.subset_append_left told events)
      · intro other hother
        exact (hundones other hother).of_changes (.refl after []) (by simp)
          (List.subset_append_right told events)
      · intro event hevent
        rcases List.mem_append.mp hevent with hevent | hevent
        · exact ⟨r, List.mem_cons_self, (htold event hevent).of_eq (hafter.get?_spot hapart')⟩
        · obtain ⟨other, hother, hunrestored⟩ := hevents event hevent
          exact ⟨other, List.mem_cons_of_mem _ hother, hunrestored⟩

/-- Giving up in the middle of a batch: `pending` is discarded, and `past` is restored. -/
theorem exists_rollBack {past pending : List Replacement}
    (hpairwise : (past ++ pending).Pairwise (·.Independent ·))
    (hshortfall : files.shortfall? = start.shortfall?)
    (hpast : ∀ r ∈ past, Replaced files r ∧ LeadsNowhere (start.get? r.spot))
    (hpending : ∀ r ∈ pending, Fresh files r ∧ files.get? r.spot = start.get? r.spot) :
    ∃ after events, restoreAll (discardAll files (pending.map (·.staged)))
        (past.map (remembered start)) = (after, events) ∧
      (∀ r ∈ past ++ pending, Undone start after events r) ∧
      ∀ event ∈ events, ∃ r ∈ past ++ pending, Unrestored start after r event := by
  obtain ⟨hpastIndependent, hpendingIndependent, hcross⟩ := List.pairwise_append.mp hpairwise
  obtain ⟨hdiscarded, hundone⟩ := discardAll_fresh hpendingIndependent
    (fun r hr => (hpending r hr).1) (fun r hr => (hpending r hr).2)
  obtain ⟨after, events, hrestore, hchanges, hrestored, hevents⟩ :=
    exists_restoreAll hpastIndependent
      (fun other hother => (hpast other hother).1.of_changes hdiscarded
        fun first hfirst => (hcross other hother first hfirst).symm)
      (fun other hother => (hpast other hother).2)
      (hdiscarded.keeps.shortfall?.trans hshortfall)
  refine ⟨after, events, hrestore, ?_, ?_⟩
  · intro other hother
    rcases List.mem_append.mp hother with hother | hother
    · exact hrestored other hother
    · exact (hundone other hother).of_changes hchanges
        (fun first hfirst => hcross first hfirst other hother) (List.nil_subset events)
  · intro event hevent
    obtain ⟨other, hother, hunrestored⟩ := hevents event hevent
    exact ⟨other, List.mem_append_left _ hother, hunrestored⟩

/--
Commits from the middle of a batch on: `past` is committed, the last of it first, and `pending` is
still to come. Either all of the batch is replaced in the end, or all of it is undone.
-/
theorem commitAfter_cases {past pending : List Replacement}
    (hpairwise : (past ++ pending).Pairwise (·.Independent ·))
    (hshortfall : files.shortfall? = start.shortfall?)
    (hpast : ∀ r ∈ past, Replaced files r ∧ LeadsNowhere (start.get? r.spot))
    (hpending : ∀ r ∈ pending, Fresh files r ∧ files.get? r.spot = start.get? r.spot ∧
      ∀ target, start.get? r.spot ≠ some (.link target)) :
    (∃ after, commitAfter files (past.map (remembered start)) (pending.map (·.staged)) =
        ⟨after, [], .ok ((past.reverse ++ pending).map (·.staged.target))⟩ ∧
        ∀ r ∈ past ++ pending, Replaced after r ∧ LeadsNowhere (start.get? r.spot)) ∨
      ∃ after events error,
        commitAfter files (past.map (remembered start)) (pending.map (·.staged)) =
          ⟨after, events, .error error⟩ ∧
        (∀ r ∈ past ++ pending, Undone start after events r) ∧
        ∀ event ∈ events, ∃ r ∈ past ++ pending, Unrestored start after r event := by
  induction pending generalizing files past with
  | nil =>
      left
      refine ⟨files, ?_, ?_⟩
      · simp [commitAfter, remembered]
      · rw [List.append_nil]
        exact hpast
  | cons r rest ih =>
      have hall := hpending
      obtain ⟨⟨hr, hsame, hlink⟩, hpending⟩ := List.forall_mem_cons.mp hpending
      rw [← hsame] at hlink
      have hmiddle : (r :: past ++ rest).Pairwise (·.Independent ·) :=
        (List.pairwise_middle fun h => h.symm).mp hpairwise
      obtain ⟨hindependent, hothers⟩ := List.pairwise_cons.mp hmiddle
      have hapart : ∀ other ∈ past ++ rest, ∀ first ∈ [r], first.Independent other := by
        simpa using hindependent
      rcases hr.commit_cases hlink with
        ⟨middle, hcommit, hnowhere, hprevious, hchanges, hreplaced⟩ | ⟨fault, hcommit⟩
      · have hstep : commitAfter files (past.map (remembered start))
              ((r :: rest).map (·.staged)) =
            commitAfter middle ((r :: past).map (remembered start)) (rest.map (·.staged)) := by
          simp only [List.map_cons, commitAfter, hcommit, hprevious, hsame, remembered]
        have htargets : (past.reverse ++ r :: rest).map (·.staged.target) =
            ((r :: past).reverse ++ rest).map (·.staged.target) := by
          simp
        have hmem : ∀ other, other ∈ past ++ r :: rest ↔ other ∈ r :: past ++ rest :=
          fun other => List.perm_middle.mem_iff
        simp only [hstep, htargets, hmem]
        refine ih hmiddle (hchanges.keeps.shortfall?.trans hshortfall)
          (List.forall_mem_cons.mpr ⟨⟨hreplaced, hsame ▸ hnowhere⟩, ?_⟩) ?_
        · intro other hother
          obtain ⟨hreplaced, hnowhere⟩ := hpast other hother
          exact ⟨hreplaced.of_changes hchanges (hapart other (List.mem_append_left _ hother)),
            hnowhere⟩
        · intro other hother
          obtain ⟨hfresh, hsame, hlink⟩ := hpending other hother
          have hapart := hapart other (List.mem_append_right _ hother)
          exact ⟨hfresh.of_changes hchanges hapart, (hchanges.get?_spot hapart).trans hsame, hlink⟩
      · -- The failed one is as good as discarded: the discards start with it.
        right
        obtain ⟨after, events, hrestore, hundone, hevents⟩ :=
          exists_rollBack hpairwise hshortfall hpast
            fun other hother => ⟨(hall other hother).1, (hall other hother).2.1⟩
        refine ⟨after, events, .notReplaced r.staged.target fault, ?_, hundone, hevents⟩
        have hdiscard : discardAll files ((r :: rest).map (·.staged)) =
            discardAll (discard files r.staged) (rest.map (·.staged)) := rfl
        rw [hdiscard] at hrestore
        simp only [List.map_cons, commitAfter, hcommit, hrestore]

/-- Where the second of two files is a directory, the first is replaced and then restored. -/
theorem exists_commitAll_of_directory {half : FileSystem} {children : List (String × FileTree)}
    (hcommit : commit files r.staged = (half, .ok r.staged.target)) (hr : Replaced half r)
    (hother : Fresh half other) (hindependent : r.Independent other)
    (hblocked : half.get? other.spot = some (.directory children))
    (hfills : ∀ content, files.regularContent? r.staged.target = some content →
      Fills half r.directory r.name content) :
    ∃ after fault, commitAll files [r.staged, other.staged] =
        ⟨after, [], .error (.notReplaced other.staged.target fault)⟩ ∧ half.Keeps after ∧
      after.get? r.spot = (files.regularContent? r.staged.target).map file := by
  rcases hother.commit_cases (by rw [hblocked]; rintro target ⟨⟩) with
    ⟨_, -, hnowhere, -⟩ | ⟨fault, hcommit'⟩
  · cases hnowhere _ hblocked
  · obtain ⟨hdropped, -, -⟩ := hother.drops_discard
    have hr := hr.of_changes hdropped (List.forall_mem_singleton.mpr hindependent.symm)
    obtain ⟨after, hrestore, hchanges, hspot, -⟩ :=
      hr.exists_restore fun content hcontent => (hfills content hcontent).of_keeps hdropped.keeps
    refine ⟨after, fault, ?_, hdropped.keeps.trans hchanges.keeps, hspot⟩
    unfold commitAll
    simp only [commitAfter, hcommit, hcommit', discardAll, List.foldl, restoreAll, hrestore]

/-! ## All or none -/

/-- Different entries are apart, if none is above the directory of another. -/
theorem apart_of_ne {place place' : Location} {name name' : String}
    (hne : place ++ [name] ≠ place' ++ [name']) (habove : ¬ place ++ [name] <+: place')
    (hbelow : ¬ place' ++ [name'] <+: place) : Apart (place ++ [name]) (place' ++ [name']) := by
  constructor
  · intro hinit
    exact (List.prefix_concat_iff.mp hinit).elim hne habove
  · intro hinit
    exact (List.prefix_concat_iff.mp hinit).elim hne.symm hbelow

/-- What keeps the files of a batch out of each other's way. -/
structure Separate (files : FileSystem) (batch : List Replacement) : Prop where
  spots : batch.Pairwise fun r other => r.spot ≠ other.spot
  link : ∀ r ∈ batch, ∀ target, files.get? r.spot ≠ some (.link target)
  temporary : ∀ r ∈ batch, ∀ other ∈ batch, r.spot ≠ other.temporarySpot
  above : ∀ r ∈ batch, ∀ other ∈ batch,
    ¬ r.spot <+: other.directory ∧ ¬ r.temporarySpot <+: other.directory

theorem Separate.independent {batch : List Replacement} (h : Separate files batch) :
    batch.Pairwise (·.Independent ·) := by
  refine h.spots.imp_of_mem ?_
  intro r other hr hother hne
  obtain ⟨hspot, htemporary⟩ := h.above r hr other hother
  obtain ⟨hspot', htemporary'⟩ := h.above other hother r hr
  have hne' : r.temporarySpot ≠ other.temporarySpot := by
    intro heq
    obtain ⟨hdirectory, hname⟩ := List.append_inj' heq rfl
    apply hne
    unfold Replacement.spot
    rw [hdirectory, temporaryName_injective (List.singleton_inj.mp hname)]
  exact ⟨apart_of_ne hne hspot hspot',
    apart_of_ne (h.temporary r hr other hother) hspot htemporary',
    apart_of_ne (h.temporary other hother r hr).symm htemporary hspot',
    apart_of_ne hne' htemporary htemporary'⟩

theorem Replaced.readBytes (h : Replaced files r) :
    files.readBytes r.staged.target = .ok r.content := by
  obtain ⟨base, hstaged, hfits, hleads⟩ := h.base
  rw [hstaged]
  exact readBytes_join h.name hfits.path hfits.short hleads h.spot

theorem commitAll_cases {batch : List Replacement} (hfresh : ∀ r ∈ batch, Fresh files r)
    (hseparate : Separate files batch) :
    (∃ after, commitAll files (batch.map (·.staged)) =
        ⟨after, [], .ok (batch.map (·.staged.target))⟩ ∧
        ∀ r ∈ batch, Replaced after r ∧ LeadsNowhere (files.get? r.spot)) ∨
      ∃ after events error,
        commitAll files (batch.map (·.staged)) = ⟨after, events, .error error⟩ ∧
        (∀ r ∈ batch, Undone files after events r) ∧
        ∀ event ∈ events, ∃ r ∈ batch, Unrestored files after r event := by
  have hpending : ∀ r ∈ batch, Fresh files r ∧ files.get? r.spot = files.get? r.spot ∧
      ∀ target, files.get? r.spot ≠ some (.link target) :=
    fun r hr => ⟨hfresh r hr, rfl, hseparate.link r hr⟩
  have hpast : ∀ r ∈ ([] : List Replacement), Replaced files r ∧ LeadsNowhere (files.get? r.spot) :=
    by simp
  have hpairwise : ([] ++ batch).Pairwise Replacement.Independent := hseparate.independent
  have hcases := commitAfter_cases hpairwise rfl hpast hpending
  simpa [commitAll] using hcases

/-- What a commit that works does to a batch. -/
structure ReplacesAll (batch : List Replacement) (after : FileSystem) (events : List Event)
    (written : List Path) : Prop where
  written : written = batch.map (·.staged.target)
  silent : events = []
  spot : ∀ r ∈ batch, after.get? r.spot = some (.file r.content)
  reads : ∀ r ∈ batch, after.readBytes r.staged.target = .ok r.content

/-- What a commit that fails does to a batch. -/
structure RollsBackAll (start : FileSystem) (batch : List Replacement) (after : FileSystem)
    (events : List Event) : Prop where
  ends : ∀ r ∈ batch, RollsBack start after events r
  logs : ∀ event ∈ events, ∃ r ∈ batch, Unrestored start after r event
  unchanged : events = [] → ∀ r ∈ batch, ¬ Forgotten (start.get? r.spot) →
    after.get? r.spot = start.get? r.spot

/--
**A batch is replaced as a whole, or rolled back.** If committing works, it gives the targets in
order, and each holds and reads as what was staged for it. If it fails, at whichever file, each
target is what it was before, or it is left as the new file, which is logged, and only then, when
its bytes cannot be written again, or it is gone, if it was a special file or one that could not be
read. So if nothing was logged, each target is what it was, but for those. In both cases no
temporary file is left.
-/
theorem commitAll_replaces_or_rolls_back (files : FileSystem) (batch : List Replacement)
    (hfresh : ∀ r ∈ batch, Fresh files r) (hseparate : Separate files batch) :
    ∃ after events result, commitAll files (batch.map (·.staged)) = ⟨after, events, result⟩ ∧
      (∀ r ∈ batch, after.get? r.temporarySpot = none) ∧
      match result with
      | .ok written => ReplacesAll batch after events written
      | .error _ => RollsBackAll files batch after events := by
  rcases commitAll_cases hfresh hseparate with
    ⟨after, hcommit, hreplaced⟩ | ⟨after, events, error, hcommit, hundone, hevents⟩
  · refine ⟨after, [], _, hcommit, fun r hr => (hreplaced r hr).1.temporary, rfl, rfl, ?_, ?_⟩
    · exact fun r hr => (hreplaced r hr).1.spot
    · exact fun r hr => (hreplaced r hr).1.readBytes
  · refine ⟨after, events, _, hcommit, fun r hr => (hundone r hr).temporary, ?_, hevents, ?_⟩
    · exact fun r hr => (hundone r hr).rollsBack
    · intro hsilent r hr hremembered
      cases (hundone r hr).rollsBack with
      | unchanged hspot => exact hspot
      | lost hforgotten => exact absurd hforgotten hremembered
      | logged hevent =>
          rw [hsilent] at hevent
          cases hevent

/-- Something called `a` and an empty directory, and a staged file beside each. -/
def halfway (first : FileTree) : FileSystem :=
  .ofRoot (.directory [("a", first), ("d", .directory []), (".a.tmp", .file ⟨#[2]⟩),
    (".d.tmp", .file ⟨#[3]⟩)])

def halfwayBatch : List Replacement :=
  [⟨ofName ⟨""⟩ "a", ⟨#[2]⟩, [], "a"⟩, ⟨ofName ⟨""⟩ "d", ⟨#[3]⟩, [], "d"⟩]

theorem leadsTo_ofRoot (children : List (String × FileTree)) :
    (FileSystem.ofRoot (.directory children)).LeadsTo ⟨""⟩ [] :=
  ⟨⟨_, rfl, rfl⟩, _, .done rfl⟩

theorem fresh_halfway {first : FileTree} {name : String} {content : ByteArray}
    (hname : PlainName name) (hfits : Fits ⟨""⟩ name)
    (htemporary : (halfway first).get? [temporaryName name] = some (.file content)) :
    Fresh (halfway first) ⟨ofName ⟨""⟩ name, content, [], name⟩ := by
  have hfills : Fills (.ofRoot (.directory [])) [] name content := fills_ofRoot
  obtain ⟨after, hstage, -⟩ := stage_join hname hfits (leadsTo_ofRoot [])
    (overwritable_of_eq_none rfl) hfills
  exact ⟨⟨_, after, hstage⟩, Path.fileName?_join ⟨""⟩ hname,
    ⟨_, Path.parent?_join ⟨""⟩ hname, leadsTo_trim_iff.mpr (leadsTo_ofRoot _)⟩, .inl htemporary⟩

theorem fresh_halfwayBatch (first : FileTree) : ∀ r ∈ halfwayBatch, Fresh (halfway first) r := by
  refine List.forall_mem_cons.mpr ⟨?_, List.forall_mem_cons.mpr ⟨?_, by simp⟩⟩
  · exact fresh_halfway (plainName_of_isFileName rfl) ⟨rfl, rfl, by decide, by decide⟩ rfl
  · exact fresh_halfway (plainName_of_isFileName rfl) ⟨rfl, rfl, by decide, by decide⟩ rfl

theorem separate_halfwayBatch {first : FileTree} (hfirst : first.leadsOn = false) :
    Separate (halfway first) halfwayBatch := by
  refine ⟨by decide, ?_, by decide, by decide⟩
  refine List.forall_mem_cons.mpr ⟨?_, List.forall_mem_cons.mpr ⟨?_, by simp⟩⟩
  · rintro target hlink
    rw [Option.some.inj hlink] at hfirst
    cases hfirst
  · rintro target ⟨⟩

/-- A directory is in the way of the second file. -/
theorem exists_commitAll_halfway (first : FileTree) (hfirst : first.leadsOn = false) :
    ∃ after error, commitAll (halfway first) (halfwayBatch.map (·.staged)) =
        ⟨after, [], .error error⟩ ∧ after.get? ["a"] = first.bytes?.map file := by
  have ha := fresh_halfwayBatch first _ List.mem_cons_self
  have hd := fresh_halfwayBatch first _ (List.mem_cons_of_mem _ List.mem_cons_self)
  have hfits : Fits ⟨""⟩ "a" := ⟨rfl, rfl, by decide, by decide⟩
  have hname : PlainName "a" := plainName_of_isFileName rfl
  have hleads : (halfway first).LeadsTo ⟨""⟩ [] := leadsTo_ofRoot _
  have hne : ∀ tree, tree.leadsOn = true → (halfway first).get? ["a"] ≠ some tree := by
    rintro tree hleads hsame
    rw [← Option.some.inj hsame, hfirst] at hleads
    cases hleads
  rcases ha.commit_cases fun target => hne _ rfl with
    ⟨half, hcommit, hnowhere, hprevious, hchanges, hreplaced⟩ | ⟨fault, hcommit⟩
  · have hapart := List.pairwise_pair.mp (separate_halfwayBatch hfirst).independent
    have hblocked := hchanges.get?_spot (List.forall_mem_singleton.mpr hapart)
    obtain ⟨after, fault, hfails, -, hspot⟩ := exists_commitAll_of_directory hcommit hreplaced
      (hd.of_changes hchanges (List.forall_mem_singleton.mpr hapart)) hapart hblocked
      fun content _ => fills_ofRoot.of_keeps hchanges.keeps
    rw [hprevious] at hspot
    exact ⟨after, _, hfails, hspot⟩
  · obtain ⟨half, hworks, -⟩ := commit_join hname hfits hleads rfl rfl fun children => hne _ rfl
    cases hworks.symm.trans hcommit

theorem commitAll_replaces_or_rolls_back_halfway :
    (∀ r ∈ halfwayBatch, Fresh (halfway (.file ⟨#[1]⟩)) r) ∧
      Separate (halfway (.file ⟨#[1]⟩)) halfwayBatch ∧
      ∃ after error, commitAll (halfway (.file ⟨#[1]⟩)) (halfwayBatch.map (·.staged)) =
          ⟨after, [], .error error⟩ ∧
        after.get? [".a.tmp"] = none ∧ after.get? [".d.tmp"] = none ∧
        after.get? ["a"] = some (.file ⟨#[1]⟩) ∧ after.get? ["d"] = some (.directory []) := by
  have hfresh := fresh_halfwayBatch (.file ⟨#[1]⟩)
  have hseparate : Separate (halfway (.file ⟨#[1]⟩)) halfwayBatch :=
    separate_halfwayBatch rfl
  obtain ⟨after, events, result, hcommit, htemporary, hresult⟩ :=
    commitAll_replaces_or_rolls_back (halfway (.file ⟨#[1]⟩)) halfwayBatch hfresh hseparate
  obtain ⟨_, error, hfails, -⟩ := exists_commitAll_halfway (.file ⟨#[1]⟩) rfl
  cases hcommit.symm.trans hfails
  refine ⟨hfresh, hseparate, after, error, hcommit, htemporary _ List.mem_cons_self,
    htemporary _ (List.mem_cons_of_mem _ List.mem_cons_self), ?_, ?_⟩
  · refine (hresult.unchanged rfl _ List.mem_cons_self) ?_
    rintro (⟨content, ⟨⟩⟩ | ⟨kind, ⟨⟩⟩)
  · refine (hresult.unchanged rfl _ (List.mem_cons_of_mem _ List.mem_cons_self)) ?_
    rintro (⟨content, ⟨⟩⟩ | ⟨kind, ⟨⟩⟩)

/-- The commit fails, nothing is logged, and the first target is gone. -/
def LosesFirst (first : FileTree) : Prop :=
  (∀ r ∈ halfwayBatch, Fresh (halfway first) r) ∧ Separate (halfway first) halfwayBatch ∧
    ∃ after error, commitAll (halfway first) (halfwayBatch.map (·.staged)) =
        ⟨after, [], .error error⟩ ∧ (halfway first).get? ["a"] = some first ∧
      after.get? ["a"] = none

theorem commitAll_loses_forgotten : LosesFirst (.device .null) ∧ LosesFirst (.sealed ⟨#[1]⟩) := by
  constructor
  · obtain ⟨after, error, hfails, hgone⟩ := exists_commitAll_halfway (.device .null) rfl
    exact ⟨fresh_halfwayBatch _, separate_halfwayBatch rfl, after, error, hfails,
      rfl, hgone⟩
  · obtain ⟨after, error, hfails, hgone⟩ := exists_commitAll_halfway (.sealed ⟨#[1]⟩) rfl
    exact ⟨fresh_halfwayBatch _, separate_halfwayBatch rfl, after, error, hfails,
      rfl, hgone⟩

end FeatureFlags.Staged
