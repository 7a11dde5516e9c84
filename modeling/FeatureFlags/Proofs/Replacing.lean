import FeatureFlags.Proofs.Entries
import FeatureFlags.Staging

/-!
# Replacing one file

What staging and committing a file in a directory do to the tree, when they work: staging writes
the temporary name beside the file, or the spot that a link of that name leads to, and committing
moves whatever is under the temporary name to the name of the file.
-/

namespace FeatureFlags

open FileSystem

namespace Staged

/-! ## Temporary names -/

/-- The name of the temporary file for a file called `name`. -/
def temporaryName (name : String) : String := "." ++ name ++ ".tmp"

theorem length_temporaryName (name : String) :
    (temporaryName name).length = name.length + 5 := by
  unfold temporaryName
  rw [String.length_append, String.length_append]
  have hdot : ".".length = 1 := rfl
  have htmp : ".tmp".length = 4 := rfl
  omega

theorem temporaryName_ne (name : String) : temporaryName name ≠ name := by
  intro h
  have := congrArg String.length h
  rw [length_temporaryName] at this
  omega

theorem temporaryName_injective : Function.Injective temporaryName := by
  intro name other h
  have := congrArg String.toList h
  simp only [temporaryName, String.toList_append] at this
  exact String.toList_inj.mp (List.append_cancel_left (List.append_cancel_right this))

theorem plainName_temporaryName {name : String} (hname : PlainName name) :
    PlainName (temporaryName name) := by
  have hlength := length_temporaryName name
  rw [← String.length_toList] at hlength
  constructor
  · intro h
    rw [h] at hlength
    simp at hlength
  · intro h
    rw [h] at hlength
    simp at hlength
  · intro h
    rw [h] at hlength
    simp at hlength
  · simpa [temporaryName, String.toList_append] using hname.slash

variable {files after : FileSystem} {base : Path} {name : String} {place : Location}

theorem temporaryOf?_join (hname : PlainName name) :
    temporaryOf? (base.join ⟨name⟩) = some (base.trim.join ⟨temporaryName name⟩) := by
  unfold temporaryOf?
  rw [base.fileName?_join hname, base.parent?_join hname]
  rfl

/-- The staged file in the directory of `base`. -/
def ofName (base : Path) (name : String) : Staged :=
  ⟨base.trim.join ⟨temporaryName name⟩, base.join ⟨name⟩⟩

/-! ## Preparing the directory -/

/-- The directory is prepared for all its files at once. -/
theorem prepareDirectory_join_eq {other : String} (hname : PlainName name)
    (hother : PlainName other) :
    prepareDirectory files (base.join ⟨name⟩) = prepareDirectory files (base.join ⟨other⟩) := by
  unfold prepareDirectory
  rw [base.parent?_join hname, base.parent?_join hother]

theorem prepareDirectory_of_leadsTo (hname : PlainName name)
    (hlength : (ofName base name).temporary.checkLength = .ok ())
    (hleads : files.LeadsTo base place) :
    prepareDirectory files (base.join ⟨name⟩) = (files, .ok ()) := by
  unfold prepareDirectory
  rw [base.parent?_join hname]
  by_cases hempty : base.trim.text = ""
  · simp [hempty]
  · have htrim : base.trim.checkLength = .ok () :=
      base.trim.checkLength_of_join (plainName_temporaryName hname) hempty hlength
    have hexists := pathExists_of_leadsTo htrim (leadsTo_trim_iff.mpr hleads)
    simp [hexists]

/-! ## Staging -/

/-- No link is under the temporary name for `name`. -/
def Unlinked (files : FileSystem) (place : Location) (name : String) : Prop :=
  ∀ target, files.get? (place ++ [temporaryName name]) ≠ some (.link target)

theorem unlinked_of_overwritable
    (h : FileTree.Overwritable (files.get? (place ++ [temporaryName name]))) :
    Unlinked files place name :=
  h.ne_link

theorem unlinked_of_eq_none (h : files.get? (place ++ [temporaryName name]) = none) :
    Unlinked files place name :=
  unlinked_of_overwritable (FileTree.overwritable_of_eq_none h)

/-- Nothing keeps the temporary file for `name` from being filled with `content`. -/
def Fills (files : FileSystem) (place : Location) (name : String) (content : ByteArray) : Prop :=
  files.shortfall? (place ++ [temporaryName name]) content = none

theorem fills_ofRoot {root : FileTree} {content : ByteArray} :
    Fills (.ofRoot root) place name content := rfl

theorem fills_congr (hsame : after.shortfall? = files.shortfall?) {content : ByteArray} :
    Fills after place name content ↔ Fills files place name content := by
  unfold Fills
  rw [hsame]

theorem Fills.of_keeps {content : ByteArray} (h : Fills files place name content)
    (hkeeps : files.Keeps after) : Fills after place name content :=
  (fills_congr hkeeps.shortfall?).mpr h

/--
`after` is `files` with `content` under the temporary name for `name` in the directory `place`,
or, if there is a link of that name, wherever it leads.
-/
structure Stages (files : FileSystem) (base : Path) (name : String) (content : ByteArray)
    (place : Location) (after : FileSystem) : Prop where
  leadsTo : files.LeadsTo base place
  put : ∃ spot, files.Writable spot ∧ after = files.put spot (.file content) ∧
    ((∃ target, files.get? (place ++ [temporaryName name]) = some (.link target)) ∨
      spot = place ++ [temporaryName name])

theorem stages_trim_iff {content : ByteArray} :
    Stages files base.trim name content place after ↔
      Stages files base name content place after :=
  ⟨fun h => ⟨leadsTo_trim_iff.mp h.leadsTo, h.put⟩,
    fun h => ⟨leadsTo_trim_iff.mpr h.leadsTo, h.put⟩⟩

/-- The temporary file for `name` was opened, and no more was done than to fill it in part. -/
structure Begins (files : FileSystem) (parent : Path) (name : String) (place : Location)
    (after : FileSystem) : Prop where
  length : (parent.join ⟨temporaryName name⟩).checkLength = .ok ()
  short : (temporaryName name).utf8ByteSize ≤ Path.maxNameBytes
  stages : ∃ held, Stages files parent name held place after

theorem Begins.leadsTo {parent : Path} (h : Begins files parent name place after) :
    files.LeadsTo parent place := by
  obtain ⟨held, hstages⟩ := h.stages
  exact hstages.leadsTo

theorem stage_eq_ok {target : Path} {content : ByteArray} {staged : Staged}
    (h : stage files target content = (after, .ok staged)) :
    staged.target = target ∧ temporaryOf? target = some staged.temporary ∧
      ∃ prepared, prepareDirectory files target = (prepared, .ok ()) ∧
        prepared.write staged.temporary content = (after, .ok ()) := by
  unfold stage at h
  split at h
  · cases h
  · next prepared hprepared =>
      split at h
      · cases h
      · next temporary htemporary =>
          split at h
          · next hwritten =>
              cases h
              unfold writeTemporary at hwritten
              split at hwritten
              · next hwrite =>
                  cases hwritten
                  exact ⟨rfl, htemporary, prepared, hprepared, hwrite⟩
              · cases hwritten
              · cases hwritten
          · cases h

theorem temporaryOf?_of_parent? {target parent : Path} (hname : target.fileName? = some name)
    (hparent : target.parent? = some parent) :
    temporaryOf? target = some (parent.join ⟨temporaryName name⟩) := by
  unfold temporaryOf?
  rw [hname, hparent]
  rfl

theorem stages_of_writesAt {parent : Path} (hname : PlainName name) {spot : Location}
    (h : files.WritesAt (parent.join ⟨temporaryName name⟩) spot) (held : ByteArray) :
    (parent.join ⟨temporaryName name⟩).checkLength = .ok () ∧
      (temporaryName name).utf8ByteSize ≤ Path.maxNameBytes ∧ ∃ place,
        Stages files parent name held place (files.put spot (.file held)) ∧
        (Unlinked files place name → spot = place ++ [temporaryName name]) := by
  obtain ⟨hlength, hshort, place, hleads, hwritable, hspot⟩ :=
    h.of_join (plainName_temporaryName hname)
  refine ⟨hlength, hshort, place, ⟨hleads, spot, hwritable, rfl, hspot⟩, ?_⟩
  intro hunlinked
  exact hspot.resolve_left fun ⟨target, hlink⟩ => hunlinked target hlink

/-- Staging that fails has at most prepared the directory and begun a file that it then removed. -/
theorem stage_eq_error {target parent : Path} (hname : target.fileName? = some name)
    (hparent : target.parent? = some parent) {content : ByteArray} {error : Error}
    (h : stage files target content = (after, .error error)) :
    ∃ prepared result, prepareDirectory files target = (prepared, result) ∧
      (after = prepared ∨ result = .ok () ∧ ∃ written,
        (written = prepared ∨ ∃ place, Begins prepared parent name place written) ∧
        after = removeIfPossible written (parent.join ⟨temporaryName name⟩)) := by
  unfold stage at h
  rw [temporaryOf?_of_parent? hname hparent] at h
  split at h
  · next prepared error' hprepared =>
      cases h
      exact ⟨_, _, hprepared, .inl rfl⟩
  · next prepared hprepared =>
      refine ⟨prepared, .ok (), hprepared, ?_⟩
      unfold writeTemporary at h
      cases hwrite : prepared.write (parent.join ⟨temporaryName name⟩) content with
      | mk written result =>
          simp only [hwrite] at h
          cases result with
          | ok => cases h
          | error fault =>
              have hwritten : written = prepared ∨
                  ∃ place, Begins prepared parent name place written := by
                refine (write_eq_error hwrite).imp_right ?_
                rintro ⟨spot, held, hspot, rfl⟩
                obtain ⟨hlength, hshort, place, hstages, -⟩ :=
                  stages_of_writesAt (Path.plainName_of_fileName? hname) hspot held
                exact ⟨place, hlength, hshort, held, hstages⟩
              cases fault with
              | notOpened fault =>
                  obtain rfl : written = prepared := eq_of_write_notOpened hwrite
                  cases h
                  exact .inl rfl
              | notFilled fault =>
                  cases h
                  exact .inr ⟨rfl, written, hwritten, rfl⟩

theorem stage_join_eq_ok (hname : PlainName name) {content : ByteArray} {staged : Staged}
    (h : stage files (base.join ⟨name⟩) content = (after, .ok staged)) :
    staged = ofName base name ∧ staged.temporary.checkLength = .ok () ∧
      ∃ prepared place, prepareDirectory files (base.join ⟨name⟩) = (prepared, .ok ()) ∧
        Stages prepared base name content place after ∧
        (Unlinked prepared place name → Fills prepared place name content) := by
  obtain ⟨temporary, target⟩ := staged
  obtain ⟨rfl, htemporary, prepared, hprepared, hwrite⟩ := stage_eq_ok h
  rw [temporaryOf?_join hname] at htemporary
  cases htemporary
  obtain ⟨spot, hspot, hfills, rfl⟩ := write_eq_ok hwrite
  obtain ⟨hlength, -, place, hstages, hunlinked⟩ := stages_of_writesAt hname hspot content
  refine ⟨rfl, hlength, prepared, place, hprepared, stages_trim_iff.mp hstages, ?_⟩
  intro hnolink
  unfold Fills
  rw [← hunlinked hnolink]
  exact hfills

/-- Short enough for the file and for its temporary file. -/
structure Fits (base : Path) (name : String) : Prop where
  path : (base.join ⟨name⟩).checkLength = .ok ()
  temporaryPath : (ofName base name).temporary.checkLength = .ok ()
  short : name.utf8ByteSize ≤ Path.maxNameBytes
  temporaryShort : (temporaryName name).utf8ByteSize ≤ Path.maxNameBytes

theorem stages_put (hleads : files.LeadsTo base place)
    (hfree : FileTree.Overwritable (files.get? (place ++ [temporaryName name])))
    (content : ByteArray) :
    Stages files base name content place
      (files.put (place ++ [temporaryName name]) (.file content)) :=
  ⟨hleads, _, ⟨⟨place, _, rfl, hleads.1⟩, hfree.leadsNowhere⟩, rfl, .inr rfl⟩

section Stage

variable (hname : PlainName name) (hfits : Fits base name) (hleads : files.LeadsTo base place)
  (hfree : FileTree.Overwritable (files.get? (place ++ [temporaryName name])))
include hname hfits hleads hfree

/-- Where nothing but a file is under the temporary name, staging only fails for lack of room. -/
theorem stage_join_eq (content : ByteArray) :
    stage files (base.join ⟨name⟩) content =
      match files.shortfall? (place ++ [temporaryName name]) content with
      | none =>
        (files.put (place ++ [temporaryName name]) (.file content), .ok (ofName base name))
      | some short =>
        (removeIfPossible (files.put (place ++ [temporaryName name]) (.file short.held))
            (ofName base name).temporary,
          .error (.temporaryNotWritten (ofName base name).temporary short.fault)) := by
  have hspot := writesAt_join (plainName_temporaryName hname) hfits.temporaryPath
    hfits.temporaryShort (leadsTo_trim_iff.mpr hleads) hfree
  have hwrite := write_eq_of_writesAt hspot content
  rw [fill_of_overwritable hfree] at hwrite
  unfold stage writeTemporary
  rw [prepareDirectory_of_leadsTo hname hfits.temporaryPath hleads, temporaryOf?_join hname]
  simp only [hwrite]
  cases files.shortfall? (place ++ [temporaryName name]) content <;> rfl

theorem stage_join {content : ByteArray} (hfills : Fills files place name content) :
    ∃ after, stage files (base.join ⟨name⟩) content = (after, .ok (ofName base name)) ∧
      Stages files base name content place after := by
  refine ⟨_, ?_, stages_put hleads hfree content⟩
  rw [stage_join_eq hname hfits hleads hfree]
  simp only [show files.shortfall? (place ++ [temporaryName name]) content = none from hfills]

end Stage

namespace Stages

variable {content : ByteArray}

theorem keeps (h : Stages files base name content place after) : files.Keeps after := by
  obtain ⟨spot, hwritable, rfl, -⟩ := h.put
  exact hwritable.keeps (.file content)

theorem exists_get?_file (h : Stages files base name content place after) {elsewhere : Location}
    {held : ByteArray} (hfile : files.get? elsewhere = some (.file held)) :
    ∃ holds, after.get? elsewhere = some (.file holds) := by
  obtain ⟨spot, hwritable, rfl, -⟩ := h.put
  exact hwritable.exists_get?_put hfile content

variable (hnolink : Unlinked files place name)
include hnolink

theorem eq_put (h : Stages files base name content place after) :
    files.Writable (place ++ [temporaryName name]) ∧
      after = files.put (place ++ [temporaryName name]) (.file content) := by
  obtain ⟨spot, hwritable, rfl, ⟨target, hlink⟩ | rfl⟩ := h.put
  · exact absurd hlink (hnolink target)
  · exact ⟨hwritable, rfl⟩

theorem within (h : Stages files base name content place after) : files.Within place after := by
  rw [(h.eq_put hnolink).2]
  exact within_put files place _ _

theorem get?_entry (h : Stages files base name content place after) (other : String) :
    after.get? (place ++ [other]) =
      if other = temporaryName name then some (.file content)
      else files.get? (place ++ [other]) := by
  rw [(h.eq_put hnolink).2]
  exact get?_put_entry h.leadsTo.1 _ other _

theorem get?_temporaryName (h : Stages files base name content place after) :
    after.get? (place ++ [temporaryName name]) = some (.file content) :=
  (h.get?_entry hnolink _).trans (if_pos rfl)

theorem get?_name (h : Stages files base name content place after) :
    after.get? (place ++ [name]) = files.get? (place ++ [name]) :=
  (h.get?_entry hnolink _).trans (if_neg (temporaryName_ne name).symm)

/-- A temporary file that was put there can be removed again. -/
theorem removeIfPossible_eq (hname : PlainName name)
    (hlength : (base.join ⟨temporaryName name⟩).checkLength = .ok ())
    (hshort : (temporaryName name).utf8ByteSize ≤ Path.maxNameBytes)
    (h : Stages files base name content place after) :
    removeIfPossible after (base.join ⟨temporaryName name⟩) =
      after.erase (place ++ [temporaryName name]) := by
  have hremove := (removeFile_join_eq_ok_iff (plainName_temporaryName hname)).mpr
    ⟨hlength, hshort, place, h.keeps.leadsTo h.leadsTo, rfl, _, h.get?_temporaryName hnolink, rfl⟩
  unfold removeIfPossible
  rw [hremove]

end Stages

/-! ## Committing -/

/-- `after` is `files` with `moved` under `name` and no more under the temporary name. -/
structure Moves (files : FileSystem) (base : Path) (name : String) (place : Location)
    (moved : FileTree) (after : FileSystem) : Prop where
  leadsTo : files.LeadsTo base place
  found : files.get? (place ++ [temporaryName name]) = some moved
  empty : ∀ children, files.get? (place ++ [name]) = some (.directory children) → children = []
  eq_put : after = (files.erase (place ++ [temporaryName name])).put (place ++ [name]) moved

theorem commit_join_eq_ok (hname : PlainName name) {path : Path}
    (h : commit files (ofName base name) = (after, .ok path)) :
    path = base.join ⟨name⟩ ∧ Fits base name ∧
      ∃ place moved, Moves files base name place moved after := by
  unfold commit at h
  split at h
  · next hrename =>
      cases h
      obtain ⟨source, target, moved, hsource, htarget, hshort', hshort, hmoved, hdone⟩ :=
        rename_eq_ok hrename
      obtain ⟨hlength', place, hleads, rfl⟩ :=
        (entry_join_eq_ok_iff (plainName_temporaryName hname)).mp hsource
      obtain ⟨hlength, place', hleads', rfl⟩ := (entry_join_eq_ok_iff hname).mp htarget
      -- Both paths lead to one directory, and the two names there differ.
      cases (leadsTo_trim_iff.mp hleads).unique hleads'
      refine ⟨rfl, ⟨hlength, hlength', hshort, hshort'⟩, place, moved, ?_⟩
      rcases hdone with ⟨hsame, -⟩ | ⟨-, hempty, hafter⟩
      · have := List.append_cancel_left hsame
        exact absurd (List.singleton_inj.mp this) (temporaryName_ne name)
      · exact ⟨hleads', hmoved, hempty, hafter⟩
  · cases h

/-- A file is not committed over a directory. -/
theorem ne_directory_of_commit_join (hname : PlainName name) {path : Path} {content : ByteArray}
    (h : commit files (ofName base name) = (after, .ok path)) (hleads : files.LeadsTo base place)
    (hfile : files.get? (place ++ [temporaryName name]) = some (.file content))
    (children : List (String × FileTree)) :
    files.get? (place ++ [name]) ≠ some (.directory children) := by
  obtain ⟨-, hfits, -⟩ := commit_join_eq_ok hname h
  have hsource := (entry_join_eq_ok_iff (plainName_temporaryName hname)).mpr
    ⟨hfits.temporaryPath, place, leadsTo_trim_iff.mpr hleads, rfl⟩
  unfold commit at h
  split at h
  · next hrename =>
      obtain ⟨target, htarget, -, -, hdirectory⟩ := rename_file_eq_ok hsource hfile hrename
      obtain ⟨-, found, hfound, rfl⟩ := (entry_join_eq_ok_iff hname).mp htarget
      rw [hfound.unique hleads] at hdirectory
      exact hdirectory children
  · cases h

/-- Committing works where no directory is under the temporary name, and none in the way. -/
theorem commit_join (hname : PlainName name) (hfits : Fits base name)
    (hleads : files.LeadsTo base place) {moved : FileTree} (hplain : moved.isDirectory = false)
    (hmoved : files.get? (place ++ [temporaryName name]) = some moved)
    (htarget : ∀ children, files.get? (place ++ [name]) ≠ some (.directory children)) :
    ∃ after, commit files (ofName base name) = (after, .ok (base.join ⟨name⟩)) ∧
      Moves files base name place moved after := by
  have hold := (entry_join_eq_ok_iff (plainName_temporaryName hname)).mpr
    ⟨hfits.temporaryPath, place, leadsTo_trim_iff.mpr hleads, rfl⟩
  have hnew := (entry_join_eq_ok_iff hname).mpr ⟨hfits.path, place, hleads, rfl⟩
  have hrename := rename_eq hold (plainName_temporaryName hname) hfits.temporaryShort hnew hname
    hfits.short (temporaryName_ne name) hplain hmoved htarget
  have hempty : ∀ children,
      files.get? (place ++ [name]) = some (.directory children) → children = [] := by
    intro children hchildren
    exact absurd hchildren (htarget children)
  refine ⟨(files.erase (place ++ [temporaryName name])).put (place ++ [name]) moved, ?_,
    hleads, hmoved, hempty, rfl⟩
  unfold commit
  simp only [ofName] at hrename ⊢
  rw [hrename]

namespace Moves

variable {moved : FileTree}

theorem hasDirectory_erase (h : Moves files base name place moved after) :
    (files.erase (place ++ [temporaryName name])).HasDirectory place :=
  (within_erase files place _).hasDirectory_iff.mpr h.leadsTo.1

theorem within (h : Moves files base name place moved after) : files.Within place after := by
  rw [h.eq_put]
  exact (within_erase files place _).trans (within_put _ place _ _)

theorem get?_entry (h : Moves files base name place moved after) (other : String) :
    after.get? (place ++ [other]) =
      if other = name then some moved
      else if other = temporaryName name then none
      else files.get? (place ++ [other]) := by
  rw [h.eq_put, get?_put_entry h.hasDirectory_erase, get?_erase_entry h.leadsTo.1]

theorem get?_name (h : Moves files base name place moved after) :
    after.get? (place ++ [name]) = some moved :=
  (h.get?_entry name).trans (if_pos rfl)

theorem get?_temporaryName (h : Moves files base name place moved after) :
    after.get? (place ++ [temporaryName name]) = none := by
  rw [h.get?_entry, if_neg (temporaryName_ne name), if_pos rfl]

/-- The temporary file of another name may have been replaced, and then it is a file still. -/
theorem exists_temporary {content content' : ByteArray} {other : String}
    (h : Moves files base name place (.file content) after) (hne : name ≠ other)
    (hfile : files.get? (place ++ [temporaryName other]) = some (.file content')) :
    ∃ held, after.get? (place ++ [temporaryName other]) = some (.file held) := by
  rw [h.get?_entry]
  split
  · exact ⟨content, rfl⟩
  · rw [if_neg (temporaryName_injective.ne hne.symm)]
    exact ⟨content', hfile⟩

/-- A walk needs neither what was moved nor what it replaced, if these are no links. -/
theorem keeps {content : ByteArray} (h : Moves files base name place (.file content) after)
    (htarget : FileTree.LeadsNowhere (files.get? (place ++ [name]))) : files.Keeps after := by
  apply h.within.keeps
  intro other
  rw [h.get?_entry]
  by_cases hother : other = name
  · rw [hother]
    exact .inl htarget
  · rw [if_neg hother]
    by_cases htemporary : other = temporaryName name
    · left
      rw [htemporary, h.found]
      exact FileTree.leadsNowhere_file content
    · rw [if_neg htemporary]
      exact .inr rfl

/-- A walk that works once a file was moved needs neither of the two names. -/
theorem keeps_symm {content : ByteArray} (h : Moves files base name place (.file content) after) :
    after.Keeps files := by
  apply h.within.symm.keeps
  intro other
  rw [h.get?_entry]
  split
  · exact .inl (FileTree.leadsNowhere_file content)
  · split
    · exact .inl FileTree.leadsNowhere_none
    · exact .inr rfl

theorem get?_link (h : Moves files base name place moved after) {target : Path}
    {elsewhere : Location} (hlink : files.get? elsewhere = some (.link target))
    (hne : elsewhere ≠ place ++ [name]) :
    after.get? elsewhere = some (.link target) ∨ after.get? elsewhere = none := by
  rw [h.eq_put]
  exact get?_link_of_move h.leadsTo.1 h.empty hlink hne

end Moves

end Staged

end FeatureFlags
