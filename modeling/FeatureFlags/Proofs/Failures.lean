import FeatureFlags.Generation
import FeatureFlags.Proofs.Batches
import FeatureFlags.Proofs.Directories
import FeatureFlags.Proofs.Pairs

/-!
# Failing runs

What a run that fails leaves of the two files that it was to write. Up to the writing it changes
nothing. From then on it touches the temporary entries, which are no links and no outputs, and at
last the makefile, which it can only give back if that was nothing or a regular file whose bytes can
be read, and written once more (`failed_run_keeps_outputs`).
-/

namespace FeatureFlags

open FileSystem FileTree Staged

namespace Staged

variable {files middle after : FileSystem} {base : Path} {name : String} {place : Location}
  {names : List String}

/-! ## Changes of some names -/

/-- In the directory that `base` leads to, `after` differs from `files` in some names at most. -/
structure Spares (files : FileSystem) (base : Path) (names : List String)
    (after : FileSystem) : Prop where
  keeps : files.Keeps after
  leadsTo : ∀ place, after.LeadsTo base place → files.LeadsTo base place
  entries : ∀ place, files.LeadsTo base place → ∀ name, name ∉ names →
    after.get? (place ++ [name]) = files.get? (place ++ [name])

namespace Spares

theorem refl (files : FileSystem) (base : Path) (names : List String) :
    Spares files base names files :=
  ⟨.refl files, fun _ hleads => hleads, fun _ _ _ _ => rfl⟩

theorem of_leadsTo (hleads : files.LeadsTo base place) (hkeeps : files.Keeps after)
    (hentries : ∀ name, name ∉ names →
      after.get? (place ++ [name]) = files.get? (place ++ [name])) :
    Spares files base names after := by
  refine ⟨hkeeps, ?_, ?_⟩
  · intro found hfound
    rw [hfound.unique (hkeeps.leadsTo hleads)]
    exact hleads
  · intro found hfound
    rw [hfound.unique hleads]
    exact hentries

theorem trans (h : Spares files base names middle) (h' : Spares middle base names after) :
    Spares files base names after := by
  refine ⟨h.keeps.trans h'.keeps, fun place hleads => h.leadsTo place (h'.leadsTo place hleads), ?_⟩
  intro place hleads name hname
  rw [h'.entries place (h.keeps.leadsTo hleads) name hname, h.entries place hleads name hname]

theorem mono {others : List String} (h : Spares files base names after)
    (hsub : names ⊆ others) : Spares files base others after :=
  ⟨h.keeps, h.leadsTo, fun place hleads name hname =>
    h.entries place hleads name fun hmem => hname (hsub hmem)⟩

theorem held?_join (h : Spares files base names after) (hname : PlainName name)
    (hnot : name ∉ names) :
    after.held? (base.join ⟨name⟩) = files.held? (base.join ⟨name⟩) := by
  ext tree : 1
  rw [held?_join_eq_some_iff hname, held?_join_eq_some_iff hname]
  constructor
  · rintro ⟨hlength, place, hleads, htree⟩
    have hleads := h.leadsTo place hleads
    exact ⟨hlength, place, hleads, (h.entries place hleads name hnot).symm.trans htree⟩
  · rintro ⟨hlength, place, hleads, htree⟩
    exact ⟨hlength, place, h.keeps.leadsTo hleads,
      (h.entries place hleads name hnot).trans htree⟩

end Spares

theorem Spares.trim (h : Spares files base names after) : Spares files base.trim names after := by
  obtain ⟨hkeeps, hleads, hentries⟩ := h
  constructor
  · exact hkeeps
  · simpa only [leadsTo_trim_iff] using hleads
  · simpa only [leadsTo_trim_iff] using hentries

/-- The temporary path for `name` does not name a link. -/
def NoTemporaryLink (files : FileSystem) (base : Path) (name : String) : Prop :=
  ∀ target, files.held? (ofName base name).temporary ≠ some (.link target)

theorem noTemporaryLink_of_get? (hname : PlainName name) (hleads : files.LeadsTo base place)
    (h : Unlinked files place name) : NoTemporaryLink files base name := by
  intro target hlink
  obtain ⟨-, found, hfound, hlink⟩ :=
    (held?_join_eq_some_iff (plainName_temporaryName hname)).mp hlink
  rw [(leadsTo_trim_iff.mp hfound).unique hleads] at hlink
  exact h target hlink

theorem NoTemporaryLink.unlinked (h : NoTemporaryLink files base name) (hname : PlainName name)
    (hlength : (ofName base name).temporary.checkLength = .ok ())
    (hleads : files.LeadsTo base place) : Unlinked files place name := by
  intro target hlink
  exact h target ((held?_join_eq_some_iff (plainName_temporaryName hname)).mpr
    ⟨hlength, place, leadsTo_trim_iff.mpr hleads, hlink⟩)

theorem Spares.noTemporaryLink (h : Spares files base names after) (hname : PlainName name)
    (hnot : temporaryName name ∉ names) (hnolink : NoTemporaryLink files base name) :
    NoTemporaryLink after base name := by
  intro target
  have hsame := h.trim.held?_join (plainName_temporaryName hname) hnot
  exact fun hlink => hnolink target (hsame.symm.trans hlink)

theorem Stages.spares {content : ByteArray} (h : Stages files base name content place after)
    (hnolink : Unlinked files place name) : Spares files base [temporaryName name] after := by
  refine .of_leadsTo h.leadsTo h.keeps ?_
  intro other hother
  rw [h.get?_entry hnolink, if_neg (by simpa using hother)]

theorem Stages.noTemporaryLink {content : ByteArray} (hname : PlainName name)
    (h : Stages files base name content place after) (hnolink : Unlinked files place name) :
    NoTemporaryLink after base name := by
  refine noTemporaryLink_of_get? hname (h.keeps.leadsTo h.leadsTo) ?_
  intro target
  rw [h.get?_temporaryName hnolink]
  simp

theorem Moves.spares {content : ByteArray} (h : Moves files base name place (.file content) after)
    (hnowhere : LeadsNowhere (files.get? (place ++ [name]))) :
    Spares files base [name, temporaryName name] after := by
  refine .of_leadsTo h.leadsTo (h.keeps hnowhere) ?_
  intro other hother
  obtain ⟨hname, htemporary⟩ : other ≠ name ∧ other ≠ temporaryName name := by simpa using hother
  rw [h.get?_entry, if_neg hname, if_neg htemporary]

theorem Replaced.of_spares {r : Replacement} (h : Replaced files r)
    (hspares : Spares files base names after) (hleads : files.LeadsTo base r.directory)
    (hspot : r.name ∉ names) (htemporary : temporaryName r.name ∉ names) : Replaced after r := by
  obtain ⟨base', hstaged, hfits, hbase⟩ := h.base
  have hentries := hspares.entries r.directory hleads
  refine ⟨h.name, ⟨base', hstaged, hfits, hspares.keeps.leadsTo hbase⟩, ?_, ?_⟩
  · exact (hentries r.name hspot).trans h.spot
  · exact (hentries _ htemporary).trans h.temporary

/-- Removing a temporary file, if it is no link, touches nothing else. -/
theorem removeIfPossible_spares (hname : PlainName name)
    (hnolink : NoTemporaryLink files base name) :
    Spares files base [temporaryName name]
      (removeIfPossible files (ofName base name).temporary) := by
  unfold removeIfPossible
  split
  · next after hremove =>
      obtain ⟨hlength, -, place, hleads, rfl, tree, htree, hdirectory⟩ :=
        (removeFile_join_eq_ok_iff (plainName_temporaryName hname)).mp hremove
      have hleads := leadsTo_trim_iff.mp hleads
      have hwritable : files.Writable (place ++ [temporaryName name]) := by
        refine ⟨⟨place, _, rfl, hleads.1⟩, ?_⟩
        rw [htree]
        rintro _ ⟨⟩
        cases tree with
        | link target => exact absurd htree (hnolink.unlinked hname hlength hleads target)
        | directory children => cases hdirectory
        | _ => rfl
      refine .of_leadsTo hleads hwritable.keeps_erase ?_
      intro other hother
      rw [get?_erase_entry hleads.1, if_neg (by simpa using hother)]
  · exact .refl files base _

theorem Prepared.noTemporaryLink (h : Prepared files base after) (hname : PlainName name)
    (hnolink : NoTemporaryLink files base name) : NoTemporaryLink after base name := by
  intro target
  have hsame := h.trim.held?_join (plainName_temporaryName hname)
  exact fun hlink => hnolink target (hsame.symm.trans hlink)

/-! ## Failing steps -/

theorem stage_join_eq_error (hname : PlainName name) {content : ByteArray} {error : Error}
    (h : stage files (base.join ⟨name⟩) content = (after, .error error)) :
    ∃ prepared result, prepareDirectory files (base.join ⟨name⟩) = (prepared, result) ∧
      (after = prepared ∨ result = .ok () ∧ ∃ written,
        (written = prepared ∨ ∃ place, Begins prepared base.trim name place written) ∧
        after = removeIfPossible written (ofName base name).temporary) :=
  stage_eq_error (base.fileName?_join hname) (base.parent?_join hname) h

section Stage

variable (hname : PlainName name)
  (hway : (∃ place, files.LeadsTo base place) ∨ ".." ∉ base.steps)
  (hnolink : NoTemporaryLink files base name) {content : ByteArray}
include hname hway hnolink

theorem exists_stages_of_stage {staged : Staged}
    (h : stage files (base.join ⟨name⟩) content = (after, .ok staged)) :
    staged = ofName base name ∧ ∃ prepared place, Prepared files base prepared ∧
      Unlinked prepared place name ∧ Stages prepared base name content place after := by
  obtain ⟨rfl, hlength, prepared, place, hprepare, hstages, -⟩ := stage_join_eq_ok hname h
  have hprepared := prepareDirectory_join_prepared hname hway hprepare
  exact ⟨rfl, prepared, place, hprepared,
    (hprepared.noTemporaryLink hname hnolink).unlinked hname hlength hstages.leadsTo, hstages⟩

theorem exists_spares_of_stage {error : Error}
    (h : stage files (base.join ⟨name⟩) content = (after, .error error)) :
    ∃ prepared, Prepared files base prepared ∧ Spares prepared base [temporaryName name] after := by
  obtain ⟨prepared, result, hprepare, hafter⟩ := stage_join_eq_error hname h
  have hprepared := prepareDirectory_join_prepared hname hway hprepare
  have hnolink := hprepared.noTemporaryLink hname hnolink
  refine ⟨prepared, hprepared, ?_⟩
  rcases hafter with rfl | ⟨-, written, rfl | ⟨place, hlength, -, held, hbegun⟩, rfl⟩
  · exact .refl _ base _
  · exact removeIfPossible_spares hname hnolink
  · have hbegun := stages_trim_iff.mp hbegun
    have hunlinked := hnolink.unlinked hname hlength hbegun.leadsTo
    exact (hbegun.spares hunlinked).trans
      (removeIfPossible_spares hname (hbegun.noTemporaryLink hname hunlinked))

end Stage

theorem commit_eq_error {staged : Staged} {error : Error}
    (h : commit files staged = (after, .error error)) :
    after = discard files staged ∧ ∃ fault, error = .notReplaced staged.target fault := by
  unfold commit at h
  split at h
  · cases h
  · next fault hrename =>
      cases h
      exact ⟨rfl, fault, rfl⟩

theorem leadsNowhere_of_exists_file {found : Option FileTree} {Allowed : ByteArray → Prop}
    (h : ∀ tree, found = some tree → ∃ held, tree = .file held ∧ Allowed held) :
    LeadsNowhere found := by
  intro tree htree
  obtain ⟨held, rfl, -⟩ := h tree htree
  rfl

section Restore

variable {content : ByteArray} {half : FileSystem} {other : String}
  (h : Moves files base name place (.file content) half) (hname : PlainName name)
  (hother : PlainName other) (hfits : Fits base name) (hne : name ≠ other)
  (hfree : name ≠ temporaryName other) (hnolink : NoTemporaryLink half base other)
include h hname hother hfits hne hfree hnolink

/-- A file that was committed can be replaced again, or removed, after another one is discarded. -/
theorem Moves.exists_restore (hhalf : half.LeadsTo base place) {previous : Option ByteArray}
    (hfills : ∀ content, previous = some content → Fills half place name content) :
    ∃ after, restore (discard half (ofName base other)) ⟨base.join ⟨name⟩, previous⟩ =
        (after, .ok ()) ∧
      Spares half base [name, temporaryName name, temporaryName other] after ∧
      after.get? (place ++ [name]) = previous.map .file := by
  have hdropped := removeIfPossible_spares hother hnolink
  let r : Replacement := ⟨ofName base name, content, place, name⟩
  have hreplaced : Replaced half r := Moves.replaced h hname rfl hfits hhalf
  have hreplaced := hreplaced.of_spares hdropped hhalf (by simpa using hfree)
    (by simpa using temporaryName_injective.ne hne)
  obtain ⟨after, hrestore, hchanges, hspot, -⟩ :=
    hreplaced.exists_restore fun content hcontent =>
      (hfills content hcontent).of_keeps hdropped.keeps
  refine ⟨after, hrestore, (hdropped.mono (by simp)).trans
    (.of_leadsTo (hdropped.keeps.leadsTo hhalf) hchanges.keeps ?_), hspot⟩
  intro found hfound
  obtain ⟨hsame, htemporary, -⟩ :
      found ≠ name ∧ found ≠ temporaryName name ∧ found ≠ temporaryName other := by
    simpa using hfound
  apply hchanges.elsewhere
  intro first hfirst
  obtain rfl := List.mem_singleton.mp hfirst
  exact ⟨apart_siblings hsame.symm place, apart_siblings htemporary.symm place⟩

/--
If it was a readable file before, with room for its bytes, or nothing, then that leaves the
directory as it was.
-/
theorem Moves.exists_spares_of_restore
    (hheld : ∀ tree, files.get? (place ++ [name]) = some tree →
      ∃ held, tree = .file held ∧ Fills files place name held) :
    ∃ after, restore (discard half (ofName base other))
        ⟨base.join ⟨name⟩, files.regularContent? (base.join ⟨name⟩)⟩ = (after, .ok ()) ∧
      Spares files base [temporaryName name, temporaryName other] after := by
  have hnowhere := leadsNowhere_of_exists_file hheld
  have hkeeps := h.keeps hnowhere
  have hhalf := hkeeps.leadsTo h.leadsTo
  have hremembered := regularContent?_join hname hfits.path hfits.short h.leadsTo hnowhere
  have hfills : ∀ held, files.regularContent? (base.join ⟨name⟩) = some held →
      Fills half place name held := by
    intro held hbytes
    obtain ⟨tree, htree, hsame⟩ := Option.bind_eq_some_iff.mp (hremembered.symm.trans hbytes)
    obtain ⟨content, rfl, hfills⟩ := hheld tree htree
    cases hsame
    exact hfills.of_keeps hkeeps
  obtain ⟨after, hrestore, hspares, hspot⟩ := h.exists_restore hname hother hfits hne hfree
    hnolink hhalf hfills
  have hspares : Spares files base [name, temporaryName name, temporaryName other] after :=
    ((h.spares hnowhere).mono (by simp)).trans hspares
  refine ⟨after, hrestore, .of_leadsTo h.leadsTo hspares.keeps ?_⟩
  intro found hfound
  by_cases hsame : found = name
  · subst hsame
    refine hspot.trans ?_
    rw [hremembered]
    cases hget : files.get? (place ++ [found]) with
    | none => rfl
    | some tree =>
        obtain ⟨held, rfl, -⟩ := hheld tree hget
        rfl
  · exact hspares.entries place h.leadsTo found (by simpa [hsame] using hfound)

end Restore

theorem restoreAll_singleton (files : FileSystem) (committed : Committed) :
    (restoreAll files [committed]).1 = (restore files committed).1 := by
  unfold restoreAll
  split
  · next hrestore => rw [hrestore]; rfl
  · next hrestore => rw [hrestore]; rfl

theorem commitAll_pair_eq_error {first second : Staged} {events : List Event} {error : Error}
    (h : commitAll files [first, second] = ⟨after, events, .error error⟩) :
    after = discard (discard files first) second ∨
      ∃ half, commit files first = (half, .ok first.target) ∧
        (∃ fault, error = .notReplaced second.target fault) ∧
        (restore (discard half second)
          ⟨first.target, files.regularContent? first.target⟩).1 = after := by
  unfold commitAll at h
  rw [commitAfter] at h
  cases hfirst : commit files first with
  | mk half result =>
      cases result with
      | error error' =>
          left
          obtain ⟨rfl, -⟩ := commit_eq_error hfirst
          simp only [hfirst, restoreAll, discardAll, List.foldl] at h
          cases h
          rfl
      | ok path =>
          right
          obtain rfl : path = first.target := by
            unfold commit at hfirst
            split at hfirst
            · cases hfirst
              rfl
            · cases hfirst
          simp only [hfirst] at h
          rw [commitAfter] at h
          cases hsecond : commit half second with
          | mk last result =>
              cases result with
              | ok path => simp [hsecond, commitAfter] at h
              | error error' =>
                  obtain ⟨rfl, hfault⟩ := commit_eq_error hsecond
                  simp only [hsecond, discardAll, List.foldl] at h
                  cases h
                  exact ⟨half, rfl, hfault, (restoreAll_singleton _ _).symm⟩

/-- Where the second of two files in one directory is a directory, the first is given back. -/
theorem exists_commitAll_pair_of_directory {other : String} {content content' : ByteArray}
    {children : List (String × FileTree)} (hname : PlainName name) (hother : PlainName other)
    (hfits : Fits base name) (hne : name ≠ other) (hfree : name ≠ temporaryName other)
    (hfree' : other ≠ temporaryName name) (hleads : files.LeadsTo base place)
    (hstage : ∃ before after, stage before (base.join ⟨other⟩) content' =
      (after, .ok (ofName base other)))
    (hfile : files.get? (place ++ [temporaryName name]) = some (.file content))
    (hfile' : files.get? (place ++ [temporaryName other]) = some (.file content'))
    (htarget : ∀ children, files.get? (place ++ [name]) ≠ some (.directory children))
    (hblocked : files.get? (place ++ [other]) = some (.directory children))
    (hway : ∀ half, files.Within place half → half.LeadsTo base place)
    (hfills : ∀ content, Fills files place name content) :
    ∃ after fault, commitAll files [ofName base name, ofName base other] =
        ⟨after, [], .error (.notReplaced (base.join ⟨other⟩) fault)⟩ ∧
      after.LeadsTo base place ∧
      ∃ previous : Option ByteArray, after.get? (place ++ [name]) = previous.map .file := by
  obtain ⟨half, hcommit, hmoves⟩ := commit_join hname hfits hleads rfl hfile htarget
  have hhalf := hway half hmoves.within
  let r : Replacement := ⟨ofName base name, content, place, name⟩
  let last : Replacement := ⟨ofName base other, content', place, other⟩
  have hcommitted : commit files r.staged = (half, .ok r.staged.target) := hcommit
  have hreplaced : Replaced half r := Moves.replaced hmoves hname rfl hfits hhalf
  have hfresh : Fresh half last := by
    refine ⟨hstage, base.fileName?_join hother, ?_, .inl ?_⟩
    · exact ⟨_, base.parent?_join hother, leadsTo_trim_iff.mpr hhalf⟩
    · refine (hmoves.get?_entry (temporaryName other)).trans ?_
      rw [if_neg hfree.symm, if_neg (temporaryName_injective.ne hne.symm)]
      exact hfile'
  have hindependent : r.Independent last :=
    ⟨apart_siblings hne place, apart_siblings hfree place, apart_siblings hfree'.symm place,
      apart_siblings (temporaryName_injective.ne hne) place⟩
  have hstill : half.get? last.spot = some (.directory children) := by
    refine (hmoves.get?_entry other).trans ?_
    rw [if_neg hne.symm, if_neg hfree']
    exact hblocked
  obtain ⟨after, fault, hfails, hkeeps, hspot⟩ := exists_commitAll_of_directory hcommitted
    hreplaced hfresh hindependent hstill fun content _ =>
      (fills_congr hmoves.within.shortfall?).mpr (hfills content)
  exact ⟨after, fault, hfails, hkeeps.leadsTo hhalf, _, hspot⟩

/--
The file `name` in the directory of `base` can be given back after it was replaced: a readable file
for whose bytes there is room, or a directory, which is not replaced at all.
-/
def Restorable (files : FileSystem) (base : Path) (name : String) : FileTree → Prop
  | .file content => ∀ place, files.LeadsTo base place → Fills files place name content
  | .directory _ => True
  | _ => False

theorem Restorable.exists_file {tree : FileTree} (h : Restorable files base name tree)
    (hleads : files.LeadsTo base place) (hplain : ∀ children, tree ≠ .directory children) :
    ∃ held, tree = .file held ∧ Fills files place name held := by
  cases tree with
  | file held => exact ⟨held, rfl, h place hleads⟩
  | directory children => exact absurd rfl (hplain children)
  | _ => cases h

theorem Restorable.of_keeps {tree : FileTree} (h : Restorable files base name tree)
    (hkeeps : files.Keeps after) (hleads : files.LeadsTo base place) :
    Restorable after base name tree := by
  cases tree with
  | file content =>
      intro found hfound
      rw [hfound.unique (hkeeps.leadsTo hleads)]
      exact (h place hleads).of_keeps hkeeps
  | directory children => trivial
  | _ => cases h

end Staged

namespace Fragments

variable {files after : FileSystem} {directory : Path} {settings : Settings}
  {fragments : Fragments}

/--
What keeps a write that fails with `error` from changing an output: no temporary file is an output
or a link, the way to the directory is no way up through a directory that is missing, and a
makefile that had been replaced when the header could not be can be given back.
-/
structure Undisturbed (files : FileSystem) (directory : Path) (settings : Settings)
    (error : Error) : Prop where
  makefileName : settings.makefileName ≠ temporaryName settings.headerName
  headerName : settings.headerName ≠ temporaryName settings.makefileName
  makefileLink : NoTemporaryLink files directory settings.makefileName
  headerLink : NoTemporaryLink files directory settings.headerName
  way : files.isDirectory directory = true ∨ ".." ∉ directory.steps
  makefile : ∀ fault, error = .notReplaced (targets directory settings).2 fault →
    ∀ tree, files.held? (targets directory settings).1 = some tree →
      Restorable files directory settings.makefileName tree

/-- Two staged files are committed, and that fails at one of them. -/
theorem commitAll_spares {makefile header : String} {content : ByteArray} {place : Location}
    {events : List Event} {error : Error} (hmakefile : PlainName makefile)
    (hheader : PlainName header) (hne : makefile ≠ header)
    (hfree : makefile ≠ temporaryName header)
    (hleads : files.LeadsTo directory place)
    (hfile : files.get? (place ++ [temporaryName makefile]) = some (.file content))
    (hnolink : NoTemporaryLink files directory header)
    (hheld : ∀ fault, error = .notReplaced (directory.join ⟨header⟩) fault →
      ∀ tree, files.held? (directory.join ⟨makefile⟩) = some tree →
        Restorable files directory makefile tree)
    (h : commitAll files [ofName directory makefile, ofName directory header] =
      ⟨after, events, .error error⟩) :
    Spares files directory [temporaryName makefile, temporaryName header] after := by
  have htemporary := temporaryName_injective.ne hne
  rcases commitAll_pair_eq_error h with rfl | ⟨half, hcommit, ⟨fault, hfault⟩, hrestored⟩
  · have hmakefileLink : NoTemporaryLink files directory makefile := by
      refine noTemporaryLink_of_get? hmakefile hleads ?_
      intro target hlink
      cases hfile.symm.trans hlink
    have hfirst := removeIfPossible_spares hmakefile hmakefileLink
    have hsecond := removeIfPossible_spares hheader
      (hfirst.noTemporaryLink hheader (by simpa using htemporary.symm) hnolink)
    exact (hfirst.mono (by simp)).trans (hsecond.mono (by simp))
  · obtain ⟨-, hfits, place', moved, hmoves⟩ := commit_join_eq_ok hmakefile hcommit
    obtain rfl := hmoves.leadsTo.unique hleads
    cases hmoves.found.symm.trans hfile
    have hdirectory := ne_directory_of_commit_join hmakefile hcommit hleads hfile
    have hfile : ∀ tree, files.get? (place' ++ [makefile]) = some tree →
        ∃ held, tree = .file held ∧ Fills files place' makefile held := by
      intro tree htree
      have hsome := (held?_join_eq_some_iff hmakefile).mpr ⟨hfits.path, place', hleads, htree⟩
      exact (hheld fault hfault tree hsome).exists_file hleads
        fun children hchildren => hdirectory children (hchildren ▸ htree)
    have hheaderLink := (hmoves.spares (leadsNowhere_of_exists_file hfile)).noTemporaryLink hheader
      (by simp [hfree.symm, htemporary.symm]) hnolink
    obtain ⟨last, hrestore, hspares⟩ := hmoves.exists_spares_of_restore hmakefile hheader hfits hne
      hfree hheaderLink hfile
    simp only [ofName] at hrestored hrestore
    rw [hrestore] at hrestored
    cases hrestored
    exact hspares

section Header

variable {prepared middle staged : FileSystem} {makefile header : String}
  {content content' : ByteArray} {place : Location} (hheader : PlainName header)
  (hne : makefile ≠ header)
  (hstages : Stages prepared directory makefile content place middle)
  (hunlinked : Unlinked prepared place makefile)
  (hheaderLink : NoTemporaryLink prepared directory header)
include hheader hne hstages hunlinked hheaderLink

/-- The makefile is staged, and staging the header fails. -/
theorem spares_of_header_stage_error (hmakefile : PlainName makefile) {error : Error}
    (h : stage middle (directory.join ⟨header⟩) content' = (staged, .error error)) :
    Spares prepared directory [temporaryName makefile, temporaryName header]
      (discard staged (ofName directory makefile)) := by
  have htemporary := temporaryName_injective.ne hne
  have hleads := hstages.keeps.leadsTo hstages.leadsTo
  have hmiddle := hstages.spares hunlinked
  obtain ⟨found, hfound, hspares⟩ := exists_spares_of_stage hheader (.inl ⟨place, hleads⟩)
    (hmiddle.noTemporaryLink hheader (by simpa using htemporary.symm) hheaderLink) h
  obtain rfl := hfound.eq_of_leadsTo hleads
  have hmakefileLink := hspares.noTemporaryLink hmakefile (by simpa using htemporary)
    (hstages.noTemporaryLink hmakefile hunlinked)
  have hdiscarded := removeIfPossible_spares hmakefile hmakefileLink
  exact ((hmiddle.mono (by simp)).trans (hspares.mono (by simp))).trans
    (hdiscarded.mono (by simp))

/-- The makefile is staged, and then the header. -/
theorem spares_of_header_stage {stagedHeader : Staged}
    (h : stage middle (directory.join ⟨header⟩) content' = (staged, .ok stagedHeader)) :
    stagedHeader = ofName directory header ∧
      Spares prepared directory [temporaryName makefile, temporaryName header] staged ∧
      staged.LeadsTo directory place ∧
      staged.get? (place ++ [temporaryName makefile]) = some (.file content) ∧
      NoTemporaryLink staged directory header := by
  have htemporary := temporaryName_injective.ne hne
  have hleads := hstages.keeps.leadsTo hstages.leadsTo
  have hmiddle := hstages.spares hunlinked
  obtain ⟨rfl, found, place', hfound, hunlinked', hstages'⟩ :=
    exists_stages_of_stage hheader (.inl ⟨place, hleads⟩)
      (hmiddle.noTemporaryLink hheader (by simpa using htemporary.symm) hheaderLink) h
  obtain rfl := hfound.eq_of_leadsTo hleads
  obtain rfl := hstages'.leadsTo.unique hleads
  have hspares := hstages'.spares hunlinked'
  refine ⟨rfl, (hmiddle.mono (by simp)).trans (hspares.mono (by simp)),
    hstages'.keeps.leadsTo hleads, ?_, hstages'.noTemporaryLink hheader hunlinked'⟩
  rw [hspares.entries place' hleads _ (by simpa using htemporary),
    hstages.get?_temporaryName hunlinked]

end Header

theorem write_eq_error {events : List Event} {error : Error}
    (hvalid : settings.validate = .ok ())
    (hundisturbed : Undisturbed files directory settings error)
    (hwrite : fragments.write files directory settings = ⟨after, events, .error error⟩) :
    ∃ prepared, Prepared files directory prepared ∧
      Spares prepared directory
        [temporaryName settings.makefileName, temporaryName settings.headerName] after := by
  obtain ⟨hmakefile, hheader, hne⟩ := plainNames_of_validate hvalid
  obtain ⟨hfree, hfree', hmakefileLink, hheaderLink, hway, hheld⟩ := hundisturbed
  have hway : (∃ place, files.LeadsTo directory place) ∨ ".." ∉ directory.steps :=
    hway.imp_left fun hdirectory => (isDirectory_iff.mp hdirectory).2
  unfold write at hwrite
  simp only [targets] at hwrite hheld
  split at hwrite
  · next middle error' hstage =>
      cases hwrite
      obtain ⟨prepared, hprepared, hspares⟩ :=
        exists_spares_of_stage hmakefile hway hmakefileLink hstage
      exact ⟨prepared, hprepared, hspares.mono (by simp)⟩
  · next middle stagedMakefile hstage =>
      obtain ⟨rfl, prepared, place, hprepared, hunlinked, hstages⟩ :=
        exists_stages_of_stage hmakefile hway hmakefileLink hstage
      have hheaderLink := hprepared.noTemporaryLink hheader hheaderLink
      refine ⟨prepared, hprepared, ?_⟩
      split at hwrite
      · next failed error' hstage' =>
          cases hwrite
          exact spares_of_header_stage_error hheader hne hstages hunlinked hheaderLink hmakefile
            hstage'
      · next staged stagedHeader hstage' =>
          obtain ⟨rfl, hboth, hleads, hfile, hheaderLink⟩ :=
            spares_of_header_stage hheader hne hstages hunlinked hheaderLink hstage'
          split at hwrite
          · next events' error' hcommit =>
              cases hwrite
              have hmakefileName : settings.makefileName ∉
                  [temporaryName settings.makefileName, temporaryName settings.headerName] := by
                simp [hfree, (temporaryName_ne settings.makefileName).symm]
              refine hboth.trans (commitAll_spares hmakefile hheader hne hfree hleads hfile
                hheaderLink ?_ hcommit)
              intro fault hfault tree htree
              rw [hboth.held?_join hmakefile hmakefileName, hprepared.held?_join hmakefile] at htree
              obtain ⟨-, _, hbefore, -⟩ := (held?_join_eq_some_iff hmakefile).mp htree
              exact (hheld fault hfault tree htree).of_keeps (hprepared.keeps.trans hboth.keeps)
                hbefore
          · cases hwrite

/-- A write that fails leaves both entries as they were. -/
theorem held?_of_write_eq_error {events : List Event} {error : Error}
    (hvalid : settings.validate = .ok ())
    (hundisturbed : Undisturbed files directory settings error)
    (hwrite : fragments.write files directory settings = ⟨after, events, .error error⟩) :
    ∀ path ∈ [(targets directory settings).1, (targets directory settings).2],
      after.held? path = files.held? path := by
  obtain ⟨hmakefile, hheader, -⟩ := plainNames_of_validate hvalid
  obtain ⟨prepared, hprepared, hspares⟩ := write_eq_error hvalid hundisturbed hwrite
  refine List.forall_mem_cons.mpr ⟨?_, List.forall_mem_singleton.mpr ?_⟩
  · refine (hspares.held?_join hmakefile ?_).trans (hprepared.held?_join hmakefile)
    simp [hundisturbed.makefileName, (temporaryName_ne settings.makefileName).symm]
  · refine (hspares.held?_join hheader ?_).trans (hprepared.held?_join hheader)
    simp [hundisturbed.headerName, (temporaryName_ne settings.headerName).symm]

end Fragments

namespace Generation

variable {files : FileSystem} {commandLine : CommandLine}

/-- The settings that name the outputs of a run: those that it loads, or else the defaults. -/
def outputSettings (files : FileSystem) (commandLine : CommandLine) : Settings :=
  match settingsOf files commandLine.settings with
  | .ok settings => settings
  | .error _ => {}

/-- The two files that a run writes. -/
def outputPaths (files : FileSystem) (commandLine : CommandLine) : List Path :=
  let (makefile, header) :=
    Fragments.targets commandLine.outDirectory (outputSettings files commandLine)
  [makefile, header]

/-- The run gets so far that it writes. -/
def Writes (files : FileSystem) (commandLine : CommandLine) : Prop :=
  ∃ inputs fragments, (inputsOf files commandLine).2 = .ok inputs ∧
    Fragments.render inputs.resolution inputs.settings = .ok fragments

theorem validate_of_settingsOf {path : Option Path} {settings : Settings}
    (h : settingsOf files path = .ok settings) : settings.validate = .ok () := by
  cases path with
  | none =>
      cases h
      rfl
  | some path =>
      have hload : Settings.load files path = .ok settings := h
      unfold Settings.load at hload
      split at hload
      · unfold Settings.ofYaml at hload
        split at hload
        · cases hload
        · split at hload
          · next hvalid =>
              cases hload
              exact hvalid
          · cases hload
      · cases hload

theorem settingsOf_of_inputsOf {inputs : Inputs}
    (h : (inputsOf files commandLine).2 = .ok inputs) :
    settingsOf files commandLine.settings = .ok inputs.settings := by
  unfold inputsOf at h
  split at h
  · cases h
  · next settings hsettings =>
      split at h
      · cases h
      · split at h
        · cases h
        · split at h
          · cases h
          · cases h
            exact hsettings

/--
**A run that fails leaves the outputs as they were.** Whatever the error is, each of the two
entries is what it was before: missing, a directory with all that is in it, a file with its bytes,
or a link with its target. Only a run that fails while it writes needs something for that: no
temporary file is an output or a link, and if the header is what cannot be replaced, the makefile
can be given back.
-/
theorem failed_run_keeps_outputs (files : FileSystem) (commandLine : CommandLine) (error : Error)
    (hfails : (run files commandLine).result = .error error)
    (hundisturbed : Writes files commandLine → Fragments.Undisturbed files
      commandLine.outDirectory (outputSettings files commandLine) error) :
    ∀ path ∈ outputPaths files commandLine,
      (run files commandLine).files.held? path = files.held? path := by
  intro path hpath
  unfold run at hfails ⊢
  split at hfails
  · rfl
  · next events inputs hinputs =>
      have hinputs' : (inputsOf files commandLine).2 = .ok inputs := by rw [hinputs]
      have hsettings := settingsOf_of_inputsOf hinputs'
      have houtput : outputSettings files commandLine = inputs.settings := by
        unfold outputSettings
        rw [hsettings]
      cases hrender : Fragments.render inputs.resolution inputs.settings with
      | error error' => simp only [writeFragments, hrender]
      | ok fragments =>
          simp only [writeFragments, hrender] at hfails ⊢
          have hundisturbed := hundisturbed ⟨inputs, fragments, hinputs', hrender⟩
          rw [houtput] at hundisturbed
          unfold outputPaths at hpath
          rw [houtput] at hpath
          cases hwrite : fragments.write files commandLine.outDirectory inputs.settings with
          | mk after events result =>
              rw [hwrite] at hfails
              cases hfails
              exact Fragments.held?_of_write_eq_error (validate_of_settingsOf hsettings)
                hundisturbed hwrite path hpath

/-! ## An empty description -/

/-- A file without a line is in the working directory, which is the root. -/
structure HasEmptyDescription (files : FileSystem) : Prop where
  root : files.HasDirectory []
  here : files.workingDirectory = []
  file : files.get? ["Kconfig"] = some (.file ⟨#[]⟩)

namespace HasEmptyDescription

theorem canonical (h : HasEmptyDescription files) :
    files.canonical ⟨"Kconfig"⟩ = .ok ["Kconfig"] := by
  have hwalk : files.Walks Path.maxLinks [] ["Kconfig"] ⟨["Kconfig"], Path.maxLinks⟩ := by
    apply Walks.down h.root rfl (by decide) h.file (by rintro _ ⟨⟩)
    apply Walks.done
    rw [List.nil_append, h.file]
    rfl
  have hstart : (⟨"Kconfig"⟩ : Path).startFrom files.workingDirectory = [] := h.here
  have hsteps : (⟨"Kconfig"⟩ : Path).stepsThrough = ["Kconfig"] := rfl
  unfold FileSystem.canonical
  rw [hstart, hsteps, hwalk.walk_eq]
  rfl

theorem readText (h : HasEmptyDescription files) : files.readText ⟨"Kconfig"⟩ = .ok "" := by
  have hsteps : (⟨""⟩ : Path).steps = [] := rfl
  have hstart : (⟨""⟩ : Path).startFrom files.workingDirectory = [] := h.here
  have hleads : files.LeadsTo ⟨""⟩ [] := by
    refine ⟨h.root, Path.maxLinks, ?_⟩
    rw [hsteps, hstart]
    exact .done h.root.isSome
  have hjoin : (⟨"Kconfig"⟩ : Path) = (⟨""⟩ : Path).join ⟨"Kconfig"⟩ := rfl
  have hread : files.readBytes ⟨"Kconfig"⟩ = .ok ⟨#[]⟩ := by
    rw [hjoin]
    exact readBytes_join (plainName_of_isFileName rfl) rfl (by decide) hleads h.file
  unfold FileSystem.readText
  rw [hread]
  rfl

theorem exists_inputsOf (h : HasEmptyDescription files) (hconfig : commandLine.config = ⟨"Kconfig"⟩)
    (hsettings : commandLine.settings = none) (hoverrides : commandLine.overrides = none) :
    ∃ events, inputsOf files commandLine = (events, .ok ⟨{}, .empty, ⟨#[]⟩⟩) := by
  have hopen : Description.openFile files [] ⟨"Kconfig"⟩ none = .ok (["Kconfig"], "") := by
    unfold Description.openFile
    rw [h.canonical, h.readText]
    rfl
  obtain ⟨reading, hload, htable⟩ : ∃ reading,
      Description.load files ⟨"Kconfig"⟩ .empty = (reading, .ok ()) ∧ reading.table = .empty := by
    have hnumbered : Description.numbered "" = [] := by cbv
    unfold Description.load
    rw [hopen]
    simp only [hnumbered]
    rw [Description.readLines]
    exact ⟨_, rfl, rfl⟩
  unfold inputsOf tableOf
  rw [hconfig, hsettings, hoverrides]
  simp only [settingsOf, overridesOf, hload, htable]
  exact ⟨_, rfl⟩

end HasEmptyDescription

/-! ## A header that cannot be replaced -/

/-- An empty description, a makefile, and a directory in the place of the header. -/
def blocked (makefile : FileTree) : FileSystem :=
  .ofRoot (.directory [("Kconfig", .file ⟨#[]⟩), ("real.mk", .file ⟨#[79, 76, 68]⟩),
    (".config.mk", makefile), (".config.h", .directory [("keep", .file ⟨#[]⟩)])])

/-- A run of the description in the working directory. -/
def plainRun : CommandLine := ⟨⟨"Kconfig"⟩, none, ⟨"."⟩, none, false, false⟩

theorem hasEmptyDescription_blocked (makefile : FileTree) :
    HasEmptyDescription (blocked makefile) :=
  ⟨⟨_, rfl, rfl⟩, rfl, rfl⟩

theorem leadsTo_blocked (makefile : FileTree) : (blocked makefile).LeadsTo ⟨"."⟩ [] :=
  leadsTo_dot_iff.mpr ⟨⟨_, rfl, rfl⟩, rfl⟩

theorem held?_makefile_iff (hleads : files.LeadsTo ⟨"."⟩ []) {tree : FileTree} :
    files.held? ⟨"./.config.mk"⟩ = some tree ↔ files.get? [".config.mk"] = some tree := by
  have hjoin : (⟨"./.config.mk"⟩ : Path) = (⟨"."⟩ : Path).join ⟨".config.mk"⟩ := rfl
  rw [hjoin, held?_join_eq_some_iff (plainName_of_isFileName rfl)]
  constructor
  · rintro ⟨-, place, hplace, htree⟩
    rwa [hplace.unique hleads] at htree
  · exact fun htree => ⟨rfl, [], hleads, htree⟩

theorem exists_write_blocked (makefile : FileTree) (hfile : makefile.isDirectory = false)
    (fragments : Fragments) :
    ∃ after events fault, fragments.write (blocked makefile) ⟨"."⟩ {} =
        ⟨after, events, .error (.notReplaced ⟨"./.config.h"⟩ fault)⟩ ∧
      ∀ target, after.held? ⟨"./.config.mk"⟩ ≠ some (.link target) := by
  obtain ⟨hmakefile, hheader, hne⟩ :=
    Fragments.plainNames_of_validate (rfl : Settings.validate {} = .ok ())
  have hfits : Fits ⟨"."⟩ (Settings.makefileName {}) := ⟨rfl, rfl, by decide, by decide⟩
  have hfits' : Fits ⟨"."⟩ (Settings.headerName {}) := ⟨rfl, rfl, by decide, by decide⟩
  have hfills : ∀ name content, Fills (blocked makefile) [] name content :=
    fun name content => fills_ofRoot
  obtain ⟨middle, staged, hstage, hstage', hkeeps, hstaged⟩ :=
    Fragments.exists_stage_pair hmakefile hheader hfits hfits' hne (leadsTo_blocked makefile)
      (overwritable_of_eq_none rfl) (overwritable_of_eq_none rfl)
      (hfills _ fragments.makefile.toUTF8) (hfills _ fragments.header.toUTF8)
  have htarget : ∀ children, staged.get? ([] ++ [".config.mk"]) ≠ some (.directory children) := by
    intro children hchildren
    have hsame : staged.get? ([] ++ [".config.mk"]) = some makefile := hstaged ".config.mk"
    cases hsame.symm.trans hchildren
    cases hfile
  -- The way to the working directory needs no entry of it.
  have hway : ∀ half, staged.Within [] half → half.LeadsTo ⟨"."⟩ [] := by
    intro half hwithin
    obtain ⟨hdirectory, hhere⟩ := leadsTo_dot_iff.mp (hkeeps.leadsTo (leadsTo_blocked makefile))
    rw [← hwithin.workingDirectory] at hhere
    exact leadsTo_dot_iff.mpr ⟨hwithin.hasDirectory_iff.mpr hdirectory, hhere⟩
  obtain ⟨after, fault, hcommit, hafter, previous, hspot⟩ :=
    exists_commitAll_pair_of_directory hmakefile hheader hfits hne (by decide) (by decide)
      (hkeeps.leadsTo (leadsTo_blocked makefile)) ⟨_, _, hstage'⟩
      (hstaged (temporaryName ".config.mk")) (hstaged (temporaryName ".config.h")) htarget
      (hstaged ".config.h") hway fun content => (hfills _ content).of_keeps hkeeps
  refine ⟨after, [], fault, ?_, ?_⟩
  · unfold Fragments.write Fragments.targets
    simp only [hstage, hstage', hcommit]
    rfl
  · intro target hheld
    have hlink := hspot.symm.trans ((held?_makefile_iff hafter).mp hheld)
    obtain ⟨_, -, ⟨⟩⟩ := Option.map_eq_some_iff.mp hlink

theorem exists_run_blocked (makefile : FileTree) (hfile : makefile.isDirectory = false) :
    ∃ fault, (run (blocked makefile) plainRun).result =
        .error (.notReplaced ⟨"./.config.h"⟩ fault) ∧
      ∀ target, (run (blocked makefile) plainRun).files.held? ⟨"./.config.mk"⟩ ≠
        some (.link target) := by
  obtain ⟨events, hinputs⟩ : ∃ events, inputsOf (blocked makefile) plainRun =
      (events, .ok ⟨{}, .empty, ⟨#[]⟩⟩) :=
    (hasEmptyDescription_blocked makefile).exists_inputsOf rfl rfl rfl
  obtain ⟨after, events', fault, hwrite, hlink⟩ :=
    exists_write_blocked makefile hfile ⟨Fragments.makefileOf ⟨#[]⟩ {}, Fragments.headerOf ⟨#[]⟩ {}⟩
  have hrender : Fragments.render ⟨#[]⟩ {} =
      .ok ⟨Fragments.makefileOf ⟨#[]⟩ {}, Fragments.headerOf ⟨#[]⟩ {}⟩ := rfl
  have hrun : run (blocked makefile) plainRun =
      ⟨after, events ++ events', "", .error (.notReplaced ⟨"./.config.h"⟩ fault)⟩ := by
    have hdirectory : plainRun.outDirectory = ⟨"."⟩ := rfl
    unfold run
    simp only [hinputs, writeFragments, hrender, hdirectory, hwrite]
    rfl
  rw [hrun]
  exact ⟨fault, rfl, hlink⟩

theorem failed_run_keeps_outputs_blocked :
    ∃ error, (run (blocked (.file ⟨#[79]⟩)) plainRun).result = .error error ∧
      Fragments.Undisturbed (blocked (.file ⟨#[79]⟩)) ⟨"."⟩ {} error ∧
      (run (blocked (.file ⟨#[79]⟩)) plainRun).files.held? ⟨"./.config.mk"⟩ =
        some (.file ⟨#[79]⟩) := by
  have hleads := leadsTo_blocked (.file ⟨#[79]⟩)
  have hheld : (blocked (.file ⟨#[79]⟩)).held? ⟨"./.config.mk"⟩ = some (.file ⟨#[79]⟩) :=
    (held?_makefile_iff hleads).mpr rfl
  obtain ⟨fault, hfails, -⟩ := exists_run_blocked (.file ⟨#[79]⟩) rfl
  have hundisturbed : Fragments.Undisturbed (blocked (.file ⟨#[79]⟩)) ⟨"."⟩ {}
      (.notReplaced ⟨"./.config.h"⟩ fault) := by
    constructor
    · decide
    · decide
    · refine noTemporaryLink_of_get? (plainName_of_isFileName rfl) hleads ?_
      rintro target ⟨⟩
    · refine noTemporaryLink_of_get? (plainName_of_isFileName rfl) hleads ?_
      rintro target ⟨⟩
    · right
      decide
    · intro _ _ tree htree
      cases hheld.symm.trans htree
      exact fun place _ => fills_ofRoot
  have hkept := failed_run_keeps_outputs _ plainRun _ hfails (fun _ => hundisturbed)
  exact ⟨_, hfails, hundisturbed, (hkept _ List.mem_cons_self).trans hheld⟩

/-- A makefile that is a link is not one any more when the header could not be replaced. -/
theorem blocked_loses_link :
    ∃ error, (run (blocked (.link ⟨"real.mk"⟩)) plainRun).result = .error error ∧
      ⟨"./.config.mk"⟩ ∈ outputPaths (blocked (.link ⟨"real.mk"⟩)) plainRun ∧
      (blocked (.link ⟨"real.mk"⟩)).held? ⟨"./.config.mk"⟩ = some (.link ⟨"real.mk"⟩) ∧
      (run (blocked (.link ⟨"real.mk"⟩)) plainRun).files.held? ⟨"./.config.mk"⟩ ≠
        some (.link ⟨"real.mk"⟩) := by
  obtain ⟨fault, hfails, hlost⟩ := exists_run_blocked (.link ⟨"real.mk"⟩) rfl
  exact ⟨_, hfails, List.mem_cons_self,
    (held?_makefile_iff (leadsTo_blocked _)).mpr rfl, hlost _⟩

end Generation

end FeatureFlags
