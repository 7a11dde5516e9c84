import FeatureFlags.Proofs.Failures
import FeatureFlags.Proofs.Headings

/-!
# Bystanders

What writing the pair does to everything else. Whether it works or not, and whatever is undone, it
makes directories and changes four entries of one directory: the two files and their temporary
files. All that was there besides stays (`write_keeps_bystander`), unless a temporary name is that
of a link, which staging writes through.
-/

namespace FeatureFlags

open FileSystem

namespace Staged

variable {files other after : FileSystem} {base : Path} {name : String} {place : Location}
  {names : List String}

/-! ## Confined changes -/

/-- Whatever was in `files`, but for the entries of `place` called `names`, is so in `after`. -/
def Leaves (files : FileSystem) (place : Location) (names : List String)
    (after : FileSystem) : Prop :=
  ∀ elsewhere tree, (∀ name ∈ names, elsewhere ≠ place ++ [name]) →
    files.trunk? elsewhere = some tree → after.trunk? elsewhere = some tree

/-- `after` leaves all but `names` of `place`, and it has no new way for a path to go. -/
structure Confined (files : FileSystem) (place : Location) (names : List String)
    (after : FileSystem) : Prop where
  guides : files.Guides after
  leaves : Leaves files place names after

theorem Leaves.edits {new : Option FileTree} (h : Leaves files place names other)
    (hedits : other.Edits (place ++ [name]) new after) (hname : name ∈ names) :
    Leaves files place names after := by
  intro elsewhere tree helsewhere htree
  rw [hedits.trunk?_eq, if_neg (helsewhere name hname)]
  exact h elsewhere tree helsewhere htree

namespace Confined

theorem refl (files : FileSystem) (place : Location) (names : List String) :
    Confined files place names files :=
  ⟨.refl files, fun _ _ _ htree => htree⟩

theorem makes {paths : List Path} (h : Confined files place names other)
    (hmakes : Makes other paths after) : Confined files place names after :=
  ⟨hmakes.guides h.guides, fun elsewhere tree helsewhere htree =>
    hmakes.kept (h.leaves elsewhere tree helsewhere htree)⟩

section Entry

variable (h : Confined files place names other)
include h

/-- The directory stays where it was found first. -/
theorem place_eq (hheads : files.HeadsTo base place) {found : Location}
    (hleads : other.LeadsTo base found) : found = place :=
  (h.guides.headsTo hleads).unique hheads

theorem put_file (hname : name ∈ names) (hdirectory : other.HasDirectory place)
    (hentry : ¬ other.HasDirectory (place ++ [name])) (content : ByteArray) :
    Confined files place names (other.put (place ++ [name]) (.file content)) := by
  have hnew : (FileTree.file content).children = [] := rfl
  have hedits := edits_put hdirectory hentry hnew
  exact ⟨hedits.guides_file h.guides, h.leaves.edits hedits hname⟩

theorem erase (hname : name ∈ names) (hdirectory : other.HasDirectory place)
    (hentry : ¬ other.HasDirectory (place ++ [name]))
    (hnolink : ∀ target, files.get? (place ++ [name]) ≠ some (.link target)) :
    Confined files place names (other.erase (place ++ [name])) := by
  have hedits := edits_erase hdirectory hentry
  exact ⟨hedits.guides_of_ne_link (by rintro target ⟨⟩) hnolink h.guides,
    h.leaves.edits hedits hname⟩

end Entry

end Confined

theorem not_hasDirectory_of_get? {tree : FileTree} (htree : files.get? place = some tree)
    (hfile : tree.isDirectory = false) : ¬ files.HasDirectory place := by
  rintro ⟨found, hfound, hdirectory⟩
  cases htree.symm.trans hfound
  cases hfile.symm.trans hdirectory

/-! ## Confined steps -/

section Steps

variable (h : Confined files place names other) (hheads : files.HeadsTo base place)
  (hname : PlainName name) (hunlinked : Unlinked files place name)
  (htemporary : temporaryName name ∈ names)
include h hheads hname hunlinked htemporary

theorem removeIfPossible_confined :
    Confined files place names (removeIfPossible other (ofName base name).temporary) := by
  unfold removeIfPossible
  split
  · next hremove =>
      obtain ⟨-, -, found, hfound, rfl, tree, htree, hfile⟩ :=
        (removeFile_join_eq_ok_iff (plainName_temporaryName hname)).mp hremove
      have hfound := leadsTo_trim_iff.mp hfound
      obtain rfl := h.place_eq hheads hfound
      exact h.erase htemporary hfound.1 (not_hasDirectory_of_get? htree hfile) hunlinked
  · exact h

variable {content : ByteArray}

omit hname in
theorem stages_confined {found : Location}
    (hstages : Stages other base name content found after) :
    found = place ∧ Confined files place names after := by
  obtain rfl := h.place_eq hheads hstages.leadsTo
  obtain ⟨hwritable, rfl⟩ := hstages.eq_put (h.guides.ne_link hunlinked)
  refine ⟨rfl, h.put_file htemporary hstages.leadsTo.1 ?_ content⟩
  rintro ⟨tree, htree, hdirectory⟩
  cases (hwritable.leadsNowhere tree htree).symm.trans
    (FileTree.leadsOn_of_isDirectory hdirectory)

theorem stage_confined_of_ok {staged : Staged}
    (hstage : stage other (base.join ⟨name⟩) content = (after, .ok staged)) :
    staged = ofName base name ∧ Confined files place names after ∧
      ∃ prepared, Makes other (base.join ⟨name⟩).above prepared ∧
        Stages prepared base name content place after := by
  obtain ⟨rfl, -, prepared, found, hprepare, hstages, -⟩ := stage_join_eq_ok hname hstage
  have hmakes := prepareDirectory_makes hprepare
  obtain ⟨rfl, hafter⟩ :=
    stages_confined (h.makes hmakes) hheads hunlinked htemporary hstages
  exact ⟨rfl, hafter, prepared, hmakes, hstages⟩

theorem stage_confined_of_error {error : Error}
    (hstage : stage other (base.join ⟨name⟩) content = (after, .error error)) :
    Confined files place names after := by
  obtain ⟨prepared, result, hprepare, hafter⟩ := stage_join_eq_error hname hstage
  have hprepared := h.makes (prepareDirectory_makes hprepare)
  rcases hafter with rfl | ⟨-, written, rfl | ⟨found, -, -, held, hbegun⟩, rfl⟩
  · exact hprepared
  · exact removeIfPossible_confined hprepared hheads hname hunlinked htemporary
  · obtain ⟨-, hbegun⟩ :=
      stages_confined hprepared hheads hunlinked htemporary (stages_trim_iff.mp hbegun)
    exact removeIfPossible_confined hbegun hheads hname hunlinked htemporary

variable (htarget : name ∈ names)
include htarget

theorem commit_confined {result : Except Error Path}
    (hfile : other.get? (place ++ [temporaryName name]) = some (.file content))
    (hcommit : commit other (ofName base name) = (after, result)) :
    Confined files place names after := by
  cases result with
  | error error =>
      obtain ⟨rfl, -⟩ := commit_eq_error hcommit
      exact removeIfPossible_confined h hheads hname hunlinked htemporary
  | ok path =>
      obtain ⟨-, -, found, moved, hmoves⟩ := commit_join_eq_ok hname hcommit
      obtain rfl := h.place_eq hheads hmoves.leadsTo
      obtain rfl : moved = .file content := Option.some.inj (hmoves.found.symm.trans hfile)
      have herased := h.erase htemporary hmoves.leadsTo.1 (not_hasDirectory_of_get? hfile rfl)
        hunlinked
      rw [hmoves.eq_put]
      refine herased.put_file htarget hmoves.hasDirectory_erase ?_ content
      rintro ⟨tree, htree, hdirectory⟩
      rw [get?_erase_entry hmoves.leadsTo.1, if_neg (temporaryName_ne name).symm] at htree
      cases tree with
      | directory children =>
          exact ne_directory_of_commit_join hname hcommit hmoves.leadsTo hfile children htree
      | _ => cases hdirectory

theorem replace_confined {result : Except Error Unit}
    (hreplace : replace other (base.join ⟨name⟩) content = (after, result)) :
    Confined files place names after := by
  unfold replace at hreplace
  split at hreplace
  · next hstage =>
      cases hreplace
      exact stage_confined_of_error h hheads hname hunlinked htemporary hstage
  · next middle staged hstage =>
      obtain ⟨rfl, hmiddle, prepared, hmakes, hstages⟩ :=
        stage_confined_of_ok h hheads hname hunlinked htemporary hstage
      have hprepared := h.makes hmakes
      have hfile := hstages.get?_temporaryName (hprepared.guides.ne_link hunlinked)
      split at hreplace
      · next hcommit =>
          cases hreplace
          exact commit_confined hmiddle hheads hname hunlinked htemporary htarget hfile hcommit
      · next hcommit =>
          cases hreplace
          exact commit_confined hmiddle hheads hname hunlinked htemporary htarget hfile hcommit

/-- Nothing comes after what is removed at last, so that it may have been a link. -/
theorem restore_leaves (previous : Option ByteArray) {result : Except Error Unit}
    (hrestore : restore other ⟨base.join ⟨name⟩, previous⟩ = (after, result)) :
    Leaves files place names after := by
  cases previous with
  | some content =>
      exact (replace_confined h hheads hname hunlinked htemporary htarget hrestore).leaves
  | none =>
      unfold restore at hrestore
      simp only at hrestore
      split at hrestore
      · next hremove =>
          cases hrestore
          obtain ⟨-, -, found, hfound, rfl, tree, htree, hfile⟩ :=
            (removeFile_join_eq_ok_iff hname).mp hremove
          obtain rfl := h.place_eq hheads hfound
          exact h.leaves.edits
            (edits_erase hfound.1 (not_hasDirectory_of_get? htree hfile)) htarget
      · cases hrestore
        exact h.leaves

end Steps

end Staged

namespace Fragments

open Staged

variable {files : FileSystem} {directory : Path} {settings : Settings} {place : Location}

/-- The directory `place` is the one to write to, once it was made. -/
def WritesTo (files : FileSystem) (directory : Path) (settings : Settings)
    (place : Location) : Prop :=
  (prepareDirectory files (targets directory settings).1).1.LeadsTo directory place

/-- `elsewhere` is neither one of the two files that are written nor one of their temporary files. -/
def Bystander (files : FileSystem) (directory : Path) (settings : Settings)
    (elsewhere : Location) : Prop :=
  ∀ place, WritesTo files directory settings place →
    ∀ name ∈ touchedNames settings, elsewhere ≠ place ++ [name]

/-- A directory that is there already is the one to write to. -/
theorem writesTo_iff_of_leadsTo (hmakefile : PlainName settings.makefileName)
    (hlength : (ofName directory settings.makefileName).temporary.checkLength = .ok ())
    (hleads : files.LeadsTo directory place) {found : Location} :
    WritesTo files directory settings found ↔ found = place := by
  unfold WritesTo targets
  rw [prepareDirectory_of_leadsTo hmakefile hlength hleads]
  constructor
  · exact fun hfound => hfound.unique hleads
  · rintro rfl
    exact hleads

theorem WritesTo.headsTo (h : WritesTo files directory settings place) :
    files.HeadsTo directory place :=
  ((prepareDirectory_makes rfl).guides (.refl files)).headsTo h

theorem not_leadsTo_of_not_writesTo (h : ∀ place, ¬ WritesTo files directory settings place)
    {prepared : FileSystem} {result : Except Error Unit}
    (hprepare : prepareDirectory files (targets directory settings).1 = (prepared, result))
    (found : Location) : ¬ prepared.LeadsTo directory found := by
  have hfound := h found
  unfold WritesTo at hfound
  rwa [hprepare] at hfound

/-- Where there is no directory to write to, nothing is written. -/
theorem write_files_of_not_writesTo (hmakefile : PlainName settings.makefileName)
    (fragments : Fragments) (h : ∀ place, ¬ WritesTo files directory settings place) :
    (fragments.write files directory settings).files =
      (prepareDirectory files (targets directory settings).1).1 := by
  unfold write
  simp only
  split
  · next after error hstage =>
      obtain ⟨prepared, result, hprepare, hafter⟩ := stage_join_eq_error hmakefile hstage
      have hnowhere := not_leadsTo_of_not_writesTo h hprepare
      rcases hafter with rfl | ⟨-, written, rfl | ⟨found, hbegun⟩, rfl⟩
      · exact congrArg Prod.fst hprepare.symm
      · refine Eq.trans ?_ (congrArg Prod.fst hprepare.symm)
        unfold removeIfPossible
        split
        · next hremove =>
            obtain ⟨-, -, found, hfound, -⟩ :=
              (removeFile_join_eq_ok_iff (plainName_temporaryName hmakefile)).mp hremove
            exact absurd (leadsTo_trim_iff.mp hfound) (hnowhere found)
        · rfl
      · exact absurd (leadsTo_trim_iff.mp hbegun.leadsTo) (hnowhere found)
  · next middle staged hstage =>
      obtain ⟨-, -, prepared, found, hprepare, hstages, -⟩ := stage_join_eq_ok hmakefile hstage
      exact absurd hstages.leadsTo (not_leadsTo_of_not_writesTo h hprepare found)

section Pair

variable (hheads : files.HeadsTo directory place) (hmakefile : PlainName settings.makefileName)
  (hheader : PlainName settings.headerName) (hne : settings.makefileName ≠ settings.headerName)
  (hunlinked : Unlinked files place settings.makefileName)
  (hunlinked' : Unlinked files place settings.headerName)
include hheads hmakefile hheader hne hunlinked hunlinked'

theorem commitAll_leaves {staged after : FileSystem} {makefile header : ByteArray}
    {events : List Event} {result : Except Error (List Path)}
    (h : Confined files place (touchedNames settings) staged)
    (hfile : staged.get? (place ++ [temporaryName settings.makefileName]) = some (.file makefile))
    (hfile' : staged.get? (place ++ [temporaryName settings.headerName]) = some (.file header))
    (hcommit : commitAll staged [ofName directory settings.makefileName,
      ofName directory settings.headerName] = ⟨after, events, result⟩) :
    Leaves files place (touchedNames settings) after := by
  obtain ⟨hname, hname', htemporary, htemporary'⟩ := mem_touchedNames settings
  cases result with
  | error error =>
      rcases commitAll_pair_eq_error hcommit with rfl | ⟨half, hfirst, -, hrestore⟩
      · have hmiddle := removeIfPossible_confined h hheads hmakefile hunlinked htemporary
        exact (removeIfPossible_confined hmiddle hheads hheader hunlinked' htemporary').leaves
      · have hhalf :=
          commit_confined h hheads hmakefile hunlinked htemporary hname hfile hfirst
        have hdropped := removeIfPossible_confined hhalf hheads hheader hunlinked' htemporary'
        exact restore_leaves hdropped hheads hmakefile hunlinked htemporary hname _
          (Prod.ext hrestore rfl)
  | ok written =>
      obtain ⟨half, path, path', hfirst, hsecond, -⟩ := commitAll_pair_eq_ok hcommit
      have hhalf := commit_confined h hheads hmakefile hunlinked htemporary hname hfile hfirst
      obtain ⟨-, -, found, moved, hmoves⟩ := commit_join_eq_ok hmakefile hfirst
      obtain rfl := h.place_eq hheads hmoves.leadsTo
      obtain rfl : moved = .file makefile := Option.some.inj (hmoves.found.symm.trans hfile)
      obtain ⟨held, hheld⟩ := hmoves.exists_temporary hne hfile'
      exact (commit_confined hhalf hheads hheader hunlinked' htemporary' hname' hheld
        hsecond).leaves

theorem write_leaves (fragments : Fragments) :
    Leaves files place (touchedNames settings)
      (fragments.write files directory settings).files := by
  obtain ⟨-, -, htemporary, htemporary'⟩ := mem_touchedNames settings
  have hstart := Confined.refl files place (touchedNames settings)
  unfold write
  simp only
  split
  · next middle error hstage =>
      exact (stage_confined_of_error hstart hheads hmakefile hunlinked htemporary hstage).leaves
  · next middle stagedMakefile hstage =>
      obtain ⟨rfl, hmiddle, prepared, hmakes, hstages⟩ :=
        stage_confined_of_ok hstart hheads hmakefile hunlinked htemporary hstage
      have hunlinkedNow := (hstart.makes hmakes).guides.ne_link hunlinked
      have hmakefileFile := hstages.get?_temporaryName hunlinkedNow
      split
      · next staged error hstage' =>
          have hstaged :=
            stage_confined_of_error hmiddle hheads hheader hunlinked' htemporary' hstage'
          exact (removeIfPossible_confined hstaged hheads hmakefile hunlinked htemporary).leaves
      · next staged stagedHeader hstage' =>
          obtain ⟨rfl, hstaged, prepared', hmakes', hstages'⟩ :=
            stage_confined_of_ok hmiddle hheads hheader hunlinked' htemporary' hstage'
          have hunlinkedNow' := (hmiddle.makes hmakes').guides.ne_link hunlinked'
          have hfile : staged.get? (place ++ [temporaryName settings.makefileName]) =
              some (.file fragments.makefile.toUTF8) := by
            rw [hstages'.get?_entry hunlinkedNow', if_neg (temporaryName_injective.ne hne),
              ← trunk?_eq_file_iff]
            exact hmakes'.kept (trunk?_eq_file_iff.mpr hmakefileFile)
          have hfile' := hstages'.get?_temporaryName hunlinkedNow'
          split
          · next hcommit =>
              exact commitAll_leaves hheads hmakefile hheader hne hunlinked hunlinked' hstaged
                hfile hfile' hcommit
          · next hcommit =>
              exact commitAll_leaves hheads hmakefile hheader hne hunlinked hunlinked' hstaged
                hfile hfile' hcommit

end Pair

/--
**Writing leaves every bystander alone.** Whether a write works or fails, all that was there
before, and is neither one of the two files nor one of their temporary files, is there afterwards:
a file with its bytes, a link with its target, a directory. For that no temporary name may be the
name of a link.
-/
theorem write_keeps_bystander (files : FileSystem) (directory : Path) (settings : Settings)
    (fragments : Fragments) (hvalid : settings.validate = .ok ())
    (hunlinked : ∀ place, WritesTo files directory settings place →
      Unlinked files place settings.makefileName ∧ Unlinked files place settings.headerName)
    (elsewhere : Location) (hbystander : Bystander files directory settings elsewhere)
    (tree : FileTree) (htree : files.trunk? elsewhere = some tree) :
    (fragments.write files directory settings).files.trunk? elsewhere = some tree := by
  obtain ⟨hmakefile, hheader, hne⟩ := plainNames_of_validate hvalid
  by_cases hto : ∃ place, WritesTo files directory settings place
  · obtain ⟨place, hto⟩ := hto
    obtain ⟨hnolink, hnolink'⟩ := hunlinked place hto
    exact write_leaves hto.headsTo hmakefile hheader hne hnolink hnolink' fragments elsewhere tree
      (hbystander place hto) htree
  · rw [write_files_of_not_writesTo hmakefile fragments (not_exists.mp hto)]
    exact (prepareDirectory_makes rfl).kept htree

/-! ## One directory to write to -/

theorem leadsTo_out (hdirectory : files.HasDirectory []) (hout : files.HasDirectory ["out"])
    (hhere : files.workingDirectory = []) : files.LeadsTo ⟨"out"⟩ ["out"] := by
  have hsteps : (⟨"out"⟩ : Path).steps = ["out"] := by decide
  have hstart : (⟨"out"⟩ : Path).startFrom files.workingDirectory = [] := hhere
  have hend : files.Walks Path.maxLinks ["out"] [] ⟨["out"], Path.maxLinks⟩ := .done hout.isSome
  refine ⟨hout, Path.maxLinks, ?_⟩
  rw [hsteps, hstart]
  obtain ⟨tree, htree, htreedir⟩ := hout
  refine .down hdirectory (by decide) (by decide) htree ?_ hend
  rintro target rfl
  cases htreedir

theorem fits_out {name : String} (hname : name ∈ [".config.mk", ".config.h"]) :
    Fits ⟨"out"⟩ name := by
  rcases List.mem_pair.mp hname with rfl | rfl
  · exact ⟨rfl, rfl, by decide, by decide⟩
  · exact ⟨rfl, rfl, by decide, by decide⟩

theorem writesTo_out_iff (hleads : files.LeadsTo ⟨"out"⟩ ["out"]) :
    WritesTo files ⟨"out"⟩ {} place ↔ place = ["out"] := by
  have hmakefile : PlainName (Settings.makefileName {}) := plainName_of_isFileName rfl
  have hfits : Fits ⟨"out"⟩ (Settings.makefileName {}) := fits_out List.mem_cons_self
  exact writesTo_iff_of_leadsTo hmakefile hfits.temporaryPath hleads

/-- A directory to write to, in which there is a file already. -/
def notesInside : FileSystem :=
  .ofRoot (.directory [("out", .directory [("notes", .file ⟨#[79]⟩)])])

theorem write_keeps_bystander_notes :
    Settings.validate {} = .ok () ∧
      (∀ place, WritesTo notesInside ⟨"out"⟩ {} place →
        Unlinked notesInside place ".config.mk" ∧ Unlinked notesInside place ".config.h") ∧
      Bystander notesInside ⟨"out"⟩ {} ["out", "notes"] ∧
      ((⟨"mk", "h"⟩ : Fragments).write notesInside ⟨"out"⟩ {}).files.trunk? ["out", "notes"] =
        some (.file ⟨#[79]⟩) := by
  have hleads : notesInside.LeadsTo ⟨"out"⟩ ["out"] :=
    leadsTo_out ⟨_, rfl, rfl⟩ ⟨_, rfl, rfl⟩ rfl
  have hvalid : Settings.validate {} = .ok () := rfl
  have hunlinked : ∀ place, WritesTo notesInside ⟨"out"⟩ {} place →
      Unlinked notesInside place ".config.mk" ∧ Unlinked notesInside place ".config.h" := by
    intro place hplace
    obtain rfl := (writesTo_out_iff hleads).mp hplace
    constructor
    · rintro target ⟨⟩
    · rintro target ⟨⟩
  have hbystander : Bystander notesInside ⟨"out"⟩ {} ["out", "notes"] := by
    intro place hplace
    obtain rfl := (writesTo_out_iff hleads).mp hplace
    decide
  exact ⟨hvalid, hunlinked, hbystander,
    write_keeps_bystander _ _ _ _ hvalid hunlinked _ hbystander _ rfl⟩

/-- The temporary makefile is there already, as a link to a file outside. -/
def notesLinked : FileSystem :=
  .ofRoot (.directory [("out", .directory [("..config.mk.tmp", .link ⟨"../notes"⟩)]),
    ("notes", .file ⟨#[79]⟩)])

theorem write_notesLinked (content : ByteArray) :
    notesLinked.write (ofName ⟨"out"⟩ ".config.mk").temporary content =
      (notesLinked.put ["notes"] (.file content), .ok ()) := by
  have hlength : (ofName ⟨"out"⟩ ".config.mk").temporary.checkLength = .ok () := rfl
  have hsteps : (ofName ⟨"out"⟩ ".config.mk").temporary.steps = ["out", "..config.mk.tmp"] := by
    decide
  have hlink : notesLinked.openEntry Path.maxLinks [] ["out", "..config.mk.tmp"] false =
      .ok (.link ["out"] ⟨"../notes"⟩ 40) := by cbv
  have htarget : notesLinked.openEntry 39 ["out"] (⟨"../notes"⟩ : Path).steps false =
      .ok (.place ["notes"]) := by cbv
  have hplace : notesLinked.writePlace Path.maxLinks [] ["out", "..config.mk.tmp"] false =
      .ok ["notes"] :=
    (writePlace_of_link hlink).trans (writePlace_of_openEntry htarget)
  have hstart : (ofName ⟨"out"⟩ ".config.mk").temporary.startFrom
      notesLinked.workingDirectory = [] := rfl
  have hslash : (ofName ⟨"out"⟩ ".config.mk").temporary.endsInSlash = false := by decide
  unfold FileSystem.write
  rw [hlength, hsteps, hstart, hslash]
  simp only [hplace, bind, Except.bind]
  rfl

/-- What is changed in the directory does not move it. -/
theorem leadsTo_out_of_within {after : FileSystem} (hdirectory : files.HasDirectory [])
    (hout : files.HasDirectory ["out"]) (hhere : files.workingDirectory = [])
    (hwithin : files.Within ["out"] after) : after.LeadsTo ⟨"out"⟩ ["out"] := by
  refine leadsTo_out ?_ (hwithin.hasDirectory_iff.mpr hout)
    (hwithin.workingDirectory.trans hhere)
  rw [hasDirectory_iff, hwithin.outside (by simp)]
  exact hasDirectory_iff.mp hdirectory

theorem stage_notesLinked (content : ByteArray) :
    stage notesLinked ((⟨"out"⟩ : Path).join ⟨".config.mk"⟩) content =
      (notesLinked.put ["notes"] (.file content), .ok (ofName ⟨"out"⟩ ".config.mk")) := by
  have hname : PlainName ".config.mk" := plainName_of_isFileName rfl
  have hleads : notesLinked.LeadsTo ⟨"out"⟩ ["out"] :=
    leadsTo_out ⟨_, rfl, rfl⟩ ⟨_, rfl, rfl⟩ rfl
  have hwrite : notesLinked.write ((⟨"out"⟩ : Path).trim.join ⟨temporaryName ".config.mk"⟩)
      content = (notesLinked.put ["notes"] (.file content), .ok ()) := write_notesLinked content
  unfold stage writeTemporary
  rw [prepareDirectory_of_leadsTo hname (fits_out List.mem_cons_self).temporaryPath hleads,
    temporaryOf?_join hname]
  simp only [hwrite]
  rfl

theorem exists_write_notesLinked :
    ∃ after events, (⟨"mk", "h"⟩ : Fragments).write notesLinked ⟨"out"⟩ {} =
        ⟨after, events, .ok [⟨"out/.config.mk"⟩, ⟨"out/.config.h"⟩]⟩ ∧
      after.trunk? ["notes"] = some (.file "mk".toUTF8) := by
  have hname : PlainName ".config.mk" := plainName_of_isFileName rfl
  have hname' : PlainName ".config.h" := plainName_of_isFileName rfl
  have hfits := fits_out (List.mem_cons_self (a := ".config.mk") (l := [".config.h"]))
  have hfits' : Fits ⟨"out"⟩ ".config.h" := fits_out (by simp)
  have hroot : (notesLinked.put ["notes"] (.file "mk".toUTF8)).HasDirectory [] := ⟨_, rfl, rfl⟩
  have hout : (notesLinked.put ["notes"] (.file "mk".toUTF8)).HasDirectory ["out"] :=
    ⟨_, rfl, rfl⟩
  have hfills : Fills (notesLinked.put ["notes"] (.file "mk".toUTF8)) ["out"] ".config.h"
    "h".toUTF8 := fills_ofRoot
  obtain ⟨staged, hstage, hstages⟩ := stage_join hname' hfits' (leadsTo_out hroot hout rfl)
    (FileTree.overwritable_of_eq_none rfl) hfills
  have hunlinked : Unlinked (notesLinked.put ["notes"] (.file "mk".toUTF8)) ["out"] ".config.h" :=
    unlinked_of_eq_none rfl
  have hstaged := hstages.get?_entry hunlinked
  have hwithin := hstages.within hunlinked
  have hlink : staged.get? (["out"] ++ [temporaryName ".config.mk"]) =
      some (.link ⟨"../notes"⟩) := by
    rw [hstaged, if_neg (by decide)]
    rfl
  obtain ⟨half, hcommit, hmoves⟩ := commit_join hname hfits
    (leadsTo_out_of_within hroot hout rfl hwithin) rfl hlink (by rw [hstaged]; rintro _ ⟨⟩)
  have hhalf := hmoves.get?_entry
  have hwithin := hwithin.trans hmoves.within
  have hfile : half.get? (["out"] ++ [temporaryName ".config.h"]) =
      some (.file "h".toUTF8) := by
    rw [hhalf, if_neg (by decide), if_neg (by decide), hstaged, if_pos rfl]
  have htarget : ∀ children, half.get? (["out"] ++ [".config.h"]) ≠ some (.directory children) := by
    rw [hhalf, if_neg (by decide), if_neg (by decide), hstaged, if_neg (by decide)]
    rintro _ ⟨⟩
  obtain ⟨after, hcommit', hmoves'⟩ := commit_join hname' hfits'
    (leadsTo_out_of_within hroot hout rfl hwithin) rfl hfile htarget
  have hwithin := hwithin.trans hmoves'.within
  refine ⟨after, [.wrote ⟨"out/.config.mk"⟩ 2, .wrote ⟨"out/.config.h"⟩ 1], ?_, ?_⟩
  · have hboth := commitAll_pair hcommit hcommit'
    unfold write targets
    simp only [stage_notesLinked, hstage, hboth]
    rfl
  · rw [hwithin.outside (by simp)]
    rfl

/-- The file that the temporary makefile is a link to gets the text, and the write works. -/
theorem write_changes_linked_notes :
    Settings.validate {} = .ok () ∧ Bystander notesLinked ⟨"out"⟩ {} ["notes"] ∧
      notesLinked.trunk? ["notes"] = some (.file ⟨#[79]⟩) ∧
      (∃ after events, (⟨"mk", "h"⟩ : Fragments).write notesLinked ⟨"out"⟩ {} =
        ⟨after, events, .ok [⟨"out/.config.mk"⟩, ⟨"out/.config.h"⟩]⟩) ∧
      ((⟨"mk", "h"⟩ : Fragments).write notesLinked ⟨"out"⟩ {}).files.trunk? ["notes"] ≠
        some (.file ⟨#[79]⟩) := by
  have hleads : notesLinked.LeadsTo ⟨"out"⟩ ["out"] :=
    leadsTo_out ⟨_, rfl, rfl⟩ ⟨_, rfl, rfl⟩ rfl
  have hbystander : Bystander notesLinked ⟨"out"⟩ {} ["notes"] := by
    intro place hplace
    obtain rfl := (writesTo_out_iff hleads).mp hplace
    decide
  obtain ⟨after, events, hwrite, hnotes⟩ := exists_write_notesLinked
  refine ⟨rfl, hbystander, rfl, ⟨after, events, hwrite⟩, ?_⟩
  rw [hwrite, hnotes]
  intro hsame
  have hbytes : "mk".toUTF8 = ⟨#[79]⟩ := FileTree.file.inj (Option.some.inj hsame)
  exact absurd (congrArg ByteArray.size hbytes) (by decide)

end Fragments

end FeatureFlags
