import Mathlib
import FeatureFlags.Fragments
import FeatureFlags.Proofs.Replacing

/-!
# Writing the pair

Both files are staged before either is committed, and a commit moves whatever is under the
temporary name at that time. So the pair is in place afterwards exactly if the makefile is not
called like the temporary file of the header, neither temporary name was that of a link, and the
way to the directory does not go through a file that is replaced (`write_placed_iff`).
-/

namespace FeatureFlags.Fragments

open FileSystem Staged

/-- Each of the two paths gives its own text back. -/
def Reads (fragments : Fragments) (directory : Path) (settings : Settings)
    (files : FileSystem) : Prop :=
  files.readBytes (targets directory settings).1 = .ok fragments.makefile.toUTF8 ∧
    files.readBytes (targets directory settings).2 = .ok fragments.header.toUTF8

/-- Both files hold their text, are read by their paths, and nothing else in the directory is new:
what was there is there, but for the temporary files. -/
structure Placed (fragments : Fragments) (directory : Path) (settings : Settings)
    (place : Location) (before after : FileSystem) : Prop where
  makefile : after.get? (place ++ [settings.makefileName]) =
    some (.file fragments.makefile.toUTF8)
  header : after.get? (place ++ [settings.headerName]) = some (.file fragments.header.toUTF8)
  reads : fragments.Reads directory settings after
  others : ∀ name, name ≠ settings.makefileName → name ≠ settings.headerName →
    after.get? (place ++ [name]) =
      if name = temporaryName settings.makefileName ∨ name = temporaryName settings.headerName
      then none else before.get? (place ++ [name])

/-- The four names that a write may change in its directory. -/
def touchedNames (settings : Settings) : List String :=
  [settings.makefileName, settings.headerName, temporaryName settings.makefileName,
    temporaryName settings.headerName]

theorem mem_touchedNames (settings : Settings) :
    settings.makefileName ∈ touchedNames settings ∧
      settings.headerName ∈ touchedNames settings ∧
      temporaryName settings.makefileName ∈ touchedNames settings ∧
      temporaryName settings.headerName ∈ touchedNames settings := by
  simp [touchedNames]

theorem plainNames_of_validate {settings : Settings} (h : settings.validate = .ok ()) :
    PlainName settings.makefileName ∧ PlainName settings.headerName ∧
      settings.makefileName ≠ settings.headerName := by
  unfold Settings.validate at h
  split at h
  · cases h
  · split at h
    · cases h
    · split at h
      · cases h
      · next hmakefile =>
          split at h
          · cases h
          · next hheader =>
              split at h
              · cases h
              · next hne =>
                  exact ⟨plainName_of_isFileName (by simpa using hmakefile),
                    plainName_of_isFileName (by simpa using hheader), hne⟩

variable {files after : FileSystem} {directory : Path} {settings : Settings}
  {fragments : Fragments}

theorem commitAll_pair_eq_ok {first second : Staged} {events : List Event} {written : List Path}
    (h : commitAll files [first, second] = ⟨after, events, .ok written⟩) :
    ∃ half path path', commit files first = (half, .ok path) ∧
      commit half second = (after, .ok path') ∧ written = [path, path'] := by
  unfold commitAll at h
  rw [commitAfter] at h
  split at h
  · next half path hfirst =>
      rw [commitAfter] at h
      split at h
      · next last path' hsecond =>
          cases h
          exact ⟨half, path, path', hfirst, hsecond, rfl⟩
      · cases h
  · cases h

theorem commitAll_pair {first second : Staged} {half : FileSystem} {path path' : Path}
    (hfirst : commit files first = (half, .ok path))
    (hsecond : commit half second = (after, .ok path')) :
    commitAll files [first, second] = ⟨after, [], .ok [path, path']⟩ := by
  unfold commitAll
  simp only [commitAfter, hfirst, hsecond]
  rfl

/-- The four changes of a write that works, each of the files that the one before it left. -/
structure Course (directory : Path) (settings : Settings) (fragments : Fragments)
    (prepared middle staged half after : FileSystem) (place last : Location)
    (movedMakefile movedHeader : FileTree) : Prop where
  names_ne : settings.makefileName ≠ settings.headerName
  stageMakefile : Stages prepared directory settings.makefileName fragments.makefile.toUTF8 place
    middle
  fillsMakefile : Unlinked prepared place settings.makefileName →
    Fills prepared place settings.makefileName fragments.makefile.toUTF8
  stageHeader : Stages middle directory settings.headerName fragments.header.toUTF8 place staged
  fillsHeader : Unlinked middle place settings.headerName →
    Fills middle place settings.headerName fragments.header.toUTF8
  commitMakefile : Moves staged directory settings.makefileName place movedMakefile half
  commitHeader : Moves half directory settings.headerName last movedHeader after

theorem write_eq_ok {events : List Event} {written : List Path}
    (hvalid : settings.validate = .ok ())
    (hwrite : fragments.write files directory settings = ⟨after, events, .ok written⟩) :
    written = [(targets directory settings).1, (targets directory settings).2] ∧
      Fits directory settings.makefileName ∧ Fits directory settings.headerName ∧
      ∃ prepared middle staged half place last movedMakefile movedHeader,
        prepareDirectory files (targets directory settings).1 = (prepared, .ok ()) ∧
        Course directory settings fragments prepared middle staged half after place last
          movedMakefile movedHeader := by
  obtain ⟨hmakefile, hheader, hne⟩ := plainNames_of_validate hvalid
  unfold write at hwrite
  simp only [targets] at hwrite ⊢
  split at hwrite
  · cases hwrite
  · next middle stagedMakefile hstageMakefile =>
      obtain ⟨rfl, hlength, prepared, place, hprepared, hstages, hfills⟩ :=
        stage_join_eq_ok hmakefile hstageMakefile
      split at hwrite
      · cases hwrite
      · next staged stagedHeader hstageHeader =>
          obtain ⟨rfl, -, prepared', place', hprepared', hstages', hfills'⟩ :=
            stage_join_eq_ok hheader hstageHeader
          -- The directory is there when the header is staged: nothing is made a second time.
          have hmiddle := hstages.keeps.leadsTo hstages.leadsTo
          rw [prepareDirectory_join_eq hheader hmakefile,
            prepareDirectory_of_leadsTo hmakefile hlength hmiddle] at hprepared'
          cases hprepared'
          cases hstages'.leadsTo.unique hmiddle
          split at hwrite
          · cases hwrite
          · next committed hcommit =>
              cases hwrite
              obtain ⟨half, path, path', hfirst, hsecond, rfl⟩ := commitAll_pair_eq_ok hcommit
              obtain ⟨rfl, hfits, place₁, movedMakefile, hmoves₁⟩ :=
                commit_join_eq_ok hmakefile hfirst
              obtain ⟨rfl, hfits', last, movedHeader, hmoves₂⟩ :=
                commit_join_eq_ok hheader hsecond
              cases hmoves₁.leadsTo.unique (hstages'.keeps.leadsTo hmiddle)
              exact ⟨rfl, hfits, hfits', prepared, middle, staged, half, place, last, movedMakefile,
                movedHeader, hprepared,
                ⟨hne, hstages, hfills, hstages', hfills', hmoves₁, hmoves₂⟩⟩

section Working

variable {place : Location} (hmakefile : PlainName settings.makefileName)
  (hheader : PlainName settings.headerName) (hfits : Fits directory settings.makefileName)
  (hfits' : Fits directory settings.headerName)
  (hne : settings.makefileName ≠ settings.headerName)
include hmakefile hheader hfits hfits' hne

/-- Both files are staged where the temporary names are those of files at most, with room for all. -/
theorem exists_stage_pair (hleads : files.LeadsTo directory place)
    (hfree : FileTree.Overwritable (files.get? (place ++ [temporaryName settings.makefileName])))
    (hfree' : FileTree.Overwritable (files.get? (place ++ [temporaryName settings.headerName])))
    {makefile header : ByteArray} (hfills : Fills files place settings.makefileName makefile)
    (hfills' : Fills files place settings.headerName header) :
    ∃ middle staged,
      stage files (directory.join ⟨settings.makefileName⟩) makefile =
        (middle, .ok (ofName directory settings.makefileName)) ∧
      stage middle (directory.join ⟨settings.headerName⟩) header =
        (staged, .ok (ofName directory settings.headerName)) ∧
      files.Keeps staged ∧
      ∀ name, staged.get? (place ++ [name]) =
        if name = temporaryName settings.headerName then some (.file header)
        else if name = temporaryName settings.makefileName then some (.file makefile)
        else files.get? (place ++ [name]) := by
  obtain ⟨middle, hstage, hstages⟩ := stage_join hmakefile hfits hleads hfree hfills
  have hmiddle := hstages.get?_entry (unlinked_of_overwritable hfree)
  have hleads' := hstages.keeps.leadsTo hleads
  have hfreeStill :
      FileTree.Overwritable (middle.get? (place ++ [temporaryName settings.headerName])) := by
    rw [hmiddle, if_neg (temporaryName_injective.ne hne.symm)]
    exact hfree'
  obtain ⟨staged, hstage', hstages'⟩ :=
    stage_join hheader hfits' hleads' hfreeStill (hfills'.of_keeps hstages.keeps)
  refine ⟨middle, staged, hstage, hstage', hstages.keeps.trans hstages'.keeps, ?_⟩
  intro name
  rw [hstages'.get?_entry (unlinked_of_overwritable hfreeStill), hmiddle]

/-- Both staged files are committed where no directory is in the way of one. -/
theorem exists_commit_pair {content content' : ByteArray} (hleads : files.LeadsTo directory place)
    (hfile : files.get? (place ++ [temporaryName settings.makefileName]) = some (.file content))
    (hfile' : files.get? (place ++ [temporaryName settings.headerName]) = some (.file content'))
    (hnowhere : FileTree.LeadsNowhere (files.get? (place ++ [settings.makefileName])))
    (hplain : ∀ children, files.get? (place ++ [settings.headerName]) ≠ some (.directory children)) :
    ∃ after, commitAll files [ofName directory settings.makefileName,
        ofName directory settings.headerName] =
      ⟨after, [], .ok [directory.join ⟨settings.makefileName⟩,
        directory.join ⟨settings.headerName⟩]⟩ := by
  have htarget : ∀ children,
      files.get? (place ++ [settings.makefileName]) ≠ some (.directory children) := by
    intro children hchildren
    cases hnowhere _ hchildren
  obtain ⟨half, hcommit, hmoves⟩ := commit_join hmakefile hfits hleads rfl hfile htarget
  have hhalf := hmoves.get?_entry
  obtain ⟨held, hheld⟩ := hmoves.exists_temporary hne hfile'
  have htarget' : ∀ children,
      half.get? (place ++ [settings.headerName]) ≠ some (.directory children) := by
    intro children hchildren
    rw [hhalf, if_neg hne.symm] at hchildren
    split at hchildren
    · cases hchildren
    · exact hplain children hchildren
  obtain ⟨after, hcommit', -⟩ :=
    commit_join hheader hfits' ((hmoves.keeps hnowhere).leadsTo hleads) rfl hheld htarget'
  exact ⟨after, commitAll_pair hcommit hcommit'⟩

end Working

/--
A write works where the makefile and the temporary files are files at most, the header is no
directory, and there is room for both texts.
-/
theorem exists_write_eq {place : Location} (hvalid : settings.validate = .ok ())
    (hfits : Fits directory settings.makefileName) (hfits' : Fits directory settings.headerName)
    (hleads : files.LeadsTo directory place)
    (hfree : ∀ name ∈ [settings.makefileName, temporaryName settings.makefileName,
      temporaryName settings.headerName],
      FileTree.Overwritable (files.get? (place ++ [name])))
    (hplain : ∀ children, files.get? (place ++ [settings.headerName]) ≠ some (.directory children))
    (hfills : Fills files place settings.makefileName fragments.makefile.toUTF8)
    (hfills' : Fills files place settings.headerName fragments.header.toUTF8) :
    ∃ after events, fragments.write files directory settings =
      ⟨after, events, .ok [(targets directory settings).1, (targets directory settings).2]⟩ := by
  obtain ⟨hmakefile, hheader, hne⟩ := plainNames_of_validate hvalid
  obtain ⟨middle, staged, hstage, hstage', hkeeps, hstaged⟩ :=
    exists_stage_pair hmakefile hheader hfits hfits' hne hleads (hfree _ (by simp))
      (hfree _ (by simp)) hfills hfills'
  have hfile : staged.get? (place ++ [temporaryName settings.makefileName]) =
      some (.file fragments.makefile.toUTF8) := by
    rw [hstaged, if_neg (temporaryName_injective.ne hne), if_pos rfl]
  have hfile' : staged.get? (place ++ [temporaryName settings.headerName]) =
      some (.file fragments.header.toUTF8) := by
    rw [hstaged, if_pos rfl]
  -- A target is what it was, or it is the temporary file of the other one.
  have hnowhere : FileTree.LeadsNowhere (staged.get? (place ++ [settings.makefileName])) := by
    rw [hstaged]
    split
    · exact FileTree.leadsNowhere_file _
    · split
      · exact FileTree.leadsNowhere_file _
      · exact (hfree _ (by simp)).leadsNowhere
  have hplainStill : ∀ children,
      staged.get? (place ++ [settings.headerName]) ≠ some (.directory children) := by
    intro children
    rw [hstaged]
    split
    · simp
    · split
      · simp
      · exact hplain children
  obtain ⟨after, hcommit⟩ := exists_commit_pair hmakefile hheader hfits hfits' hne
    (hkeeps.leadsTo hleads) hfile hfile' hnowhere hplainStill
  refine ⟨after, [.wrote (targets directory settings).1 fragments.makefile.utf8ByteSize,
    .wrote (targets directory settings).2 fragments.header.utf8ByteSize], ?_⟩
  unfold write targets
  simp only [hstage, hstage', hcommit]
  rfl

/-! ## What is in place afterwards -/

namespace Course

variable {prepared middle staged half : FileSystem} {place last : Location}
  {movedMakefile movedHeader : FileTree}
  (h : Course directory settings fragments prepared middle staged half after place last
    movedMakefile movedHeader)
include h

theorem temporaryNames_ne :
    temporaryName settings.headerName ≠ temporaryName settings.makefileName :=
  temporaryName_injective.ne h.names_ne.symm

/-- A link in the place of the temporary makefile is what the makefile becomes. -/
theorem makefile_ne_file_of_link {target : Path}
    (hlink : prepared.get? (place ++ [temporaryName settings.makefileName]) =
      some (.link target)) (content : ByteArray) :
    after.get? (place ++ [settings.makefileName]) ≠ some (.file content) := by
  -- Both stagings write through links and leave them where they are.
  have hstaged := h.stageHeader.keeps.get?_link (h.stageMakefile.keeps.get?_link hlink)
  have hmoved : movedMakefile = .link target :=
    Option.some.inj (h.commitMakefile.found.symm.trans hstaged)
  have hhalf : half.get? (place ++ [settings.makefileName]) = some (.link target) := by
    rw [h.commitMakefile.get?_entry, if_pos rfl, hmoved]
  have hother : place ++ [settings.makefileName] ≠ last ++ [settings.headerName] := by
    intro hsame
    obtain ⟨-, hname⟩ := List.append_inj' hsame rfl
    exact h.names_ne (List.singleton_inj.mp hname)
  rcases h.commitHeader.get?_link hhalf hother with hafter | hafter
  · rw [hafter]
    simp
  · rw [hafter]
    simp

section NoLink

variable (hnolink : Unlinked prepared place settings.makefileName)
include hnolink

/-- What is committed as the makefile is a file, so that the directory stays where it is. -/
theorem last_eq : last = place := by
  obtain ⟨content, hstaged⟩ :=
    h.stageHeader.exists_get?_file (h.stageMakefile.get?_temporaryName hnolink)
  have hmoved : movedMakefile = .file content :=
    Option.some.inj (h.commitMakefile.found.symm.trans hstaged)
  subst hmoved
  exact (h.commitMakefile.keeps_symm.leadsTo h.commitHeader.leadsTo).unique h.commitMakefile.leadsTo

/-- A makefile that is called like the temporary header is committed as the header. -/
theorem makefile_eq_none_of_eq
    (heq : settings.makefileName = temporaryName settings.headerName) :
    after.get? (place ++ [settings.makefileName]) = none := by
  obtain rfl := h.last_eq hnolink
  rw [h.commitHeader.get?_entry, if_neg h.names_ne, if_pos heq]

theorem header_ne_file_of_link (hfree : settings.makefileName ≠ temporaryName settings.headerName)
    {target : Path}
    (hlink : prepared.get? (place ++ [temporaryName settings.headerName]) =
      some (.link target)) (content : ByteArray) :
    after.get? (place ++ [settings.headerName]) ≠ some (.file content) := by
  obtain rfl := h.last_eq hnolink
  have hstaged := h.stageHeader.keeps.get?_link (h.stageMakefile.keeps.get?_link hlink)
  have hfound := h.commitHeader.found
  rw [h.commitMakefile.get?_entry, if_neg hfree.symm, if_neg h.temporaryNames_ne, hstaged] at hfound
  rw [h.commitHeader.get?_entry, if_pos rfl, ← hfound]
  simp

variable (hnolink' : Unlinked prepared place settings.headerName)
include hnolink'

theorem middle_unlinked : Unlinked middle place settings.headerName := by
  intro target
  rw [h.stageMakefile.get?_entry hnolink, if_neg h.temporaryNames_ne]
  exact hnolink' target

theorem staged_get?_entry (name : String) :
    staged.get? (place ++ [name]) =
      if name = temporaryName settings.headerName then some (.file fragments.header.toUTF8)
      else if name = temporaryName settings.makefileName then
        some (.file fragments.makefile.toUTF8)
      else prepared.get? (place ++ [name]) := by
  rw [h.stageHeader.get?_entry (h.middle_unlinked hnolink hnolink'),
    h.stageMakefile.get?_entry hnolink]

theorem movedMakefile_eq : movedMakefile = .file fragments.makefile.toUTF8 := by
  have hfound := h.commitMakefile.found
  rw [h.staged_get?_entry hnolink hnolink', if_neg h.temporaryNames_ne.symm, if_pos rfl] at hfound
  exact (Option.some.inj hfound).symm

theorem within : prepared.Within place after := by
  have hmiddle := h.middle_unlinked hnolink hnolink'
  obtain rfl := h.last_eq hnolink
  exact (((h.stageMakefile.within hnolink).trans (h.stageHeader.within hmiddle)).trans
    h.commitMakefile.within).trans h.commitHeader.within

/-- Every entry of the directory after the names collided: the header is the makefile. -/
theorem get?_entry_of_eq (heq : settings.makefileName = temporaryName settings.headerName)
    (name : String) :
    after.get? (place ++ [name]) =
      if name = settings.headerName then some (.file fragments.makefile.toUTF8)
      else if name = temporaryName settings.makefileName ∨
          name = temporaryName settings.headerName then none
      else prepared.get? (place ++ [name]) := by
  have hstaged := h.staged_get?_entry hnolink hnolink'
  have hmakefile := h.movedMakefile_eq hnolink hnolink'
  obtain rfl := h.last_eq hnolink
  -- The makefile was committed to the very name from which the header is committed.
  have hheader : movedHeader = .file fragments.makefile.toUTF8 := by
    have hfound := h.commitHeader.found
    rw [h.commitMakefile.get?_entry, if_pos heq.symm, hmakefile] at hfound
    exact (Option.some.inj hfound).symm
  rw [h.commitHeader.get?_entry, h.commitMakefile.get?_entry, hstaged, hheader, heq]
  by_cases hname : name = settings.headerName
  · rw [if_pos hname, if_pos hname]
  · rw [if_neg hname, if_neg hname]
    by_cases htemporary : name = temporaryName settings.headerName
    · rw [if_pos htemporary, if_pos (.inr htemporary)]
    · rw [if_neg htemporary, if_neg htemporary, if_neg htemporary]
      by_cases htemporary' : name = temporaryName (temporaryName settings.headerName)
      · rw [if_pos htemporary', if_pos (.inl htemporary')]
      · rw [if_neg htemporary', if_neg htemporary', if_neg (not_or.mpr ⟨htemporary', htemporary⟩)]

/-- A makefile whose name collided cannot be read. -/
theorem readBytes_ne_of_eq (heq : settings.makefileName = temporaryName settings.headerName)
    (hmakefile : PlainName settings.makefileName) (content : ByteArray) :
    after.readBytes (directory.join ⟨settings.makefileName⟩) ≠ .ok content := by
  intro hread
  obtain ⟨found, hfound, tree, htree⟩ := exists_of_readBytes_join hmakefile hread
  have hkeeps : after.Keeps prepared := by
    apply (h.within hnolink hnolink').symm.keeps
    intro name
    rw [h.get?_entry_of_eq hnolink hnolink' heq]
    split
    · exact .inl (FileTree.leadsNowhere_file _)
    · split
      · exact .inl FileTree.leadsNowhere_none
      · exact .inr rfl
  rw [(hkeeps.leadsTo hfound).unique h.stageMakefile.leadsTo,
    h.makefile_eq_none_of_eq hnolink heq] at htree
  cases htree

variable (hfree : settings.makefileName ≠ temporaryName settings.headerName)
include hfree

/-- Every entry of the directory afterwards. -/
theorem get?_entry (name : String) :
    after.get? (place ++ [name]) =
      if name = settings.headerName then some (.file fragments.header.toUTF8)
      else if name = settings.makefileName then some (.file fragments.makefile.toUTF8)
      else if name = temporaryName settings.makefileName ∨
          name = temporaryName settings.headerName then none
      else prepared.get? (place ++ [name]) := by
  have hstaged := h.staged_get?_entry hnolink hnolink'
  have hmakefile := h.movedMakefile_eq hnolink hnolink'
  obtain rfl := h.last_eq hnolink
  have hheader : movedHeader = .file fragments.header.toUTF8 := by
    have hfound := h.commitHeader.found
    rw [h.commitMakefile.get?_entry, if_neg hfree.symm, if_neg h.temporaryNames_ne, hstaged,
      if_pos rfl] at hfound
    exact (Option.some.inj hfound).symm
  rw [h.commitHeader.get?_entry, h.commitMakefile.get?_entry, hstaged, hmakefile, hheader]
  by_cases hname : name = settings.headerName
  · rw [if_pos hname, if_pos hname]
  · rw [if_neg hname, if_neg hname]
    by_cases hmakefileName : name = settings.makefileName
    · rw [if_neg (by rw [hmakefileName]; exact hfree), if_pos hmakefileName, if_pos hmakefileName]
    · rw [if_neg hmakefileName, if_neg hmakefileName]
      by_cases htemporary : name = temporaryName settings.headerName
      · rw [if_pos htemporary, if_pos (.inr htemporary)]
      · by_cases htemporary' : name = temporaryName settings.makefileName
        · rw [if_neg htemporary, if_pos htemporary', if_pos (.inl htemporary')]
        · rw [if_neg htemporary, if_neg htemporary', if_neg htemporary, if_neg htemporary',
            if_neg (not_or.mpr ⟨htemporary', htemporary⟩)]

end NoLink

end Course

/--
What a write that works leaves under a name where `before` was. If the makefile is called like the
temporary header, it is committed as the header.
-/
def entryAfter (fragments : Fragments) (settings : Settings) (name : String)
    (before : Option FileTree) : Option FileTree :=
  if name = settings.headerName then
    some (.file (if settings.makefileName = temporaryName settings.headerName
      then fragments.makefile.toUTF8 else fragments.header.toUTF8))
  else if name = temporaryName settings.makefileName ∨ name = temporaryName settings.headerName
    then none
  else if name = settings.makefileName then some (.file fragments.makefile.toUTF8)
  else before

/-- Writing twice is writing once. -/
@[simp]
theorem entryAfter_entryAfter (fragments : Fragments) (settings : Settings) (name : String)
    (before : Option FileTree) :
    fragments.entryAfter settings name (fragments.entryAfter settings name before) =
      fragments.entryAfter settings name before := by
  unfold entryAfter
  split
  · rfl
  · split
    · rfl
    · split <;> rfl

/-- What is left under a touched name is a file, or nothing. -/
theorem overwritable_entryAfter {name : String} (before : Option FileTree)
    (hname : name ∈ touchedNames settings) :
    FileTree.Overwritable (fragments.entryAfter settings name before) := by
  unfold entryAfter
  split
  · exact FileTree.overwritable_file _
  · split
    · exact FileTree.overwritable_none
    · split
      · exact FileTree.overwritable_file _
      · simp_all [touchedNames]

theorem entryAfter_of_notMem {name : String} (before : Option FileTree)
    (hname : name ∉ touchedNames settings) :
    fragments.entryAfter settings name before = before := by
  simp only [touchedNames, List.mem_cons, List.not_mem_nil, or_false, not_or] at hname
  unfold entryAfter
  rw [if_neg hname.2.1, if_neg (not_or.mpr hname.2.2), if_neg hname.1]

/-! ## When the pair is in place -/

/-- The files without either of the two that are written. -/
def withoutTargets (files : FileSystem) (settings : Settings) (place : Location) : FileSystem :=
  (files.erase (place ++ [settings.makefileName])).erase (place ++ [settings.headerName])

/-- What a write that works needs in order to leave the pair in place. -/
structure Placeable (prepared : FileSystem) (directory : Path) (settings : Settings)
    (place : Location) : Prop where
  free : settings.makefileName ≠ temporaryName settings.headerName
  makefileUnlinked : Unlinked prepared place settings.makefileName
  headerUnlinked : Unlinked prepared place settings.headerName
  leadsTo : (withoutTargets prepared settings place).LeadsTo directory place

theorem within_withoutTargets (files : FileSystem) (settings : Settings) (place : Location) :
    files.Within place (withoutTargets files settings place) :=
  (within_erase files place _).trans (within_erase _ place _)

theorem get?_withoutTargets {place : Location} (hdirectory : files.HasDirectory place)
    (settings : Settings) (name : String) :
    (withoutTargets files settings place).get? (place ++ [name]) =
      if name = settings.headerName then none
      else if name = settings.makefileName then none
      else files.get? (place ++ [name]) := by
  unfold withoutTargets
  rw [get?_erase_entry ((within_erase files place _).hasDirectory_iff.mpr hdirectory),
    get?_erase_entry hdirectory]

/-- Where the way does not need the targets, it is there with the targets too. -/
theorem keeps_of_withoutTargets {place : Location} (hdirectory : files.HasDirectory place)
    (settings : Settings) : (withoutTargets files settings place).Keeps files := by
  apply (within_withoutTargets files settings place).symm.keeps
  intro name
  rw [get?_withoutTargets hdirectory]
  split
  · exact .inl FileTree.leadsNowhere_none
  · split
    · exact .inl FileTree.leadsNowhere_none
    · exact .inr rfl

namespace Course

variable {prepared middle staged half : FileSystem} {place last : Location}
  {movedMakefile movedHeader : FileTree}
  (h : Course directory settings fragments prepared middle staged half after place last
    movedMakefile movedHeader)
include h

section NoLink

variable (hnolink : Unlinked prepared place settings.makefileName)
  (hnolink' : Unlinked prepared place settings.headerName)
include hnolink hnolink'

theorem get?_eq_entryAfter (name : String) :
    after.get? (place ++ [name]) =
      fragments.entryAfter settings name (prepared.get? (place ++ [name])) := by
  unfold entryAfter
  by_cases heq : settings.makefileName = temporaryName settings.headerName
  · rw [h.get?_entry_of_eq hnolink hnolink' heq, if_pos heq]
    split
    · rfl
    · split
      · rfl
      · next htemporary =>
          rw [if_neg]
          rw [heq]
          exact fun hname => htemporary (.inr hname)
  · rw [h.get?_entry hnolink hnolink' heq, if_neg heq]
    split
    · rfl
    · split
      · next hname =>
          rw [if_neg]
          rw [hname]
          exact not_or.mpr ⟨(temporaryName_ne settings.makefileName).symm, heq⟩
      · rfl

/-- Staging found nothing under the temporary names that leads on. -/
theorem leadsNowhere_temporaryName {name : String}
    (hname : name = temporaryName settings.makefileName ∨
      name = temporaryName settings.headerName) :
    FileTree.LeadsNowhere (prepared.get? (place ++ [name])) := by
  rcases hname with rfl | rfl
  · exact (h.stageMakefile.eq_put hnolink).1.leadsNowhere
  · have hmiddle := (h.stageHeader.eq_put (h.middle_unlinked hnolink hnolink')).1
    have hsame := h.stageMakefile.get?_entry hnolink (temporaryName settings.headerName)
    rw [if_neg h.temporaryNames_ne] at hsame
    rw [← hsame]
    exact hmiddle.leadsNowhere

/-- A way that does not need the targets is there afterwards. -/
theorem keeps_of_without : (withoutTargets prepared settings place).Keeps after := by
  have hwithin := h.within hnolink hnolink'
  apply ((within_withoutTargets prepared settings place).symm.trans hwithin).keeps
  intro name
  rw [get?_withoutTargets h.stageMakefile.leadsTo.1, h.get?_eq_entryAfter hnolink hnolink']
  unfold entryAfter
  split
  · exact .inl FileTree.leadsNowhere_none
  · split
    · exact .inl FileTree.leadsNowhere_none
    · split
      · next htemporary => exact .inl (h.leadsNowhere_temporaryName hnolink hnolink' htemporary)
      · exact .inr rfl

end NoLink

theorem placed (hplaceable : Placeable prepared directory settings place)
    (hmakefile : PlainName settings.makefileName) (hheader : PlainName settings.headerName)
    (hfits : Fits directory settings.makefileName) (hfits' : Fits directory settings.headerName) :
    fragments.Placed directory settings place prepared after := by
  obtain ⟨hfree, hnolink, hnolink', hway⟩ := hplaceable
  have hentry := h.get?_entry hnolink hnolink' hfree
  have hkeeps := h.keeps_of_without hnolink hnolink'
  have hleads := hkeeps.leadsTo hway
  have hmakefileEntry := hentry settings.makefileName
  rw [if_neg h.names_ne, if_pos rfl] at hmakefileEntry
  have hheaderEntry := hentry settings.headerName
  rw [if_pos rfl] at hheaderEntry
  refine ⟨hmakefileEntry, hheaderEntry, ⟨?_, ?_⟩, ?_⟩
  · exact readBytes_join hmakefile hfits.path hfits.short hleads
      hmakefileEntry
  · exact readBytes_join hheader hfits'.path hfits'.short hleads hheaderEntry
  · intro name hname hname'
    rw [hentry, if_neg hname', if_neg hname]

/-- What is read was reached, and the way there is made of what was there before. -/
theorem leadsTo_withoutTargets (hmakefile : PlainName settings.makefileName)
    (hnolink : Unlinked prepared place settings.makefileName)
    (hnolink' : Unlinked prepared place settings.headerName)
    (hfree : settings.makefileName ≠ temporaryName settings.headerName) {content : ByteArray}
    (hread : after.readBytes (directory.join ⟨settings.makefileName⟩) = .ok content) :
    (withoutTargets prepared settings place).LeadsTo directory place := by
  obtain ⟨found, hfound, -⟩ := exists_of_readBytes_join hmakefile hread
  have hdirectory := h.stageMakefile.leadsTo.1
  have hkeeps : after.Keeps (withoutTargets prepared settings place) := by
    apply ((h.within hnolink hnolink').symm.trans
      (within_withoutTargets prepared settings place)).keeps
    intro name
    rw [get?_withoutTargets hdirectory, h.get?_entry hnolink hnolink' hfree]
    split
    · exact .inl (FileTree.leadsNowhere_file _)
    · split
      · exact .inl (FileTree.leadsNowhere_file _)
      · split
        · exact .inl FileTree.leadsNowhere_none
        · exact .inr rfl
  have hway := hkeeps.leadsTo hfound
  have hbefore := (keeps_of_withoutTargets hdirectory settings).leadsTo hway
  rw [hbefore.unique h.stageMakefile.leadsTo] at hway
  exact hway

theorem placeable_of_reads (hmakefile : PlainName settings.makefileName)
    (hnolink : Unlinked prepared place settings.makefileName)
    (hnolink' : Unlinked prepared place settings.headerName)
    (hreads : fragments.Reads directory settings after) :
    Placeable prepared directory settings place := by
  have hfree : settings.makefileName ≠ temporaryName settings.headerName := by
    intro heq
    exact h.readBytes_ne_of_eq hnolink hnolink' heq hmakefile _ hreads.1
  exact ⟨hfree, hnolink, hnolink',
    h.leadsTo_withoutTargets hmakefile hnolink hnolink' hfree hreads.1⟩

theorem placeable (hmakefile : PlainName settings.makefileName)
    (hplaced : fragments.Placed directory settings place prepared after) :
    Placeable prepared directory settings place := by
  have hnolink : Unlinked prepared place settings.makefileName := by
    intro target hlink
    exact h.makefile_ne_file_of_link hlink _ hplaced.makefile
  have hfree : settings.makefileName ≠ temporaryName settings.headerName := by
    intro heq
    cases (h.makefile_eq_none_of_eq hnolink heq).symm.trans hplaced.makefile
  have hnolink' : Unlinked prepared place settings.headerName := by
    intro target hlink
    exact h.header_ne_file_of_link hnolink hfree hlink _ hplaced.header
  exact h.placeable_of_reads hmakefile hnolink hnolink' hplaced.reads

end Course

/--
**A write leaves the pair in place exactly if nothing is in its own way.** When writing works,
it gives the two paths. Each is then a file of its own with its text, read by its path, and no
temporary file is left, if and only if the makefile is not called like the temporary header, no
temporary name was a link, and the way to the directory goes through neither target. Where no
temporary name was a link, this is just when the two paths give their texts back; and if the names
collide there, the makefile cannot be read, and the header holds its text.
-/
theorem write_placed_iff (files : FileSystem) (directory : Path) (settings : Settings)
    (fragments : Fragments) (after : FileSystem) (events : List Event) (written : List Path)
    (hvalid : settings.validate = .ok ())
    (hwrite : fragments.write files directory settings = ⟨after, events, .ok written⟩) :
    written = [directory.join ⟨settings.makefileName⟩, directory.join ⟨settings.headerName⟩] ∧
    ∃ prepared place,
      prepareDirectory files (directory.join ⟨settings.makefileName⟩) = (prepared, .ok ()) ∧
      prepared.LeadsTo directory place ∧
      (fragments.Placed directory settings place prepared after ↔
        Placeable prepared directory settings place) ∧
      (Unlinked prepared place settings.makefileName →
        Unlinked prepared place settings.headerName →
        (fragments.Reads directory settings after ↔
          Placeable prepared directory settings place) ∧
        (settings.makefileName = temporaryName settings.headerName →
          (∀ content, after.readBytes (directory.join ⟨settings.makefileName⟩) ≠ .ok content) ∧
            after.get? (place ++ [settings.headerName]) =
              some (.file fragments.makefile.toUTF8))) := by
  obtain ⟨hmakefile, hheader, -⟩ := plainNames_of_validate hvalid
  obtain ⟨rfl, hfits, hfits', prepared, middle, staged, half, place, last, movedMakefile,
    movedHeader, hprepared, hcourse⟩ := write_eq_ok hvalid hwrite
  have hplaced : Placeable prepared directory settings place →
      fragments.Placed directory settings place prepared after := by
    intro hplaceable
    exact hcourse.placed hplaceable hmakefile hheader hfits hfits'
  refine ⟨rfl, prepared, place, hprepared, hcourse.stageMakefile.leadsTo,
    ⟨hcourse.placeable hmakefile, hplaced⟩, ?_⟩
  intro hnolink hnolink'
  constructor
  · constructor
    · exact hcourse.placeable_of_reads hmakefile hnolink hnolink'
    · intro hplaceable
      exact (hplaced hplaceable).reads
  · intro heq
    constructor
    · exact hcourse.readBytes_ne_of_eq hnolink hnolink' heq hmakefile
    · rw [hcourse.get?_entry_of_eq hnolink hnolink' heq, if_pos rfl]

/-- A disk with one empty directory. -/
def emptyOut : FileSystem := .ofRoot (.directory [("out", .directory [])])

theorem leadsTo_emptyOut : emptyOut.LeadsTo ⟨"out"⟩ ["out"] :=
  ⟨⟨.directory [], rfl, rfl⟩, Path.maxLinks, walks_of_walk (by cbv)⟩

theorem write_placed_emptyOut :
    Settings.validate {} = .ok () ∧ ∃ after events,
      (⟨"mk", "h"⟩ : Fragments).write emptyOut ⟨"out"⟩ {} =
        ⟨after, events, .ok [⟨"out/.config.mk"⟩, ⟨"out/.config.h"⟩]⟩ ∧
      (⟨"mk", "h"⟩ : Fragments).Placed ⟨"out"⟩ {} ["out"] emptyOut after := by
  have hvalid : Settings.validate {} = .ok () := rfl
  have hfits : Fits ⟨"out"⟩ ".config.mk" := ⟨rfl, rfl, by decide, by decide⟩
  have hfits' : Fits ⟨"out"⟩ ".config.h" := ⟨rfl, rfl, by decide, by decide⟩
  obtain ⟨after, events, hwrite⟩ : ∃ after events,
      (⟨"mk", "h"⟩ : Fragments).write emptyOut ⟨"out"⟩ {} =
        ⟨after, events, .ok [⟨"out/.config.mk"⟩, ⟨"out/.config.h"⟩]⟩ :=
    exists_write_eq hvalid hfits hfits' leadsTo_emptyOut (by decide) (by rintro _ ⟨⟩) rfl rfl
  obtain ⟨-, prepared, place, hprepared, hleads, hiff, -⟩ :=
    write_placed_iff _ _ _ _ _ _ _ hvalid hwrite
  have hsame := prepareDirectory_of_leadsTo (plainNames_of_validate hvalid).1
    hfits.temporaryPath leadsTo_emptyOut
  cases hprepared.symm.trans hsame
  cases hleads.unique leadsTo_emptyOut
  refine ⟨hvalid, after, events, hwrite, hiff.mpr ⟨by decide, ?_, ?_, ?_⟩⟩
  · rintro target ⟨⟩
  · rintro target ⟨⟩
  · exact ⟨⟨.directory [], rfl, rfl⟩, Path.maxLinks, walks_of_walk (by cbv)⟩

/-- The makefile is called like the temporary file of the header. -/
def colliding : Settings := { makefileName := ".a.tmp", headerName := "a" }

theorem colliding_loses_makefile :
    colliding.validate = .ok () ∧ ∃ after events,
      (⟨"mk", "h"⟩ : Fragments).write emptyOut ⟨"out"⟩ colliding =
        ⟨after, events, .ok [⟨"out/.a.tmp"⟩, ⟨"out/a"⟩]⟩ ∧
      (∀ content, after.readBytes ⟨"out/.a.tmp"⟩ ≠ .ok content) ∧
      after.get? ["out", "a"] = some (.file "mk".toUTF8) := by
  have hvalid : colliding.validate = .ok () := rfl
  have hfits : Fits ⟨"out"⟩ ".a.tmp" := ⟨rfl, rfl, by decide, by decide⟩
  have hfits' : Fits ⟨"out"⟩ "a" := ⟨rfl, rfl, by decide, by decide⟩
  obtain ⟨after, events, hwrite⟩ : ∃ after events,
      (⟨"mk", "h"⟩ : Fragments).write emptyOut ⟨"out"⟩ colliding =
        ⟨after, events, .ok [⟨"out/.a.tmp"⟩, ⟨"out/a"⟩]⟩ :=
    exists_write_eq hvalid hfits hfits' leadsTo_emptyOut (by decide) (by rintro _ ⟨⟩) rfl rfl
  have hmakefile := (plainNames_of_validate hvalid).1
  obtain ⟨-, -, -, prepared, _, _, _, place, _, _, _, hprepared, hcourse⟩ :=
    write_eq_ok hvalid hwrite
  have hsame := prepareDirectory_of_leadsTo hmakefile hfits.temporaryPath leadsTo_emptyOut
  cases hprepared.symm.trans hsame
  cases hcourse.stageMakefile.leadsTo.unique leadsTo_emptyOut
  have hnolink : Unlinked emptyOut ["out"] colliding.makefileName := by
    rintro target ⟨⟩
  have hnolink' : Unlinked emptyOut ["out"] colliding.headerName := by
    rintro target ⟨⟩
  refine ⟨hvalid, after, events, hwrite, hcourse.readBytes_ne_of_eq hnolink hnolink' rfl hmakefile,
    ?_⟩
  exact (hcourse.get?_entry_of_eq hnolink hnolink' rfl "a").trans (if_pos rfl)

end FeatureFlags.Fragments
