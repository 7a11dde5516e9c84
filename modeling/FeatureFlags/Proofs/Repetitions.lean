import FeatureFlags.Proofs.Bystanders
import FeatureFlags.Proofs.Expansions

/-!
# Running again

A run reads by paths, so it reads the same in every tree that has what those paths meet
(`inputsOf_congr`). Writing the pair leaves all but four entries of one directory alone, and writing
it once more finds these as it left them. So a second run ends as the first did and changes nothing
(`run_again`), unless the outputs are in the way of what is read or of the directory itself.
-/

namespace FeatureFlags

open FileSystem

namespace FileSystem

variable {files other last : FileSystem} {path : Path} {place : Location}

/-! ## More of the same -/

theorem Walks.isSome {links : Nat} {here : Location} {names : List String} {arrival : Arrival}
    (h : files.Walks links here names arrival) : (files.get? arrival.place).isSome := by
  induction h with
  | done hsome => exact hsome
  | stay _ _ ih => exact ih
  | up _ _ ih => exact ih
  | follow _ _ _ _ _ ih => exact ih
  | down _ _ _ _ _ _ ih => exact ih

theorem canonical_eq_ok_iff :
    files.canonical path = .ok place ↔ path.check = .ok () ∧ ∃ linksLeft,
      files.Walks Path.maxLinks (path.startFrom files.workingDirectory) path.stepsThrough
        ⟨place, linksLeft⟩ := by
  unfold FileSystem.canonical
  cases hcheck : path.check with
  | error fault => simp
  | ok =>
      constructor
      · intro h
        cases hwalk : files.walk Path.maxLinks (path.startFrom files.workingDirectory)
            path.stepsThrough with
        | error fault => simp [hwalk, Except.map] at h
        | ok arrival =>
            rw [hwalk] at h
            cases h
            exact ⟨rfl, arrival.linksLeft, walks_of_walk hwalk⟩
      · rintro ⟨-, linksLeft, hwalk⟩
        rw [hwalk.walk_eq]
        rfl

/-- Whatever is in `files` is in `other` too. -/
structure Persists (files other : FileSystem) : Prop where
  workingDirectory : other.workingDirectory = files.workingDirectory
  shortfall? : other.shortfall? = files.shortfall?
  trunk? : ∀ {place : Location} {tree : FileTree}, files.trunk? place = some tree →
    other.trunk? place = some tree

namespace Persists

theorem keeps (h : files.Persists other) : files.Keeps other :=
  ⟨h.workingDirectory, h.shortfall?, fun htree _ => h.trunk? htree⟩

theorem exists_get? (h : files.Persists other) {tree : FileTree}
    (htree : files.get? place = some tree) :
    ∃ tree', other.get? place = some tree' ∧ tree'.trunk = tree.trunk := by
  have htrunk : files.trunk? place = some tree.trunk := by
    rw [FileSystem.trunk?, htree]
    rfl
  exact Option.map_eq_some_iff.mp (h.trunk? htrunk)

/-- A walk goes the same way, to a file as to a directory. -/
theorem walks (h : files.Persists other) {links : Nat} {here : Location} {names : List String}
    {arrival : Arrival} (hwalk : files.Walks links here names arrival) :
    other.Walks links here names arrival := by
  induction hwalk with
  | done hsome =>
      obtain ⟨tree, htree⟩ := Option.isSome_iff_exists.mp hsome
      obtain ⟨tree', htree', -⟩ := h.exists_get? htree
      exact .done (Option.isSome_iff_exists.mpr ⟨tree', htree'⟩)
  | stay hhere _ ih => exact .stay (h.keeps.hasDirectory hhere) ih
  | up hhere _ ih => exact .up (h.keeps.hasDirectory hhere) ih
  | follow hhere hname hlength hlink _ ih =>
      exact .follow (h.keeps.hasDirectory hhere) hname hlength (h.keeps.get?_link hlink) ih
  | down hhere hname hlength hentry htree _ ih =>
      obtain ⟨tree', hentry', hsame⟩ := h.exists_get? hentry
      refine .down (h.keeps.hasDirectory hhere) hname hlength hentry' ?_ ih
      rintro target rfl
      exact htree target (FileTree.trunk_eq_link_iff.mp hsame.symm)

theorem canonical (h : files.Persists other) (hcanonical : files.canonical path = .ok place) :
    other.canonical path = .ok place := by
  obtain ⟨hcheck, linksLeft, hwalk⟩ := canonical_eq_ok_iff.mp hcanonical
  refine canonical_eq_ok_iff.mpr ⟨hcheck, linksLeft, ?_⟩
  rw [h.workingDirectory]
  exact h.walks hwalk

theorem readText (h : files.Persists other) (hcanonical : files.canonical path = .ok place) :
    other.readText path = files.readText path := by
  have hcanonical' := h.canonical hcanonical
  obtain ⟨-, linksLeft, hwalk⟩ := canonical_eq_ok_iff.mp hcanonical
  obtain ⟨tree, htree⟩ := Option.isSome_iff_exists.mp hwalk.isSome
  obtain ⟨tree', htree', hsame⟩ := h.exists_get? htree
  have hbytes : other.readBytes path = files.readBytes path := by
    unfold FileSystem.readBytes stat
    simp only [hcanonical, hcanonical', bind, Except.bind, htree, htree']
    cases hlength : path.checkLength with
    | error fault => rfl
    | ok =>
        cases tree <;> cases tree' <;> simp_all [FileTree.trunk]
  unfold FileSystem.readText
  rw [hbytes]

end Persists

/-- What is left when an entry is erased was there before, and is not below that entry. -/
theorem trunk?_of_trunk?_erase {name : String} {elsewhere : Location} {tree : FileTree}
    (h : (files.erase (place ++ [name])).trunk? elsewhere = some tree) :
    files.trunk? elsewhere = some tree ∧ ¬ place ++ [name] <+: elsewhere := by
  have hwithin := within_erase files place name
  by_cases hinside : ∃ other, place ++ [other] <+: elsewhere
  · have hdirectory : files.HasDirectory place := by
      obtain ⟨other, below, rfl⟩ := hinside
      obtain ⟨found, hfound, -⟩ := Option.map_eq_some_iff.mp h
      rw [List.append_assoc] at hfound
      exact hwithin.hasDirectory_iff.mp (hasDirectory_of_append (by simp) hfound)
    have hnot : ¬ place ++ [name] <+: elsewhere := by
      intro hinit
      rw [trunk?, get?_erase_of_prefix hdirectory hinit] at h
      cases h
    rw [trunk?_erase hdirectory hnot] at h
    exact ⟨h, hnot⟩
  · rw [hwithin.outside (not_exists.mp hinside)] at h
    exact ⟨h, not_exists.mp hinside name⟩

end FileSystem

/-! ## What a run reads -/

namespace Description

/-- The files that a description is read from: itself, and those that their lines include. -/
inductive Reads (files : FileSystem) (config : Path) : Path → Prop where
  | itself : Reads files config config
  | inclusion {file : Path} {text target : String} {line : List Char} {number : Nat}
      (hfile : Reads files config file) (htext : files.readText file = .ok text)
      (hmem : (line, number) ∈ numbered text)
      (hline : Declaration.parse ⟨file, number⟩ (String.ofList line) =
        .ok (some (.inclusion target))) :
      Reads files config (includePath file target)

end Description

namespace FileSystem

/-- A path is read in `other` as it is in `files`. -/
structure Agree (files other : FileSystem) (path : Path) : Prop where
  canonical : other.canonical path = files.canonical path
  readText : other.readText path = files.readText path

end FileSystem

namespace Description

variable {files other : FileSystem} {config file : Path} {chain : List Location}

theorem openFile_congr {path : Path} (h : files.Agree other path) (chain : List Location)
    (includedAt : Option Origin) :
    openFile other chain path includedAt = openFile files chain path includedAt := by
  unfold openFile
  rw [h.canonical, h.readText]

theorem readLines_congr (h : ∀ path, Reads files config path → files.Agree other path)
    {lines : List (List Char × Nat)} {reading : Reading} (hfile : Reads files config file)
    {text : String} (htext : files.readText file = .ok text) (hlines : lines ⊆ numbered text) :
    readLines other chain file lines reading = readLines files chain file lines reading := by
  fun_induction readLines files chain file lines reading generalizing text with
  | case1 => rw [readLines]
  | case2 chain file reading line number rest error hparse =>
      rw [readLines, hparse]
  | case3 chain file reading line number rest hparse ih =>
      rw [readLines, hparse]
      exact ih hfile htext (List.subset_of_cons_subset hlines)
  | case4 chain file reading line number rest entry hparse ih =>
      rw [readLines, hparse]
      exact ih hfile htext (List.subset_of_cons_subset hlines)
  | case5 chain file reading line number rest target hparse path error hopen =>
      have hread := Reads.inclusion hfile htext (hlines List.mem_cons_self) hparse
      have hopen' := (openFile_congr (h path hread) chain (some ⟨file, number⟩)).trans hopen
      rw [readLines, hparse]
      simp only
      split
      · next error' hrefused =>
          cases hopen'.symm.trans hrefused
          rfl
      · next place text' hopened => cases hopen'.symm.trans hopened
  | case6 chain file reading line number rest target hparse path place text' hopen after error
      hnested ih =>
      have hread := Reads.inclusion hfile htext (hlines List.mem_cons_self) hparse
      have hopen' := (openFile_congr (h path hread) chain (some ⟨file, number⟩)).trans hopen
      have hinside := ih hread (openFile_eq_ok_iff.mp hopen).readText (List.Subset.refl _)
      rw [readLines, hparse]
      simp only
      split
      · next error' hrefused => cases hopen'.symm.trans hrefused
      · next place' text'' hopened =>
          cases hopen'.symm.trans hopened
          rw [hinside, hnested]
  | case7 chain file reading line number rest target hparse path place text' hopen after hnested
      ihinside ihrest =>
      have hread := Reads.inclusion hfile htext (hlines List.mem_cons_self) hparse
      have hopen' := (openFile_congr (h path hread) chain (some ⟨file, number⟩)).trans hopen
      have hinside := ihinside hread (openFile_eq_ok_iff.mp hopen).readText (List.Subset.refl _)
      rw [readLines, hparse]
      simp only
      split
      · next error' hrefused => cases hopen'.symm.trans hrefused
      · next place' text'' hopened =>
          cases hopen'.symm.trans hopened
          rw [hinside, hnested]
          exact ihrest hfile htext (List.subset_of_cons_subset hlines)

theorem load_congr (h : ∀ path, Reads files config path → files.Agree other path)
    (table : Table) : load other config table = load files config table := by
  have hopen := openFile_congr (h config .itself) [] none
  unfold load
  rw [hopen]
  split
  · rfl
  · next place text hopened =>
      exact readLines_congr h .itself (openFile_eq_ok_iff.mp hopened).readText
        (List.Subset.refl _)

end Description

namespace Generation

variable {files other : FileSystem} {commandLine : CommandLine}

/-- The files that a run reads: its settings, its overrides, and those of the description. -/
def Reads (files : FileSystem) (commandLine : CommandLine) (path : Path) : Prop :=
  commandLine.settings = some path ∨ commandLine.overrides = some path ∨
    Description.Reads files commandLine.config path

theorem settingsOf_congr {settings : Option Path}
    (h : ∀ path, settings = some path → files.Agree other path) :
    settingsOf other settings = settingsOf files settings := by
  cases settings with
  | none => rfl
  | some path =>
      unfold settingsOf Settings.load
      simp only [(h path rfl).readText]

theorem overridesOf_congr {overrides : Option Path}
    (h : ∀ path, overrides = some path → files.Agree other path) :
    overridesOf other overrides = overridesOf files overrides := by
  cases overrides with
  | none => rfl
  | some path =>
      unfold overridesOf loadOverrides
      simp only [(h path rfl).readText]

/-- A run reads and works out the same where all that it reads is the same. -/
theorem inputsOf_congr (h : ∀ path, Reads files commandLine path → files.Agree other path) :
    inputsOf other commandLine = inputsOf files commandLine := by
  have hsettings : settingsOf other commandLine.settings = settingsOf files commandLine.settings :=
    settingsOf_congr fun path hpath => h path (.inl hpath)
  have hoverrides :
      overridesOf other commandLine.overrides = overridesOf files commandLine.overrides :=
    overridesOf_congr fun path hpath => h path (.inr (.inl hpath))
  have htable : tableOf other commandLine.config = tableOf files commandLine.config := by
    funext overrides
    unfold tableOf
    rw [Description.load_congr fun path hpath => h path (.inr (.inr hpath))]
  unfold inputsOf
  rw [hsettings, hoverrides, htable]

end Generation

/-! ## Writing the pair once more -/

namespace Fragments

open Staged

variable {files prepared after : FileSystem} {directory : Path} {settings : Settings}
  {fragments : Fragments} {place : Location}

/-- `after` is `prepared` with the pair in the directory `place`, and no temporary file there. -/
structure Completes (fragments : Fragments) (directory : Path) (settings : Settings)
    (prepared : FileSystem) (place : Location) (after : FileSystem) : Prop where
  leadsTo : prepared.LeadsTo directory place
  within : prepared.Within place after
  entry : ∀ name, after.get? (place ++ [name]) =
    fragments.entryAfter settings name (prepared.get? (place ++ [name]))
  keeps : (withoutTargets prepared settings place).Keeps after
  fillsMakefile : Fills prepared place settings.makefileName fragments.makefile.toUTF8
  fillsHeader : Fills prepared place settings.headerName fragments.header.toUTF8

theorem exists_completes {events : List Event} {written : List Path}
    (hvalid : settings.validate = .ok ())
    (hunlinked : ∀ place, WritesTo files directory settings place →
      Unlinked files place settings.makefileName ∧ Unlinked files place settings.headerName)
    (hwrite : fragments.write files directory settings = ⟨after, events, .ok written⟩) :
    written = [(targets directory settings).1, (targets directory settings).2] ∧
      Fits directory settings.makefileName ∧ Fits directory settings.headerName ∧
      ∃ prepared place, prepareDirectory files (targets directory settings).1 = (prepared, .ok ()) ∧
        WritesTo files directory settings place ∧
        fragments.Completes directory settings prepared place after := by
  obtain ⟨hwritten, hfits, hfits', prepared, middle, staged, half, place, last, movedMakefile,
    movedHeader, hprepare, hcourse⟩ := write_eq_ok hvalid hwrite
  have hleads := hcourse.stageMakefile.leadsTo
  have hto : WritesTo files directory settings place := by
    unfold WritesTo
    rw [hprepare]
    exact hleads
  have hguides : files.Guides prepared := (prepareDirectory_makes hprepare).guides (.refl files)
  have hnolink := hguides.ne_link (hunlinked place hto).1
  have hnolink' := hguides.ne_link (hunlinked place hto).2
  have hfillsHeader := (fills_congr hcourse.stageMakefile.keeps.shortfall?).mp
    (hcourse.fillsHeader (hcourse.middle_unlinked hnolink hnolink'))
  exact ⟨hwritten, hfits, hfits', prepared, place, hprepare, hto, hleads,
    hcourse.within hnolink hnolink', hcourse.get?_eq_entryAfter hnolink hnolink',
    hcourse.keeps_of_without hnolink hnolink', hcourse.fillsMakefile hnolink, hfillsHeader⟩

/-- What was there before, but for the targets, is there afterwards. -/
theorem Completes.persists (h : fragments.Completes directory settings prepared place after)
    {paths : List Path} (hmakes : Makes files paths prepared)
    (hmakefile : files.get? (place ++ [temporaryName settings.makefileName]) = none)
    (hheader : files.get? (place ++ [temporaryName settings.headerName]) = none) :
    (withoutTargets files settings place).Persists after := by
  refine ⟨h.within.workingDirectory.trans hmakes.workingDirectory,
    h.within.shortfall?.trans hmakes.shortfall?, ?_⟩
  intro elsewhere tree hbare
  obtain ⟨hbare, hnotHeader⟩ := trunk?_of_trunk?_erase hbare
  obtain ⟨hfiles, hnotMakefile⟩ := trunk?_of_trunk?_erase hbare
  rw [h.within.trunk?_eq]
  · exact hmakes.kept hfiles
  · intro name hinit
    have hsome : files.get? (place ++ [name]) ≠ none := by
      intro hnone
      obtain ⟨below, rfl⟩ := hinit
      rw [trunk?_append, hnone] at hfiles
      cases hfiles
    rw [h.entry, entryAfter_of_notMem]
    simp only [touchedNames, List.mem_cons, List.not_mem_nil, or_false, not_or]
    refine ⟨?_, ?_, ?_, ?_⟩
    · rintro rfl
      exact hnotMakefile hinit
    · rintro rfl
      exact hnotHeader hinit
    · rintro rfl
      exact hsome hmakefile
    · rintro rfl
      exact hsome hheader

theorem persists_withoutTargets (files : FileSystem) (settings : Settings) (place : Location) :
    (withoutTargets files settings place).Persists files := by
  refine ⟨rfl, rfl, fun hbare => ?_⟩
  exact (trunk?_of_trunk?_erase (trunk?_of_trunk?_erase hbare).1).1

/-- A write where the pair is in place already works, and changes nothing. -/
theorem Completes.write_again (h : fragments.Completes directory settings prepared place after)
    (hvalid : settings.validate = .ok ()) (hfits : Fits directory settings.makefileName)
    (hfits' : Fits directory settings.headerName)
    (hway : (withoutTargets prepared settings place).LeadsTo directory place) :
    ∃ last events, fragments.write after directory settings =
        ⟨last, events, .ok [(targets directory settings).1, (targets directory settings).2]⟩ ∧
      ∀ elsewhere, last.trunk? elsewhere = after.trunk? elsewhere := by
  have hleads : after.LeadsTo directory place := h.keeps.leadsTo hway
  have hfree : ∀ name ∈ touchedNames settings,
      FileTree.Overwritable (after.get? (place ++ [name])) := by
    intro name hname
    rw [h.entry]
    exact overwritable_entryAfter _ hname
  obtain ⟨hmakefile, hheader, htemporary, htemporary'⟩ := mem_touchedNames settings
  have hplain := (hfree _ hheader).ne_directory
  have hroom : after.shortfall? = prepared.shortfall? :=
    h.keeps.shortfall?.trans (keeps_of_withoutTargets h.leadsTo.1 settings).shortfall?.symm
  obtain ⟨last, events, hwrite⟩ : ∃ last events, fragments.write after directory settings =
      ⟨last, events, .ok [(targets directory settings).1, (targets directory settings).2]⟩ :=
    exists_write_eq hvalid hfits hfits' hleads
      (by simp [hfree, hmakefile, htemporary, htemporary']) hplain
      ((fills_congr hroom).mpr h.fillsMakefile) ((fills_congr hroom).mpr h.fillsHeader)
  refine ⟨last, events, hwrite, ?_⟩
  have hplace : ∀ found, WritesTo after directory settings found ↔ found = place := fun _ =>
    writesTo_iff_of_leadsTo (plainNames_of_validate hvalid).1 hfits.temporaryPath hleads
  have hunlinked : ∀ found, WritesTo after directory settings found →
      Unlinked after found settings.makefileName ∧ Unlinked after found settings.headerName := by
    intro found hfound
    rw [(hplace found).mp hfound]
    exact ⟨unlinked_of_overwritable (hfree _ htemporary),
      unlinked_of_overwritable (hfree _ htemporary')⟩
  obtain ⟨-, -, -, prepared', found, hprepare', hto, hagain⟩ :=
    exists_completes hvalid hunlinked hwrite
  obtain rfl := (hplace found).mp hto
  have hprepare := prepareDirectory_of_leadsTo (plainNames_of_validate hvalid).1
    hfits.temporaryPath hleads
  obtain rfl : after = prepared' := congrArg Prod.fst (hprepare.symm.trans hprepare')
  intro elsewhere
  apply hagain.within.trunk?_eq
  intro name _
  rw [hagain.entry, h.entry, entryAfter_entryAfter]

end Fragments

namespace Generation

open Staged Fragments

variable {files : FileSystem} {commandLine : CommandLine}

/-! ## A second run -/

/--
Before the run, no temporary file is there, and the outputs are in the way of nothing that it reads:
each path that it reads leads somewhere without them.
-/
structure Clear (files : FileSystem) (commandLine : CommandLine) : Prop where
  temporary : ∀ place, WritesTo files commandLine.outDirectory (outputSettings files commandLine)
    place → ∀ name ∈ [(outputSettings files commandLine).makefileName,
      (outputSettings files commandLine).headerName],
    files.get? (place ++ [temporaryName name]) = none
  reads : ∀ place, WritesTo files commandLine.outDirectory (outputSettings files commandLine)
    place → ∀ path, Reads files commandLine path → ∃ found,
    (withoutTargets files (outputSettings files commandLine) place).canonical path = .ok found

/-- The outputs are not on the way to their directory. -/
def WayClear (files : FileSystem) (commandLine : CommandLine) : Prop :=
  ∀ place, WritesTo files commandLine.outDirectory (outputSettings files commandLine) place →
    (withoutTargets (prepareDirectory files
      (targets commandLine.outDirectory (outputSettings files commandLine)).1).1
      (outputSettings files commandLine) place).LeadsTo commandLine.outDirectory place

theorem run_eq_of_inputsOf {events : List Event} {inputs : Inputs} {fragments : Fragments}
    (hinputs : inputsOf files commandLine = (events, .ok inputs))
    (hrender : Fragments.render inputs.resolution inputs.settings = .ok fragments)
    {written : Outcome}
    (hwrite : fragments.write files commandLine.outDirectory inputs.settings = written) :
    run files commandLine = ⟨written.files, events ++ written.events,
      if commandLine.dump then inputs.table.listing inputs.settings else "", written.result⟩ := by
  unfold run
  simp only [hinputs, writeFragments, hrender, hwrite]

/-- What a run that works has read and worked out, and what it prints. -/
theorem exists_inputsOf_of_run {written : List Path}
    (h : (run files commandLine).result = .ok written) :
    ∃ events inputs fragments, inputsOf files commandLine = (events, .ok inputs) ∧
      outputSettings files commandLine = inputs.settings ∧
      inputs.settings.validate = .ok () ∧
      Fragments.render inputs.resolution inputs.settings = .ok fragments ∧
      (run files commandLine).output =
        (if commandLine.dump then inputs.table.listing inputs.settings else "") ∧
      ∃ events', fragments.write files commandLine.outDirectory inputs.settings =
        ⟨(run files commandLine).files, events', .ok written⟩ := by
  cases hinputs : inputsOf files commandLine with
  | mk events outcome =>
      cases outcome with
      | error error =>
          unfold run at h
          simp [hinputs] at h
      | ok inputs =>
          have hsettings := settingsOf_of_inputsOf (congrArg Prod.snd hinputs)
          have houtput : outputSettings files commandLine = inputs.settings := by
            unfold outputSettings
            rw [hsettings]
          cases hrender : Fragments.render inputs.resolution inputs.settings with
          | error error =>
              unfold run at h
              simp [hinputs, writeFragments, hrender] at h
          | ok fragments =>
              have hrun := run_eq_of_inputsOf hinputs hrender rfl
              rw [hrun] at h ⊢
              refine ⟨events, inputs, fragments, rfl, houtput, validate_of_settingsOf hsettings,
                hrender, rfl, (fragments.write files commandLine.outDirectory
                  inputs.settings).events, ?_⟩
              rw [← h]

/--
**Running again changes nothing.** If a run works, and neither its reads nor the way to its outputs
go through what it writes, the same run works on what it left, prints the same, and leaves every
place as it is.
-/
theorem run_again (files : FileSystem) (commandLine : CommandLine) (written : List Path)
    (hruns : (run files commandLine).result = .ok written) (hclear : Clear files commandLine)
    (hway : WayClear files commandLine) :
    (run (run files commandLine).files commandLine).result = .ok written ∧
      (run (run files commandLine).files commandLine).output = (run files commandLine).output ∧
      ∀ place, (run (run files commandLine).files commandLine).files.trunk? place =
        (run files commandLine).files.trunk? place := by
  obtain ⟨events, inputs, fragments, hinputs, houtput, hvalid, hrender, hprinted, events', hwrite⟩ :=
    exists_inputsOf_of_run hruns
  obtain ⟨htemporary, hreads⟩ := hclear
  unfold WayClear at hway
  rw [houtput] at htemporary hreads hway
  have hunlinked : ∀ place, WritesTo files commandLine.outDirectory inputs.settings place →
      Unlinked files place inputs.settings.makefileName ∧
        Unlinked files place inputs.settings.headerName := by
    intro place hto
    exact ⟨unlinked_of_eq_none (htemporary place hto _ (by simp)),
      unlinked_of_eq_none (htemporary place hto _ (by simp))⟩
  obtain ⟨rfl, hfits, hfits', prepared, place, hprepare, hto, hcompletes⟩ :=
    exists_completes hvalid hunlinked hwrite
  have hbare := hcompletes.persists (prepareDirectory_makes hprepare)
    (htemporary place hto _ (by simp)) (htemporary place hto _ (by simp))
  have hbare' := persists_withoutTargets files inputs.settings place
  have hsame : inputsOf (run files commandLine).files commandLine = (events, .ok inputs) := by
    rw [inputsOf_congr, hinputs]
    intro path hpath
    obtain ⟨found, hfound⟩ := hreads place hto path hpath
    exact ⟨(hbare.canonical hfound).trans (hbare'.canonical hfound).symm,
      (hbare.readText hfound).trans (hbare'.readText hfound).symm⟩
  have hway := hway place hto
  rw [hprepare] at hway
  obtain ⟨last, events'', hagain, hunchanged⟩ :=
    hcompletes.write_again hvalid hfits hfits' hway
  have hrun := run_eq_of_inputsOf hsame hrender hagain
  rw [hrun, hprinted]
  exact ⟨rfl, rfl, hunchanged⟩

/-! ## A header that is a link -/

/-- In the directory `out` the header is a link to a directory beside it. -/
def aside : FileSystem :=
  .ofRoot (.directory [("Kconfig", .file ⟨#[]⟩),
    ("out", .directory [("sub", .directory []), (".config.h", .link ⟨"sub"⟩)])])

/-- A run of the description that writes to `directory`. -/
def runTo (directory : Path) : CommandLine := ⟨⟨"Kconfig"⟩, none, directory, none, false, false⟩

theorem hasEmptyDescription_aside : HasEmptyDescription aside := ⟨⟨_, rfl, rfl⟩, rfl, rfl⟩

/-- An empty description is all that is read. -/
theorem eq_of_reads (h : HasEmptyDescription files) {directory path : Path}
    (hpath : Reads files (runTo directory) path) : path = ⟨"Kconfig"⟩ := by
  rcases hpath with ⟨⟨⟩⟩ | ⟨⟨⟩⟩ | hpath
  induction hpath with
  | itself => rfl
  | inclusion _ htext hmem _ ih =>
      have hnumbered : Description.numbered "" = [] := by cbv
      rw [ih, h.readText] at htext
      cases htext
      rw [hnumbered] at hmem
      cases hmem

section Aside

variable {directory : Path} (hleads : aside.LeadsTo directory ["out"])
  (hfits : Fits directory (Settings.makefileName {}))
include hleads hfits

theorem writesTo_aside_iff {place : Location} :
    WritesTo aside directory {} place ↔ place = ["out"] :=
  writesTo_iff_of_leadsTo (plainName_of_isFileName rfl) hfits.temporaryPath hleads

theorem clear_aside : Clear aside (runTo directory) := by
  have hbare : HasEmptyDescription (withoutTargets aside {} ["out"]) :=
    ⟨⟨_, rfl, rfl⟩, rfl, rfl⟩
  constructor
  · intro place hto name hname
    obtain rfl := (writesTo_aside_iff hleads hfits).mp hto
    rcases List.mem_pair.mp hname with rfl | rfl
    · rfl
    · rfl
  · intro place hto path hpath
    obtain rfl := (writesTo_aside_iff hleads hfits).mp hto
    rw [eq_of_reads hasEmptyDescription_aside hpath]
    exact ⟨_, hbare.canonical⟩

/-- The run works, and the header is a file then. -/
theorem run_aside (hfits' : Fits directory (Settings.headerName {})) :
    (run aside (runTo directory)).result =
        .ok [(targets directory {}).1, (targets directory {}).2] ∧
      (run aside (runTo directory)).files.get? ["out", ".config.h"] =
        some (.file (headerOf ⟨#[]⟩ {}).toUTF8) ∧
      (run aside (runTo directory)).files.workingDirectory = [] := by
  have hrender : Fragments.render ⟨#[]⟩ {} = .ok ⟨makefileOf ⟨#[]⟩ {}, headerOf ⟨#[]⟩ {}⟩ := rfl
  have hfree : ∀ name ∈ [".config.mk", temporaryName ".config.mk", temporaryName ".config.h"],
      FileTree.Overwritable (aside.get? (["out"] ++ [name])) := by
    simp only [List.forall_mem_cons]
    exact ⟨FileTree.overwritable_of_eq_none rfl, FileTree.overwritable_of_eq_none rfl,
      FileTree.overwritable_of_eq_none rfl, by simp⟩
  obtain ⟨events, hinputs⟩ : ∃ events, inputsOf aside (runTo directory) =
      (events, .ok ⟨{}, .empty, ⟨#[]⟩⟩) :=
    hasEmptyDescription_aside.exists_inputsOf rfl rfl rfl
  obtain ⟨after, events', hwrite⟩ : ∃ after events',
      (⟨makefileOf ⟨#[]⟩ {}, headerOf ⟨#[]⟩ {}⟩ : Fragments).write aside directory {} =
        ⟨after, events', .ok [(targets directory {}).1, (targets directory {}).2]⟩ :=
    exists_write_eq rfl hfits hfits' hleads hfree (by rintro _ ⟨⟩) fills_ofRoot fills_ofRoot
  have hrun := run_eq_of_inputsOf hinputs hrender hwrite
  have hunlinked : ∀ place, WritesTo aside directory {} place →
      Unlinked aside place ".config.mk" ∧ Unlinked aside place ".config.h" := by
    intro place hto
    obtain rfl := (writesTo_aside_iff hleads hfits).mp hto
    exact ⟨unlinked_of_eq_none rfl, unlinked_of_eq_none rfl⟩
  obtain ⟨-, -, -, prepared, place, hprepare, hto, hcompletes⟩ :=
    exists_completes rfl hunlinked hwrite
  obtain rfl := (writesTo_aside_iff hleads hfits).mp hto
  have hhere := (prepareDirectory_makes hprepare).workingDirectory
  rw [hrun]
  refine ⟨rfl, (hcompletes.entry ".config.h").trans ?_,
    hcompletes.within.workingDirectory.trans hhere⟩
  rfl

end Aside

theorem run_again_aside :
    (run aside (runTo ⟨"out"⟩)).result = .ok [⟨"out/.config.mk"⟩, ⟨"out/.config.h"⟩] ∧
      Clear aside (runTo ⟨"out"⟩) ∧ WayClear aside (runTo ⟨"out"⟩) ∧
      (run (run aside (runTo ⟨"out"⟩)).files (runTo ⟨"out"⟩)).result =
        .ok [⟨"out/.config.mk"⟩, ⟨"out/.config.h"⟩] := by
  have hfits : Fits ⟨"out"⟩ (Settings.makefileName {}) := fits_out List.mem_cons_self
  have hfits' : Fits ⟨"out"⟩ (Settings.headerName {}) := fits_out (by simp)
  have hleads : aside.LeadsTo ⟨"out"⟩ ["out"] := leadsTo_out ⟨_, rfl, rfl⟩ ⟨_, rfl, rfl⟩ rfl
  have hruns := (run_aside hleads hfits hfits').1
  have hclear := clear_aside hleads hfits
  have hway : WayClear aside (runTo ⟨"out"⟩) := by
    intro place hto
    obtain rfl := (writesTo_aside_iff hleads hfits).mp hto
    have hprepare : prepareDirectory aside (targets ⟨"out"⟩ {}).1 = (aside, .ok ()) :=
      prepareDirectory_of_leadsTo (plainName_of_isFileName rfl) hfits.temporaryPath hleads
    have hsettings : outputSettings aside (runTo ⟨"out"⟩) = {} := rfl
    have hdirectory : (runTo ⟨"out"⟩).outDirectory = ⟨"out"⟩ := rfl
    rw [hsettings, hdirectory, hprepare]
    exact leadsTo_out ⟨_, rfl, rfl⟩ ⟨_, rfl, rfl⟩ rfl
  exact ⟨hruns, hclear, hway, (run_again aside _ _ hruns hclear hway).1⟩

/-- The directory of the outputs, by a way through the header. -/
def throughHeader : Path := ⟨"out/.config.h/.."⟩

theorem steps_throughHeader : throughHeader.steps = ["out", ".config.h", ".."] := by decide

theorem not_leadsTo_throughHeader {content : ByteArray} {place : Location}
    (hhere : files.workingDirectory = [])
    (hfile : files.get? ["out", ".config.h"] = some (.file content)) :
    ¬ files.LeadsTo throughHeader place := by
  rintro ⟨-, linksLeft, hwalk⟩
  have hstart : throughHeader.startFrom files.workingDirectory = [] := hhere
  rw [steps_throughHeader, hstart] at hwalk
  have hout : files.HasDirectory ["out"] :=
    hasDirectory_of_append (List.cons_ne_nil ".config.h" []) hfile
  obtain ⟨tree, htree, hdirectory⟩ := hout
  have hinside : files.Walks Path.maxLinks ["out"] [".config.h", ".."] ⟨place, linksLeft⟩ :=
    hwalk.of_entry rfl htree (by rintro target rfl; cases hdirectory)
  have hon : files.Walks Path.maxLinks ["out", ".config.h"] [".."] ⟨place, linksLeft⟩ :=
    hinside.of_entry rfl hfile (by rintro target ⟨⟩)
  obtain ⟨found, hfound, hdirectory⟩ := hon.hasDirectory_of_cons
  cases hfile.symm.trans hfound
  cases hdirectory

/-- A run replaces the link that it went through, and then there is no way for the next. -/
theorem run_not_again_throughHeader :
    (run aside (runTo throughHeader)).result =
        .ok [⟨"out/.config.h/../.config.mk"⟩, ⟨"out/.config.h/../.config.h"⟩] ∧
      Clear aside (runTo throughHeader) ∧
      ∃ error, (run (run aside (runTo throughHeader)).files (runTo throughHeader)).result =
        .error error := by
  have hfits : Fits throughHeader (Settings.makefileName {}) := ⟨rfl, rfl, by decide, by decide⟩
  have hfits' : Fits throughHeader (Settings.headerName {}) := ⟨rfl, rfl, by decide, by decide⟩
  have hwalk : aside.walk Path.maxLinks [] ["out", ".config.h", ".."] =
      .ok ⟨["out"], Path.maxLinks - 1⟩ := by cbv
  have hstart : throughHeader.startFrom aside.workingDirectory = [] := rfl
  have hleads : aside.LeadsTo throughHeader ["out"] := by
    refine ⟨⟨_, rfl, rfl⟩, Path.maxLinks - 1, ?_⟩
    rw [steps_throughHeader, hstart]
    exact walks_of_walk hwalk
  obtain ⟨hruns, hfile, hhere⟩ := run_aside hleads hfits hfits'
  refine ⟨hruns, clear_aside hleads hfits, ?_⟩
  cases hagain : (run (run aside (runTo throughHeader)).files (runTo throughHeader)).result with
  | error error => exact ⟨error, rfl⟩
  | ok written =>
      obtain ⟨-, inputs, fragments, -, -, hvalid, -, -, events', hwrite⟩ :=
        exists_inputsOf_of_run hagain
      obtain ⟨-, -, -, prepared, _, _, _, place, _, _, _, hprepare, hcourse⟩ :=
        write_eq_ok hvalid hwrite
      have hmakes := prepareDirectory_makes hprepare
      have hkept := trunk?_eq_file_iff.mp (hmakes.kept (trunk?_eq_file_iff.mpr hfile))
      exact absurd hcourse.stageMakefile.leadsTo
        (not_leadsTo_throughHeader (hmakes.workingDirectory.trans hhere) hkept)

end Generation

end FeatureFlags
