import FeatureFlags.Proofs.Replacing

/-!
# Making the directory of a file

The directory that a file is to be written to is made if it is missing, with its missing parents.
Unless the path goes up through `..`, what is made is new: either the path led to a directory
before, and nothing is made, or nothing is in the directory that it leads to then
(`makeDirectories_cases`). So no file of any name appears in it or goes.
-/

namespace FeatureFlags

namespace FileSystem

variable {files after : FileSystem} {base path : Path} {name : String} {place : Location}

/-! ## What a path names -/

/-- What the entry that a path stands for holds, without following a link there. -/
def held? (files : FileSystem) (path : Path) : Option FileTree :=
  match files.entry path with
  | .ok entry => files.get? entry.place
  | .error _ => none

theorem held?_join_eq_some_iff (hname : PlainName name) {tree : FileTree} :
    files.held? (base.join ⟨name⟩) = some tree ↔
      (base.join ⟨name⟩).checkLength = .ok () ∧
        ∃ place, files.LeadsTo base place ∧ files.get? (place ++ [name]) = some tree := by
  unfold held?
  split
  · next entry hentry =>
      obtain ⟨hlength, place, hleads, rfl⟩ := (entry_join_eq_ok_iff hname).mp hentry
      constructor
      · exact fun htree => ⟨hlength, place, hleads, htree⟩
      · rintro ⟨-, other, hother, htree⟩
        rwa [hother.unique hleads] at htree
  · next fault hentry =>
      constructor
      · rintro ⟨⟩
      · rintro ⟨hlength, place, hleads, -⟩
        cases hentry.symm.trans
          ((entry_join_eq_ok_iff hname).mpr ⟨hlength, place, hleads, rfl⟩)

theorem held?_join_eq_none (hname : PlainName name)
    (h : ∀ place, files.LeadsTo base place → files.get? (place ++ [name]) = none) :
    files.held? (base.join ⟨name⟩) = none := by
  rw [Option.eq_none_iff_forall_not_mem]
  intro tree htree
  obtain ⟨-, place, hleads, htree⟩ := (held?_join_eq_some_iff hname).mp htree
  cases (h place hleads).symm.trans htree

/-! ## Making one directory -/

/-- The path leads to a directory with nothing in it. -/
def LeadsToEmpty (files : FileSystem) (path : Path) : Prop :=
  ∃ place, files.LeadsTo path place ∧ ∀ name, files.get? (place ++ [name]) = none

/-- What is made is a new entry, and the path leads to it. -/
theorem exists_put_of_makeDirectory (h : files.makeDirectory path = .ok after) :
    ∃ above last, files.HasDirectory above ∧ files.get? (above ++ [last]) = none ∧
      after = files.put (above ++ [last]) (.directory []) ∧ path.checkLength = .ok () ∧
      after.LeadsTo path (above ++ [last]) := by
  obtain ⟨⟨above, last, asDirectory⟩, hentry, h⟩ := bind_eq_ok_iff.mp h
  split at h
  · cases h
  · next hproper =>
      obtain ⟨found, hlookup, h⟩ := bind_eq_ok_iff.mp h
      obtain ⟨hshort, hnone⟩ := lookup_eq_ok_iff.mp hlookup
      split at h
      · cases h
      · obtain ⟨hlength, -, hname, habove, names, linksLeft, hsteps, hwalk⟩ :=
          exists_walks_of_entry hentry (by simpa using hproper)
        simp only [DirectoryEntry.place] at h hnone habove hwalk hname hsteps hshort
        have hwritable : files.Writable (above ++ [last]) := by
          refine ⟨⟨above, last, rfl, habove⟩, ?_⟩
          rw [hnone]
          exact FileTree.leadsNowhere_none
        have hkeeps := hwritable.keeps (.directory [])
        have hput : (files.put (above ++ [last]) (.directory [])).get? (above ++ [last]) =
            some (.directory []) := by
          rw [get?_put_entry habove, if_pos rfl]
        cases h
        have hdirectory : (files.put (above ++ [last]) (.directory [])).HasDirectory
            (above ++ [last]) := ⟨_, hput, rfl⟩
        have hend : (files.put (above ++ [last]) (.directory [])).Walks linksLeft
            (above ++ [last]) [] ⟨above ++ [last], linksLeft⟩ := .done hdirectory.isSome
        have hlast := Walks.down (hkeeps.hasDirectory habove) hname hshort hput
          (by rintro target ⟨⟩) hend
        refine ⟨above, last, habove, hnone, rfl, hlength, hdirectory, linksLeft, ?_⟩
        rw [hsteps]
        exact (hkeeps.walks hwalk habove).append hlast

theorem makeDirectory_eq_ok (h : files.makeDirectory path = .ok after) :
    files.Keeps after ∧ path.checkLength = .ok () ∧ after.LeadsToEmpty path := by
  obtain ⟨above, last, habove, hnone, rfl, hlength, hleads⟩ := exists_put_of_makeDirectory h
  have hwritable : files.Writable (above ++ [last]) := by
    refine ⟨⟨above, last, rfl, habove⟩, ?_⟩
    rw [hnone]
    exact FileTree.leadsNowhere_none
  refine ⟨hwritable.keeps (.directory []), hlength, above ++ [last], hleads, ?_⟩
  intro name
  rw [get?_append, get?_put_entry habove, if_pos rfl]
  rfl

/-- A directory that cannot be made for lack of a parent has a path that can be used. -/
theorem checkLength_of_makeDirectory (htext : path.text ≠ "")
    (h : files.makeDirectory path = .error .notFound) : path.checkLength = .ok () := by
  cases hlength : path.checkLength with
  | ok => rfl
  | error fault =>
      have hfault : files.makeDirectory path = .error fault := by
        unfold makeDirectory FileSystem.entry
        rw [hlength]
        rfl
      cases hfault.symm.trans h
      unfold Path.checkLength at hlength
      split at hlength
      · cases hlength
      · split at hlength
        · cases hlength
        · cases hlength

/-- Unless a path goes up, what it leads to is where its parent leads, or an entry there. -/
theorem LeadsTo.exists_parent (h : files.LeadsTo path place) {parent : Path}
    (hparent : path.parent? = some parent) (hup : ".." ∉ path.steps) :
    ∃ above, files.LeadsTo parent above ∧
      (place = above ∨ ∃ name tree, files.get? (above ++ [name]) = some tree) := by
  obtain ⟨habsolute, before, last, fillers, hsteps, hbefore, hfillers⟩ :=
    Path.exists_steps_eq_parent hparent
  obtain ⟨hdirectory, linksLeft, hwalk⟩ := h
  rw [hsteps, List.append_assoc] at hwalk
  obtain ⟨above, habove, hrest⟩ := hwalk.exists_of_append
  obtain ⟨middle, hmiddle, hlast⟩ := hrest.exists_of_append
  obtain rfl := hmiddle.eq_of_fillers hbefore
  have hstart : parent.startFrom files.workingDirectory =
      path.startFrom files.workingDirectory := by
    rw [Path.startFrom, Path.startFrom, habsolute]
  refine ⟨above.place, ⟨hlast.hasDirectory_of_cons, above.linksLeft, hstart ▸ habove⟩, ?_⟩
  have hnotUp : last ≠ ".." := by
    rintro rfl
    apply hup
    rw [hsteps]
    simp
  by_cases hdot : last = "."
  · left
    exact congrArg Arrival.place
      (hlast.eq_of_fillers (List.forall_mem_cons.mpr ⟨hdot, hfillers⟩))
  · right
    obtain ⟨tree, htree⟩ := hlast.exists_entry (by simp [Path.isEntryName, hdot, hnotUp])
    exact ⟨last, tree, htree⟩

theorem LeadsToEmpty.of_parent {parent : Path} (hempty : files.LeadsToEmpty parent)
    (hparent : path.parent? = some parent) (hup : ".." ∉ path.steps)
    (h : files.LeadsTo path place) : files.LeadsToEmpty path := by
  obtain ⟨found, hfound, hnone⟩ := hempty
  obtain ⟨above, habove, rfl | ⟨name, tree, htree⟩⟩ := h.exists_parent hparent hup
  · obtain rfl := hfound.unique habove
    exact ⟨_, h, hnone⟩
  · obtain rfl := hfound.unique habove
    cases (hnone name).symm.trans htree

/-! ## Making a directory with its parents -/

/-- What making the directory of a path, with its parents, may have done. -/
structure Prepares (files : FileSystem) (path : Path) (after : FileSystem)
    (result : Except FileFault Unit) : Prop where
  keeps : files.Keeps after
  ok : result = .ok () → after = files ∨ path.checkLength = .ok () ∧ after.LeadsToEmpty path
  error : ∀ fault, result = .error fault → after = files ∨ ∀ place, ¬ after.LeadsTo path place

theorem prepares_refl (files : FileSystem) (path : Path) (result : Except FileFault Unit) :
    Prepares files path files result :=
  ⟨.refl files, fun _ => .inl rfl, fun _ _ => .inl rfl⟩

theorem prepares_of_makeDirectory (h : files.makeDirectory path = .ok after) :
    Prepares files path after (.ok ()) := by
  obtain ⟨hkeeps, hlength, hempty⟩ := makeDirectory_eq_ok h
  exact ⟨hkeeps, fun _ => .inr ⟨hlength, hempty⟩, by rintro _ ⟨⟩⟩

/-- Where the parent could not be made, the path leads nowhere. -/
theorem Prepares.of_parent_error {parent : Path} {fault : FileFault}
    (h : Prepares files parent after (.error fault)) (hparent : path.parent? = some parent)
    (hup : ".." ∉ path.steps) : Prepares files path after (.error fault) := by
  refine ⟨h.keeps, by rintro ⟨⟩, ?_⟩
  rintro _ -
  refine (h.error fault rfl).imp_right fun hnowhere place hleads => ?_
  obtain ⟨above, habove, -⟩ := hleads.exists_parent hparent hup
  exact hnowhere above habove

/-- Once the parent was made, the path is tried a second time. -/
theorem Prepares.of_parent_ok {parent : Path} {middle : FileSystem} {result : Except FileFault Unit}
    (h : Prepares files parent middle (.ok ())) (hparent : path.parent? = some parent)
    (hup : ".." ∉ path.steps) (hlength : path.checkLength = .ok ())
    (hagain : (match middle.makeDirectory path with
      | .ok files => (files, .ok ())
      | .error fault => (middle, if middle.isDirectory path then .ok () else .error fault)) =
        (after, result)) : Prepares files path after result := by
  split at hagain
  · next made hmake =>
      cases hagain
      obtain ⟨hkeeps, -, hempty⟩ := makeDirectory_eq_ok hmake
      exact ⟨h.keeps.trans hkeeps, fun _ => .inr ⟨hlength, hempty⟩, by rintro _ ⟨⟩⟩
  · next fault hmake =>
      cases hagain
      rcases h.ok rfl with rfl | ⟨-, hempty⟩
      · exact prepares_refl _ path _
      · refine ⟨h.keeps, ?_, ?_⟩
        · intro hresult
          split at hresult
          · next hdirectory =>
              obtain ⟨-, place, hleads⟩ := isDirectory_iff.mp hdirectory
              exact .inr ⟨hlength, hempty.of_parent hparent hup hleads⟩
          · cases hresult
        · intro fault' hresult
          right
          intro place hleads
          rw [if_pos (isDirectory_iff.mpr ⟨hlength, place, hleads⟩)] at hresult
          cases hresult

theorem makeFirst_prepares (count : Nat) {result : Except FileFault Unit}
    (hup : ".." ∉ path.steps)
    (h : files.makeFirst (path.firstAncestors count) = (after, result)) :
    Prepares files path after result := by
  induction count generalizing files after path result with
  | zero =>
      cases h
      exact prepares_refl files path _
  | succ count ih =>
      unfold Path.firstAncestors at h
      unfold makeFirst at h
      split at h
      · cases h
        exact prepares_refl files path _
      · next htext =>
          split at h
          · next made hmake =>
              cases h
              exact prepares_of_makeDirectory hmake
          · next hmissing =>
              cases hparent : path.parent? with
              | none =>
                  simp only [hparent, makeFirst] at h
                  cases h
                  exact prepares_refl files path _
              | some parent =>
                  cases hrest : files.makeFirst (parent.firstAncestors count) with
                  | mk middle outcome =>
                      simp only [hparent, hrest] at h
                      have hmiddle := ih (Path.notMem_steps_of_parent? hparent hup) hrest
                      cases outcome with
                      | error fault =>
                          cases h
                          exact hmiddle.of_parent_error hparent hup
                      | ok =>
                          exact hmiddle.of_parent_ok hparent hup
                            (checkLength_of_makeDirectory htext hmissing) h
          · cases h
            exact prepares_refl files path _

theorem makeDirectories_of_checkLength {fault : FileFault} (htext : path.text ≠ "")
    (h : path.checkLength = .error fault) : (files.makeDirectories path).1 = files := by
  have hmake : files.makeDirectory path = .error fault := by
    unfold makeDirectory FileSystem.entry
    rw [h]
    rfl
  have hfault : fault ≠ .notFound := by
    rintro rfl
    cases h.symm.trans (checkLength_of_makeDirectory htext hmake)
  unfold makeDirectories Path.ancestors Path.firstAncestors makeFirst
  rw [if_neg htext, hmake]
  split
  · next heq => cases heq
  · next heq => cases heq; exact absurd rfl hfault
  · rfl

end FileSystem

namespace Staged

open FileSystem

variable {files prepared : FileSystem} {base : Path} {name : String}

/--
`prepared` is `files`, or `base` led nowhere there. Then it leads to a new directory at most.
-/
structure Prepared (files : FileSystem) (base : Path) (prepared : FileSystem) : Prop where
  keeps : files.Keeps prepared
  cases : prepared = files ∨ (∀ place, ¬ files.LeadsTo base place) ∧
    ∀ place, prepared.LeadsTo base place → ∀ name, prepared.get? (place ++ [name]) = none

theorem prepareDirectory_join_prepared (hname : PlainName name)
    (hway : (∃ place, files.LeadsTo base place) ∨ ".." ∉ base.steps) {result : Except Error Unit}
    (h : prepareDirectory files (base.join ⟨name⟩) = (prepared, result)) :
    Prepared files base prepared := by
  have hsame : prepared = files → Prepared files base prepared := by
    rintro rfl
    exact ⟨.refl _, .inl rfl⟩
  unfold prepareDirectory at h
  rw [base.parent?_join hname] at h
  simp only at h
  split at h
  · cases h
    exact hsame rfl
  · next hmissing =>
      simp only [Bool.or_eq_true, decide_eq_true_eq, not_or] at hmissing
      obtain ⟨htext, hmissing⟩ := hmissing
      obtain ⟨outcome, hmake⟩ : ∃ outcome,
          files.makeDirectories base.trim = (prepared, outcome) := by
        split at h
        · next hmake =>
            cases h
            exact ⟨_, hmake⟩
        · next hmake =>
            cases h
            exact ⟨_, hmake⟩
      cases hlength : base.trim.checkLength with
      | error fault =>
          apply hsame
          have hsame : (files.makeDirectories base.trim).1 = files :=
            makeDirectories_of_checkLength htext hlength
          rwa [hmake] at hsame
      | ok =>
          have hnowhere : ∀ place, ¬ files.LeadsTo base place := by
            intro place hleads
            exact hmissing (pathExists_of_leadsTo hlength (leadsTo_trim_iff.mpr hleads))
          have hup : ".." ∉ base.trim.steps := by
            obtain ⟨fillers, -, hsteps⟩ := base.exists_steps_eq_trim
            have hup := hway.resolve_left fun ⟨place, hleads⟩ => hnowhere place hleads
            rw [hsteps, List.mem_append, not_or] at hup
            exact hup.1
          obtain ⟨hkeeps, hok, herror⟩ := makeFirst_prepares _ hup hmake
          cases outcome with
          | ok =>
              rcases hok rfl with rfl | ⟨-, found, hfound, hnone⟩
              · exact hsame rfl
              · refine ⟨hkeeps, .inr ⟨hnowhere, ?_⟩⟩
                intro place hleads
                obtain rfl := (leadsTo_trim_iff.mp hfound).unique hleads
                exact hnone
          | error fault =>
              rcases herror fault rfl with rfl | hlost
              · exact hsame rfl
              · refine ⟨hkeeps, .inr ⟨hnowhere, ?_⟩⟩
                intro place hleads
                exact absurd (leadsTo_trim_iff.mpr hleads) (hlost place)

namespace Prepared

variable (h : Prepared files base prepared)
include h

/-- No entry of the directory is another one than before. -/
theorem held?_join (hname : PlainName name) :
    prepared.held? (base.join ⟨name⟩) = files.held? (base.join ⟨name⟩) := by
  rcases h.cases with rfl | ⟨hnowhere, hnone⟩
  · rfl
  · rw [held?_join_eq_none hname fun place hleads => hnone place hleads name,
      held?_join_eq_none hname fun place hleads => absurd hleads (hnowhere place)]

theorem eq_of_leadsTo {place : Location} (hleads : files.LeadsTo base place) : prepared = files :=
  h.cases.resolve_right fun hcase => hcase.1 place hleads

theorem trim : Prepared files base.trim prepared := by
  obtain ⟨hkeeps, hcases⟩ := h
  refine ⟨hkeeps, ?_⟩
  simpa only [leadsTo_trim_iff] using hcases

end Prepared

end Staged

end FeatureFlags
