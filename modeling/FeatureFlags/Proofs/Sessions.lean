import Mathlib
import FeatureFlags.Proofs.Batches
import FeatureFlags.Proofs.Headings

/-!
# Sessions

A caller stages, commits, discards and replaces files in any order, with any number of handles in
hand. Each call turns the entries of one target, and makes directories on the way to it, and that is
all (`Turns`). So by induction on the calls every target holds what was last committed for it, and
its temporary file is there exactly as long as a handle for it is (`holds_last_committed`).
-/

namespace FeatureFlags

open FileSystem FileTree

namespace Staged

/-! ## Calls -/

/-- A staged file in the hands of a caller, with what was staged. -/
structure Handle where
  staged : Staged
  content : ByteArray

/-- What a caller may do. A handle goes by its number, and committing or discarding uses it up. -/
inductive Call where
  | stage (target : Path) (content : ByteArray)
  | commit (number : Nat)
  | discard (number : Nat)
  | replace (target : Path) (content : ByteArray)

/--
The files, the handles in the order of staging, those that are used up left blank, and all that was
committed, the last of it first.
-/
structure Session where
  files : FileSystem
  handles : List (Option Handle)
  committed : List (Path × ByteArray)

/-- A path to write to, with the directory that it heads to and the name it has there. -/
structure Target where
  path : Path
  directory : Location
  name : String
deriving DecidableEq

namespace Session

def handle? (session : Session) (number : Nat) : Option Handle := session.handles[number]?.join

/-- A handle for `target` is not used up yet. -/
def Outstanding (session : Session) (target : Path) : Prop :=
  ∃ number handle, session.handle? number = some handle ∧ handle.staged.target = target

/-- The session with a new handle. -/
def opened (session : Session) (files : FileSystem) (handle : Handle) : Session :=
  ⟨files, session.handles ++ [some handle], session.committed⟩

/-- The session with a handle used up. -/
def closed (session : Session) (files : FileSystem) (number : Nat)
    (committed : List (Path × ByteArray)) : Session :=
  ⟨files, session.handles.set number none, committed⟩

def step (session : Session) : Call → Session
  | .stage target content =>
    match Staged.stage session.files target content with
    | (files, .ok staged) => session.opened files ⟨staged, content⟩
    | (files, .error _) => { session with files }
  | .commit number =>
    match session.handle? number with
    | none => session
    | some handle =>
      match Staged.commit session.files handle.staged with
      | (files, .ok target) =>
        session.closed files number ((target, handle.content) :: session.committed)
      | (files, .error _) => session.closed files number session.committed
  | .discard number =>
    match session.handle? number with
    | none => session
    | some handle =>
      session.closed (Staged.discard session.files handle.staged) number session.committed
  | .replace target content =>
    match Staged.replace session.files target content with
    | (files, .ok ()) => ⟨files, session.handles, (target, content) :: session.committed⟩
    | (files, .error _) => { session with files }

/-- Staging needs a target that has no handle yet, and replacing stages too. -/
def Allows (session : Session) (targets : List Target) : Call → Prop
  | .stage target _ => (∃ t ∈ targets, t.path = target) ∧ ¬ session.Outstanding target
  | .commit _ => True
  | .discard _ => True
  | .replace target _ => (∃ t ∈ targets, t.path = target) ∧ ¬ session.Outstanding target

/-- The sessions that allowed calls lead to, from `files` on. -/
inductive Reached (files : FileSystem) (targets : List Target) : Session → Prop where
  | start : Reached files targets ⟨files, [], []⟩
  | step {session : Session} (hreached : Reached files targets session) {call : Call}
      (hallows : session.Allows targets call) : Reached files targets (session.step call)

end Session

namespace Target

def spot (target : Target) : Location := target.directory ++ [target.name]

def temporarySpot (target : Target) : Location := target.directory ++ [temporaryName target.name]

/-- The target as one of a batch, with the handle for it. -/
def replacing (target : Target) (handle : Handle) : Replacement :=
  ⟨handle.staged, handle.content, target.directory, target.name⟩

end Target

/-- What was last committed for the target, or what was there at the start. -/
def Session.holds (session : Session) (start : FileSystem) (target : Target) : Option FileTree :=
  match session.committed.lookup target.path with
  | some content => some (.file content)
  | none => start.get? target.spot

/-- The targets are different entries, none of them in the way of another. -/
structure Distinct (start : FileSystem) (targets : List Target) : Prop where
  named : ∀ t ∈ targets, t.path.fileName? = some t.name ∧
    ∃ parent, t.path.parent? = some parent ∧ start.HeadsTo parent t.directory
  spots : ∀ t ∈ targets, ∀ u ∈ targets, t ≠ u → t.spot ≠ u.spot
  temporary : ∀ t ∈ targets, ∀ u ∈ targets, t.spot ≠ u.temporarySpot
  link : ∀ t ∈ targets, ∀ target, start.get? t.spot ≠ some (.link target)
  above : ∀ t ∈ targets, ∀ u ∈ targets,
    ¬ t.spot <+: u.directory ∧ ¬ t.temporarySpot <+: u.directory
  free : ∀ t ∈ targets, start.get? t.temporarySpot = none

/-- No directory that is missing on the way to a target is a target itself, or in one. -/
def Passable (start : FileSystem) (targets : List Target) : Prop :=
  ∀ t ∈ targets, ∀ u ∈ targets, ∀ ancestor ∈ u.path.above, ∀ place,
    start.HeadsTo ancestor place → start.trunk? place = none →
      ¬ t.spot <+: place ∧ ¬ t.temporarySpot <+: place

/-! ## Changes of one target -/

variable {start files middle after : FileSystem} {targets : List Target} {t u : Target}
  {handle : Handle}

/-- Paths lead where they head to at the start, and nothing has vanished since then. -/
structure Sound (start files : FileSystem) : Prop where
  guides : start.Guides files
  present : ∀ {place : Location}, files.trunk? place = none → start.trunk? place = none

theorem Sound.refl (start : FileSystem) : Sound start start := ⟨.refl start, id⟩

theorem Fresh.of_keeps {r : Replacement} (h : Fresh files r) (hkeeps : files.Keeps after)
    (htemporary : after.get? r.temporarySpot = files.get? r.temporarySpot) : Fresh after r := by
  obtain ⟨parent, hparent, hleads⟩ := h.directory
  refine ⟨h.staged, h.name, ⟨parent, hparent, hkeeps.leadsTo hleads⟩, ?_⟩
  rw [htemporary]
  exact h.temporary

/-- A place is apart from an entry, the entry itself, on the way to it, or below it. -/
theorem location_cases (directory : Location) (name : String) (place : Location) :
    Apart (directory ++ [name]) place ∨ place = directory ++ [name] ∨ place <+: directory ∨
      ∃ below, below ≠ [] ∧ place = directory ++ [name] ++ below := by
  by_cases hbelow : directory ++ [name] <+: place
  · obtain ⟨below, rfl⟩ := hbelow
    by_cases hempty : below = []
    · rw [hempty, List.append_nil]
      exact .inr (.inl rfl)
    · exact .inr (.inr (.inr ⟨below, hempty, rfl⟩))
  · by_cases habove : place <+: directory ++ [name]
    · rcases List.prefix_concat_iff.mp habove with hsame | habove
      · exact .inr (.inl hsame)
      · exact .inr (.inr (.inl habove))
    · exact .inl ⟨hbelow, habove⟩

theorem hasDirectory_of_prefix {place directory : Location} (h : place <+: directory)
    (hdirectory : files.HasDirectory directory) : files.HasDirectory place := by
  obtain ⟨below, rfl⟩ := h
  by_cases hbelow : below = []
  · rwa [hbelow, List.append_nil] at hdirectory
  · obtain ⟨tree, htree, -⟩ := hdirectory
    exact hasDirectory_of_append hbelow htree

theorem trunk?_eq_of_directory (hkeeps : files.Keeps after) {place directory : Location}
    (h : place <+: directory) (hdirectory : files.HasDirectory directory) :
    after.trunk? place = files.trunk? place := by
  have hplace := hasDirectory_of_prefix h hdirectory
  rw [hasDirectory_iff.mp hplace, hasDirectory_iff.mp (hkeeps.hasDirectory hplace)]

theorem trunk?_eq_below (hkeeps : files.Keeps after) {place below : Location}
    (hplace : ¬ after.HasDirectory place) (hbelow : below ≠ []) :
    after.trunk? (place ++ below) = files.trunk? (place ++ below) := by
  have hbefore : ¬ files.HasDirectory place := fun h => hplace (hkeeps.hasDirectory h)
  rw [trunk?_below hplace hbelow, trunk?_below hbefore hbelow]

/-- Away from the two entries of the one file, a change shows nowhere. -/
theorem Changes.trunk?_cases {r : Replacement} (h : Changes files [r] after)
    (hdirectory : files.HasDirectory r.directory)
    (hspot : after.get? r.spot = files.get? r.spot ∨ ¬ after.HasDirectory r.spot)
    (htemporary : ¬ after.HasDirectory r.temporarySpot) (place : Location) :
    after.trunk? place = files.trunk? place ∨ place = r.spot ∨ place = r.temporarySpot := by
  rcases location_cases r.directory r.name place with
    hapart | hplace | habove | ⟨below, hbelow, rfl⟩
  · rcases location_cases r.directory (temporaryName r.name) place with
      hapart' | hplace | habove | ⟨below, hbelow, rfl⟩
    · left
      have hboth : ∀ r' ∈ [r], Apart r'.spot place ∧ Apart r'.temporarySpot place :=
        List.forall_mem_singleton.mpr ⟨hapart, hapart'⟩
      exact congrArg (Option.map trunk) (h.elsewhere hboth)
    · exact .inr (.inr hplace)
    · exact .inl (trunk?_eq_of_directory h.keeps habove hdirectory)
    · exact .inl (trunk?_eq_below h.keeps htemporary hbelow)
  · exact .inr (.inl hplace)
  · exact .inl (trunk?_eq_of_directory h.keeps habove hdirectory)
  · left
    rcases hspot with hsame | hspot
    · rw [trunk?_append, trunk?_append]
      exact congrArg (fun found => found.bind fun tree => (tree.get? below).map trunk) hsame
    · exact trunk?_eq_below h.keeps hspot hbelow

/-- What a change of one file leaves at its two entries. -/
structure Leaving (files : FileSystem) (r : Replacement) (after : FileSystem) : Prop where
  changes : Changes files [r] after
  directory : files.HasDirectory r.directory
  spot : after.get? r.spot = files.get? r.spot ∨ ∃ content, after.get? r.spot = some (.file content)
  temporary : ∀ tree, after.get? r.temporarySpot = some tree → tree.isFile = true

theorem Leaving.trunk?_cases {r : Replacement} (h : Leaving files r after) (place : Location) :
    after.trunk? place = files.trunk? place ∨
      (∃ content, after.trunk? place = some (.file content)) ∨ place = r.temporarySpot := by
  have hspot : after.get? r.spot = files.get? r.spot ∨ ¬ after.HasDirectory r.spot := by
    refine h.spot.imp_right ?_
    rintro ⟨content, hfile⟩ ⟨tree, htree, hdirectory⟩
    cases hfile.symm.trans htree
    cases hdirectory
  have htemporary : ¬ after.HasDirectory r.temporarySpot := by
    rintro ⟨tree, htree, hdirectory⟩
    have hfile := h.temporary tree htree
    cases tree with
    | directory children => cases hfile
    | _ => cases hdirectory
  rcases h.changes.trunk?_cases h.directory hspot htemporary place with hsame | rfl | htemp
  · exact .inl hsame
  · rcases h.spot with hsame | ⟨content, hfile⟩
    · exact .inl (congrArg (Option.map trunk) hsame)
    · exact .inr (.inl ⟨content, trunk?_eq_file_iff.mpr hfile⟩)
  · exact .inr (.inr htemp)

/-- Where there was no temporary file at the start, a change of one file is sound. -/
theorem Leaving.sound {r : Replacement} (h : Leaving files r after)
    (hfree : start.get? r.temporarySpot = none) (hsound : Sound start files) :
    Sound start after := by
  have hnone := trunk?_eq_none_iff.mpr hfree
  refine ⟨⟨?_, ?_, ?_⟩, ?_⟩
  · exact h.changes.keeps.workingDirectory.trans hsound.guides.workingDirectory
  · intro place target hlink
    rcases h.trunk?_cases place with hsame | ⟨content, hfile⟩ | rfl
    · exact hsound.guides.isLink (hsame.symm.trans hlink)
    · cases hfile.symm.trans hlink
    · cases h.temporary _ (trunk?_eq_link_iff.mp hlink)
  · intro place target hlink
    rcases h.trunk?_cases place with hsame | hfile | rfl
    · rw [hsame]
      exact hsound.guides.wasLink hlink
    · exact .inr hfile
    · cases hnone.symm.trans hlink
  · intro place hplace
    rcases h.trunk?_cases place with hsame | ⟨content, hfile⟩ | rfl
    · exact hsound.present (hsame.symm.trans hplace)
    · cases hfile.symm.trans hplace
    · exact hnone

/--
`after` is `files` with the two entries of `t` made `spot` and `temporary`, and with directories on
the way to it. The entries of the other targets are the same.
-/
structure Turns (start : FileSystem) (targets : List Target) (t : Target)
    (files after : FileSystem) (spot temporary : Option FileTree) : Prop where
  sound : Sound start after
  keeps : files.Keeps after
  others : ∀ u ∈ targets, u ≠ t →
    after.get? u.spot = files.get? u.spot ∧ after.get? u.temporarySpot = files.get? u.temporarySpot
  spot : after.get? t.spot = spot
  temporary : after.get? t.temporarySpot = temporary

theorem Turns.trans {spot temporary spot' temporary' : Option FileTree}
    (h : Turns start targets t files middle spot temporary)
    (h' : Turns start targets t middle after spot' temporary') :
    Turns start targets t files after spot' temporary' := by
  refine ⟨h'.sound, h.keeps.trans h'.keeps, ?_, h'.spot, h'.temporary⟩
  intro u hu hne
  obtain ⟨hspot, htemporary⟩ := h.others u hu hne
  obtain ⟨hspot', htemporary'⟩ := h'.others u hu hne
  exact ⟨hspot'.trans hspot, htemporary'.trans htemporary⟩

theorem Distinct.eq_of_path (h : Distinct start targets) (ht : t ∈ targets) (hu : u ∈ targets)
    (hpath : t.path = u.path) : t = u := by
  obtain ⟨hname, parent, hparent, hheads⟩ := h.named t ht
  obtain ⟨hname', parent', hparent', hheads'⟩ := h.named u hu
  obtain ⟨path, directory, name⟩ := t
  obtain ⟨path', directory', name'⟩ := u
  cases hpath
  cases hname.symm.trans hname'
  cases hparent.symm.trans hparent'
  cases hheads.unique hheads'
  rfl

/-- Targets that are different entries do not see each other's changes. -/
theorem Distinct.independent (h : Distinct start targets) (ht : t ∈ targets) (hu : u ∈ targets)
    (hne : t ≠ u) (handle handle' : Handle) :
    (t.replacing handle).Independent (u.replacing handle') := by
  obtain ⟨hspot, htemporary⟩ := h.above t ht u hu
  obtain ⟨hspot', htemporary'⟩ := h.above u hu t ht
  have hspots := h.spots t ht u hu hne
  have htemporaries : t.temporarySpot ≠ u.temporarySpot := by
    intro heq
    obtain ⟨hdirectory, hname⟩ := List.append_inj' heq rfl
    apply hspots
    unfold Target.spot
    rw [hdirectory, temporaryName_injective (List.singleton_inj.mp hname)]
  exact ⟨apart_of_ne hspots hspot hspot', apart_of_ne (h.temporary t ht u hu) hspot htemporary',
    apart_of_ne (h.temporary u hu t ht).symm htemporary hspot',
    apart_of_ne htemporaries htemporary htemporary'⟩

/-- Making directories on the way to a target changes no entry of any. -/
theorem turns_of_makes (hpassable : Passable start targets) (ht : t ∈ targets)
    (hsound : Sound start files) (hmakes : Makes files t.path.above after) :
    Turns start targets t files after (files.get? t.spot) (files.get? t.temporarySpot) := by
  have hguides := hmakes.guides hsound.guides
  have hentries : ∀ u ∈ targets, after.get? u.spot = files.get? u.spot ∧
      after.get? u.temporarySpot = files.get? u.temporarySpot := by
    intro u hu
    have hnew : ∀ ancestor ∈ t.path.above, ∀ new, after.LeadsTo ancestor new →
        files.trunk? new = none → ¬ u.spot <+: new ∧ ¬ u.temporarySpot <+: new :=
      fun ancestor hancestor new hleads hnone =>
        hpassable u hu t ht ancestor hancestor new (hguides.headsTo hleads) (hsound.present hnone)
    constructor
    · exact hmakes.untouched fun ancestor hancestor new hleads hnone =>
        (hnew ancestor hancestor new hleads hnone).1
    · exact hmakes.untouched fun ancestor hancestor new hleads hnone =>
        (hnew ancestor hancestor new hleads hnone).2
  refine ⟨⟨hguides, ?_⟩, hmakes.keeps, fun u hu _ => hentries u hu, (hentries t ht).1,
    (hentries t ht).2⟩
  intro place hnone
  apply hsound.present
  cases hfiles : files.trunk? place with
  | none => rfl
  | some tree => cases hnone.symm.trans (hmakes.kept hfiles)

section Calls

variable (hdistinct : Distinct start targets) (ht : t ∈ targets) (hsound : Sound start files)
include hdistinct ht hsound

theorem turns_of_leaving {spot temporary : Option FileTree}
    (hleaving : Leaving files (t.replacing handle) after) (hspot : after.get? t.spot = spot)
    (htemporary : after.get? t.temporarySpot = temporary) :
    Turns start targets t files after spot temporary := by
  refine ⟨hleaving.sound (hdistinct.free t ht) hsound, hleaving.changes.keeps, ?_, hspot,
    htemporary⟩
  intro u hu hne
  have hapart : ∀ r ∈ [t.replacing handle], r.Independent (u.replacing handle) :=
    List.forall_mem_singleton.mpr (hdistinct.independent ht hu hne.symm handle handle)
  exact ⟨hleaving.changes.get?_spot hapart, hleaving.changes.get?_temporarySpot hapart⟩

/-- The parent of a target leads where it headed to at the start. -/
theorem directory_eq {parent : Path} (hparent : t.path.parent? = some parent) {place : Location}
    (hleads : files.LeadsTo parent place) : place = t.directory := by
  obtain ⟨-, parent', hparent', hheads⟩ := hdistinct.named t ht
  cases hparent.symm.trans hparent'
  exact (hsound.guides.headsTo hleads).unique hheads

theorem turns_of_drops (hdirectory : files.HasDirectory t.directory)
    (hdrops : Drops files (t.replacing handle) after) :
    Turns start targets t files after (files.get? t.spot) none := by
  obtain ⟨hchanges, hspot, hnone⟩ := hdrops
  have hleaving : Leaving files (t.replacing handle) after := by
    refine ⟨hchanges, hdirectory, .inl hspot, ?_⟩
    intro tree htree
    cases hnone.symm.trans htree
  exact turns_of_leaving hdistinct ht hsound hleaving hspot hnone

section Handle

variable (hfresh : Fresh files (t.replacing handle))
include hfresh

theorem discard_turns :
    Turns start targets t files (discard files handle.staged) (files.get? t.spot) none := by
  obtain ⟨parent, -, hleads⟩ := hfresh.directory
  exact turns_of_drops hdistinct ht hsound hleads.1 hfresh.drops_discard

theorem commit_turns_of_error {error : Error}
    (hcommit : commit files handle.staged = (after, .error error)) :
    Turns start targets t files after (files.get? t.spot) none := by
  have hdiscard : after = discard files handle.staged := by
    unfold commit at hcommit
    split at hcommit
    · cases hcommit
    · cases hcommit
      rfl
  rw [hdiscard]
  exact discard_turns hdistinct ht hsound hfresh

theorem commit_turns_of_ok {path : Path}
    (hcommit : commit files handle.staged = (after, .ok path)) :
    path = handle.staged.target ∧
      Turns start targets t files after (some (.file handle.content)) none := by
  obtain ⟨parent, -, hleads⟩ := hfresh.directory
  have hnolink : ∀ target, files.get? (t.replacing handle).spot ≠ some (.link target) :=
    hsound.guides.ne_link (hdistinct.link t ht)
  rcases hfresh.commit_cases hnolink with
    ⟨other, hother, -, -, hchanges, hreplaced⟩ | ⟨error, herror⟩
  · cases hother.symm.trans hcommit
    have hleaving : Leaving files (t.replacing handle) after := by
      refine ⟨hchanges, hleads.1, .inr ⟨handle.content, hreplaced.spot⟩, ?_⟩
      intro tree htree
      cases hreplaced.temporary.symm.trans htree
    exact ⟨rfl, turns_of_leaving hdistinct ht hsound hleaving hreplaced.spot hreplaced.temporary⟩
  · cases herror.symm.trans hcommit

end Handle

variable (hpassable : Passable start targets) (hfree : files.get? t.temporarySpot = none)
  {content : ByteArray}
include hpassable hfree

theorem stage_turns_of_ok {staged : Staged}
    (hstage : stage files t.path content = (after, .ok staged)) :
    staged.target = t.path ∧ Fresh after (t.replacing ⟨staged, content⟩) ∧
      Turns start targets t files after (files.get? t.spot) (some (.file content)) := by
  obtain ⟨prepared, parent, place, name, hprepare, htarget, hparent, hname, hleads, hstaged⟩ :=
    exists_fresh_of_stage hstage
  have hprepared := turns_of_makes hpassable ht hsound (prepareDirectory_makes hprepare)
  cases hname.symm.trans (hdistinct.named t ht).1
  obtain rfl := directory_eq hdistinct ht hprepared.sound hparent hleads
  have hnone : prepared.get? t.temporarySpot = none := hprepared.temporary.trans hfree
  obtain ⟨hfresh, hchanges, hspot, hfile⟩ := hstaged (unlinked_of_eq_none hnone)
  have hleaving : Leaving prepared (t.replacing ⟨staged, content⟩) after := by
    refine ⟨hchanges, hleads.1, .inl hspot, ?_⟩
    intro tree htree
    cases hfile.symm.trans htree
    rfl
  exact ⟨htarget, hfresh, hprepared.trans
    (turns_of_leaving hdistinct ht hprepared.sound hleaving (hspot.trans hprepared.spot) hfile)⟩

theorem stage_turns_of_error {error : Error}
    (hstage : stage files t.path content = (after, .error error)) :
    Turns start targets t files after (files.get? t.spot) none := by
  obtain ⟨hname, parent, hparent, -⟩ := hdistinct.named t ht
  have hplain := Path.plainName_of_fileName? hname
  obtain ⟨prepared, result, hprepare, hafter⟩ := stage_eq_error hname hparent hstage
  have hprepared := turns_of_makes hpassable ht hsound (prepareDirectory_makes hprepare)
  rw [hfree] at hprepared
  rcases hafter with rfl | ⟨-, written, rfl | ⟨place, hbegins⟩, rfl⟩
  · exact hprepared
  · unfold removeIfPossible
    split
    · next hremove =>
        obtain ⟨-, -, place, hleads, -, tree, htree, -⟩ :=
          (removeFile_join_eq_ok_iff (plainName_temporaryName hplain)).mp hremove
        obtain rfl := directory_eq hdistinct ht hprepared.sound hparent hleads
        cases hprepared.temporary.symm.trans htree
    · exact hprepared
  · obtain rfl := directory_eq hdistinct ht hprepared.sound hparent hbegins.leadsTo
    let handle : Handle := ⟨⟨parent.join ⟨temporaryName t.name⟩, t.path⟩, content⟩
    have hdrops : Drops prepared (t.replacing handle) _ :=
      Begins.drops hbegins hplain (unlinked_of_eq_none hprepared.temporary)
    have hdropped := turns_of_drops hdistinct ht hprepared.sound hbegins.leadsTo.1 hdrops
    rw [hprepared.spot] at hdropped
    exact hprepared.trans hdropped

theorem replace_turns_of_ok (hreplace : replace files t.path content = (after, .ok ())) :
    Turns start targets t files after (some (.file content)) none := by
  unfold replace at hreplace
  split at hreplace
  · cases hreplace
  · next middle staged hstage =>
      obtain ⟨-, hfresh, hturns⟩ :=
        stage_turns_of_ok hdistinct ht hsound hpassable hfree hstage
      split at hreplace
      · next hcommit =>
          cases hreplace
          exact hturns.trans
            (commit_turns_of_ok hdistinct ht hturns.sound hfresh hcommit).2
      · cases hreplace

theorem replace_turns_of_error {error : Error}
    (hreplace : replace files t.path content = (after, .error error)) :
    Turns start targets t files after (files.get? t.spot) none := by
  unfold replace at hreplace
  split at hreplace
  · next hstage =>
      cases hreplace
      exact stage_turns_of_error hdistinct ht hsound hpassable hfree hstage
  · next middle staged hstage =>
      obtain ⟨-, hfresh, hturns⟩ :=
        stage_turns_of_ok hdistinct ht hsound hpassable hfree hstage
      split at hreplace
      · cases hreplace
      · next hcommit =>
          cases hreplace
          rw [← hturns.spot]
          exact hturns.trans (commit_turns_of_error hdistinct ht hturns.sound hfresh hcommit)

end Calls

/-! ## Accounts -/

namespace Session

variable {session later : Session} {number : Nat}

theorem handle?_opened (session : Session) (files : FileSystem) (handle : Handle)
    (number : Nat) : (session.opened files handle).handle? number =
      if number = session.handles.length then some handle else session.handle? number := by
  unfold handle? opened
  rw [List.getElem?_append]
  split
  · next hlt => rw [if_neg (Nat.ne_of_lt hlt)]
  · next hle =>
      split
      · next heq =>
          rw [heq, Nat.sub_self]
          rfl
      · rw [List.getElem?_eq_none (by simp; omega), List.getElem?_eq_none (by omega)]

theorem handle?_closed (session : Session) (files : FileSystem) (number : Nat)
    (committed : List (Path × ByteArray)) (other : Nat) :
    (session.closed files number committed).handle? other =
      if other = number then none else session.handle? other := by
  unfold handle? closed
  rw [List.getElem?_set]
  by_cases hother : other = number
  · subst hother
    rw [if_pos rfl, if_pos rfl]
    split <;> rfl
  · rw [if_neg hother, if_neg (Ne.symm hother)]

/-- Each handle is fresh with its temporary file, no two are for one target, and each target holds
what it should. -/
structure Accounted (start : FileSystem) (targets : List Target) (session : Session) : Prop where
  sound : Sound start session.files
  alone : ∀ {number number' : Nat} {handle handle' : Handle},
    session.handle? number = some handle → session.handle? number' = some handle' →
      handle.staged.target = handle'.staged.target → number = number'
  fresh : ∀ {number : Nat} {handle : Handle}, session.handle? number = some handle →
    ∃ t ∈ targets, t.path = handle.staged.target ∧
      Fresh session.files (t.replacing handle) ∧
      session.files.get? t.temporarySpot = some (.file handle.content)
  holds : ∀ t ∈ targets, session.files.get? t.spot = session.holds start t
  free : ∀ t ∈ targets, ¬ session.Outstanding t.path →
    session.files.get? t.temporarySpot = none

/-- The calls for one target do not touch the accounts of the others. -/
structure Follows (t : Target) (session later : Session) : Prop where
  handles : ∀ {number : Nat} {handle : Handle}, handle.staged.target ≠ t.path →
    (later.handle? number = some handle ↔ session.handle? number = some handle)
  committed : ∀ {path : Path}, path ≠ t.path →
    later.committed.lookup path = session.committed.lookup path

/-- How a target stands after a call for it: with no handle, or with one. -/
inductive Stands (t : Target) (later : Session) : Option FileTree → Prop where
  | free (hnone : ¬ later.Outstanding t.path) : Stands t later none
  | staged {number : Nat} {handle : Handle} (hhandle : later.handle? number = some handle)
      (htarget : handle.staged.target = t.path) (hfresh : Fresh later.files (t.replacing handle))
      (honly : ∀ {number' : Nat} {handle' : Handle}, later.handle? number' = some handle' →
        handle'.staged.target = t.path → number' = number) :
      Stands t later (some (.file handle.content))

theorem Accounted.turn (hdistinct : Distinct start targets) (ht : t ∈ targets)
    (h : session.Accounted start targets) {spot temporary : Option FileTree}
    (hturns : Turns start targets t session.files later.files spot temporary)
    (hfollows : Follows t session later) (hspot : later.holds start t = spot)
    (hstands : Stands t later temporary) : later.Accounted start targets := by
  have hpath : ∀ u ∈ targets, u ≠ t → u.path ≠ t.path :=
    fun u hu hne hsame => hne (hdistinct.eq_of_path hu ht hsame)
  constructor
  · exact hturns.sound
  · intro number number' handle handle' hhandle hhandle' htargets
    by_cases htarget : handle.staged.target = t.path
    · cases hstands with
      | free hnone => exact absurd ⟨number, handle, hhandle, htarget⟩ hnone
      | staged _ _ _ honly =>
          rw [honly hhandle htarget, honly hhandle' (htargets.symm.trans htarget)]
    · have htarget' : handle'.staged.target ≠ t.path := htargets ▸ htarget
      exact h.alone ((hfollows.handles htarget).mp hhandle)
        ((hfollows.handles htarget').mp hhandle') htargets
  · intro number handle hhandle
    by_cases htarget : handle.staged.target = t.path
    · have htemporary := hturns.temporary
      cases hstands with
      | free hnone => exact absurd ⟨number, handle, hhandle, htarget⟩ hnone
      | staged hother _ hfresh honly =>
          obtain rfl := honly hhandle htarget
          cases hhandle.symm.trans hother
          exact ⟨t, ht, htarget.symm, hfresh, htemporary⟩
    · obtain ⟨u, hu, hpathu, hfresh, hfile⟩ := h.fresh ((hfollows.handles htarget).mp hhandle)
      have hne : u ≠ t := by
        rintro rfl
        exact htarget hpathu.symm
      obtain ⟨-, hsame⟩ := hturns.others u hu hne
      exact ⟨u, hu, hpathu, hfresh.of_keeps hturns.keeps hsame, hsame.trans hfile⟩
  · intro u hu
    by_cases hne : u = t
    · rw [hne, hturns.spot, hspot]
    · rw [(hturns.others u hu hne).1, h.holds u hu]
      unfold Session.holds
      rw [hfollows.committed (hpath u hu hne)]
  · intro u hu hnone
    by_cases hne : u = t
    · have htemporary := hturns.temporary
      cases hstands with
      | free => rwa [hne]
      | staged hhandle htarget => exact absurd ⟨_, _, hhandle, hne ▸ htarget⟩ hnone
    · rw [(hturns.others u hu hne).2]
      apply h.free u hu
      rintro ⟨number, handle, hhandle, htarget⟩
      have htarget' : handle.staged.target ≠ t.path := htarget ▸ hpath u hu hne
      exact hnone ⟨number, handle, (hfollows.handles htarget').mpr hhandle, htarget⟩

theorem follows_opened {files : FileSystem} {handle : Handle}
    (htarget : handle.staged.target = t.path) :
    Follows t session (session.opened files handle) := by
  refine ⟨?_, fun _ => rfl⟩
  intro number other hother
  rw [handle?_opened]
  split
  · next hnumber =>
      constructor
      · intro hsame
        cases hsame
        exact absurd htarget hother
      · intro hsome
        rw [hnumber] at hsome
        simp [handle?] at hsome
  · exact Iff.rfl

section Closed

variable {handle : Handle} (hhandle : session.handle? number = some handle)
  (htarget : handle.staged.target = t.path) (files : FileSystem)
include hhandle htarget

theorem follows_closed {committed : List (Path × ByteArray)}
    (hcommitted : ∀ {path : Path}, path ≠ t.path →
      committed.lookup path = session.committed.lookup path) :
    Follows t session (session.closed files number committed) := by
  refine ⟨?_, hcommitted⟩
  intro other handle' hother
  rw [handle?_closed]
  split
  · next hnumber =>
      constructor
      · intro hsome
        cases hsome
      · intro hsome
        rw [hnumber, hhandle] at hsome
        cases hsome
        exact absurd htarget hother
  · exact Iff.rfl

/-- No handle for the target is left once its only one is used up. -/
theorem Accounted.stands_closed (h : session.Accounted start targets)
    (committed : List (Path × ByteArray)) :
    Stands t (session.closed files number committed) none := by
  apply Stands.free
  rintro ⟨other, handle', hother, htarget'⟩
  rw [handle?_closed] at hother
  split at hother
  · cases hother
  · next hne => exact hne (h.alone hother hhandle (htarget'.trans htarget.symm))

end Closed

theorem lookup_cons_of_ne {path other : Path} (hne : other ≠ path) (content : ByteArray)
    (committed : List (Path × ByteArray)) :
    List.lookup other ((path, content) :: committed) = committed.lookup other := by
  rw [List.lookup_cons, beq_false_of_ne hne]

theorem holds_cons (start : FileSystem) (t : Target) (content : ByteArray) (files : FileSystem)
    (handles : List (Option Handle)) (committed : List (Path × ByteArray)) :
    holds ⟨files, handles, (t.path, content) :: committed⟩ start t = some (.file content) := by
  unfold holds
  rw [List.lookup_cons, beq_self_eq_true]

section Steps

variable (hdistinct : Distinct start targets) (hpassable : Passable start targets)
  (h : session.Accounted start targets)
include hdistinct hpassable h

theorem Accounted.stage {target : Path} {content : ByteArray}
    (hallows : session.Allows targets (.stage target content)) :
    (session.step (.stage target content)).Accounted start targets := by
  obtain ⟨⟨t, ht, rfl⟩, hnone⟩ := hallows
  have hfree := h.free t ht hnone
  simp only [Session.step]
  split
  · next after staged hstage =>
      obtain ⟨htarget, hfresh, hturns⟩ :=
        stage_turns_of_ok hdistinct ht h.sound hpassable hfree hstage
      have hnew := handle?_opened session after ⟨staged, content⟩
      refine h.turn hdistinct ht hturns (follows_opened htarget) (h.holds t ht).symm ?_
      refine .staged ((hnew session.handles.length).trans (if_pos rfl)) htarget hfresh ?_
      intro number handle hhandle htarget'
      have hhandle' := (hnew number).symm.trans hhandle
      split at hhandle'
      · assumption
      · exact absurd ⟨number, handle, hhandle', htarget'⟩ hnone
  · next after error hstage =>
      have hturns := stage_turns_of_error hdistinct ht h.sound hpassable hfree hstage
      exact h.turn hdistinct ht hturns ⟨fun _ => Iff.rfl, fun _ => rfl⟩ (h.holds t ht).symm
        (.free hnone)

theorem Accounted.replace {target : Path} {content : ByteArray}
    (hallows : session.Allows targets (.replace target content)) :
    (session.step (.replace target content)).Accounted start targets := by
  obtain ⟨⟨t, ht, rfl⟩, hnone⟩ := hallows
  have hfree := h.free t ht hnone
  simp only [Session.step]
  split
  · next after hreplace =>
      have hturns := replace_turns_of_ok hdistinct ht h.sound hpassable hfree hreplace
      exact h.turn hdistinct ht hturns
        ⟨fun _ => Iff.rfl, fun hne => lookup_cons_of_ne hne content _⟩
        (holds_cons start t content _ _ _) (.free hnone)
  · next after error hreplace =>
      have hturns := replace_turns_of_error hdistinct ht h.sound hpassable hfree hreplace
      exact h.turn hdistinct ht hturns ⟨fun _ => Iff.rfl, fun _ => rfl⟩ (h.holds t ht).symm
        (.free hnone)

omit hpassable in
theorem Accounted.discard (number : Nat) :
    (session.step (.discard number)).Accounted start targets := by
  simp only [Session.step]
  split
  · exact h
  · next handle hhandle =>
      obtain ⟨t, ht, hpath, hfresh, -⟩ := h.fresh hhandle
      have hturns := discard_turns hdistinct ht h.sound hfresh
      exact h.turn hdistinct ht hturns (follows_closed hhandle hpath.symm _ fun _ => rfl)
        (h.holds t ht).symm (h.stands_closed hhandle hpath.symm _ _)

omit hpassable in
theorem Accounted.commit (number : Nat) :
    (session.step (.commit number)).Accounted start targets := by
  simp only [Session.step]
  split
  · exact h
  · next handle hhandle =>
      obtain ⟨t, ht, hpath, hfresh, -⟩ := h.fresh hhandle
      split
      · next after target hcommit =>
          obtain ⟨rfl, hturns⟩ := commit_turns_of_ok hdistinct ht h.sound hfresh hcommit
          rw [← hpath]
          exact h.turn hdistinct ht hturns
            (follows_closed hhandle hpath.symm _ fun hne => lookup_cons_of_ne hne _ _)
            (holds_cons start t _ _ _ _) (h.stands_closed hhandle hpath.symm _ _)
      · next after error hcommit =>
          have hturns := commit_turns_of_error hdistinct ht h.sound hfresh hcommit
          exact h.turn hdistinct ht hturns (follows_closed hhandle hpath.symm _ fun _ => rfl)
            (h.holds t ht).symm (h.stands_closed hhandle hpath.symm _ _)

/-- Every call keeps the accounts. -/
theorem Accounted.step {call : Call} (hallows : session.Allows targets call) :
    (session.step call).Accounted start targets := by
  cases call with
  | stage target content => exact h.stage hdistinct hpassable hallows
  | commit number => exact h.commit hdistinct number
  | discard number => exact h.discard hdistinct number
  | replace target content => exact h.replace hdistinct hpassable hallows

end Steps

theorem accounted_start (hdistinct : Distinct start targets) :
    Accounted start targets ⟨start, [], []⟩ := by
  refine ⟨.refl start, ?_, ?_, fun _ _ => rfl, fun t ht _ => hdistinct.free t ht⟩
  · rintro number number' handle handle' ⟨⟩
  · rintro number handle ⟨⟩

theorem Reached.accounted (hdistinct : Distinct start targets)
    (hpassable : Passable start targets) (h : Reached start targets session) :
    session.Accounted start targets := by
  induction h with
  | start => exact accounted_start hdistinct
  | step _ hallows ih => exact ih.step hdistinct hpassable hallows

/--
**A target holds what was last committed for it.** Whatever calls were made, with any number of
handles in hand, each target is the file that was last committed for it, or what it was at the
start if there is none, so that no call changes it but one that commits. Its temporary file is there
exactly as long as there is a handle for it that is not used up.
-/
theorem holds_last_committed (start : FileSystem) (targets : List Target)
    (hdistinct : Distinct start targets) (hpassable : Passable start targets)
    (session : Session) (hreached : Reached start targets session) :
    ∀ t ∈ targets, session.files.get? t.spot = session.holds start t ∧
      ((session.files.get? t.temporarySpot).isSome ↔ session.Outstanding t.path) := by
  intro t ht
  have h := hreached.accounted hdistinct hpassable
  refine ⟨h.holds t ht, ?_⟩
  constructor
  · intro hsome
    by_contra hnone
    rw [h.free t ht hnone] at hsome
    cases hsome
  · rintro ⟨number, handle, hhandle, htarget⟩
    obtain ⟨u, hu, hpath, -, hfile⟩ := h.fresh hhandle
    obtain rfl := hdistinct.eq_of_path hu ht (hpath.trans htarget)
    rw [hfile]
    rfl

/-! ## Two sessions -/

theorem stage_of_prepareDirectory {prepared : FileSystem} {base : Path} {name : String}
    {place : Location} (hname : PlainName name) (hfits : Fits base name)
    (hprepare : prepareDirectory files (base.join ⟨name⟩) = (prepared, .ok ()))
    (hleads : prepared.LeadsTo base place)
    (hnone : prepared.get? (place ++ [temporaryName name]) = none) {content : ByteArray}
    (hfills : Fills prepared place name content) :
    Staged.stage files (base.join ⟨name⟩) content =
      (prepared.put (place ++ [temporaryName name]) (.file content),
        .ok (ofName base name)) := by
  obtain ⟨after, hstage, hstages⟩ := stage_join hname hfits hleads
    (overwritable_of_eq_none hnone) hfills
  rw [(hstages.eq_put (unlinked_of_eq_none hnone)).2] at hstage
  rw [← hstage]
  unfold Staged.stage
  rw [hprepare, prepareDirectory_of_leadsTo hname hfits.temporaryPath hleads]

/-- A file, beside which there is room for a directory. -/
def oldFile : FileSystem := .ofRoot (.directory [("a", .file ⟨#[1]⟩)])

/-- The file, and one in a directory that is not there yet. -/
def oldAndNew : List Target := [⟨⟨"a"⟩, [], "a"⟩, ⟨⟨"sub/b"⟩, ["sub"], "b"⟩]

theorem headsTo_empty (files : FileSystem) : files.HeadsTo ⟨""⟩ files.workingDirectory :=
  ⟨Path.maxLinks, .done⟩

theorem headsTo_sub : oldFile.HeadsTo ⟨"sub"⟩ ["sub"] := by
  have hsteps : (⟨"sub"⟩ : Path).steps = ["sub"] := by decide
  refine ⟨Path.maxLinks, ?_⟩
  rw [hsteps]
  exact .down rfl (by rintro target ⟨⟩) .done

theorem distinct_oldAndNew : Distinct oldFile oldAndNew := by
  refine ⟨?_, by decide, by decide, ?_, by decide, ?_⟩
  · refine List.forall_mem_cons.mpr ⟨⟨by decide, ⟨""⟩, by decide, headsTo_empty oldFile⟩,
      List.forall_mem_singleton.mpr ⟨by decide, ⟨"sub"⟩, by decide, headsTo_sub⟩⟩
  · refine List.forall_mem_cons.mpr ⟨?_, List.forall_mem_singleton.mpr ?_⟩
    · rintro target ⟨⟩
    · rintro target ⟨⟩
  · exact List.forall_mem_cons.mpr ⟨rfl, List.forall_mem_singleton.mpr rfl⟩

theorem passable_oldAndNew : Passable oldFile oldAndNew := by
  intro t ht u hu ancestor hancestor place hheads hmissing
  have hplace : place = ["sub"] := by
    have habove : ∀ u ∈ oldAndNew, ∀ ancestor ∈ u.path.above,
        ancestor = ⟨"sub"⟩ ∨ ancestor = ⟨""⟩ := by decide
    rcases habove u hu ancestor hancestor with rfl | rfl
    · exact hheads.unique headsTo_sub
    · rw [hheads.unique (headsTo_empty oldFile)] at hmissing
      cases hmissing
  subst hplace
  revert t
  decide

theorem fits_a : Fits ⟨""⟩ "a" := ⟨rfl, rfl, by decide, by decide⟩

theorem fits_b : Fits ⟨"sub"⟩ "b" := ⟨rfl, rfl, by decide, by decide⟩

theorem leadsTo_empty (hdirectory : files.HasDirectory files.workingDirectory) :
    files.LeadsTo ⟨""⟩ files.workingDirectory :=
  ⟨hdirectory, Path.maxLinks, .done hdirectory.isSome⟩

/-- The old file with a new one staged for it. -/
def stagedOnce : FileSystem := oldFile.put [".a.tmp"] (.file ⟨#[2]⟩)

/-- Both staged, and the directory of the second one made. -/
def stagedTwice : FileSystem :=
  (stagedOnce.put ["sub"] (.directory [])).put ["sub", ".b.tmp"] (.file ⟨#[3]⟩)

theorem stage_first :
    Staged.stage oldFile ⟨"a"⟩ ⟨#[2]⟩ = (stagedOnce, .ok (ofName ⟨""⟩ "a")) := by
  have hname : PlainName "a" := plainName_of_isFileName rfl
  have hleads : oldFile.LeadsTo ⟨""⟩ [] := leadsTo_empty ⟨_, rfl, rfl⟩
  exact stage_of_prepareDirectory hname fits_a
    (prepareDirectory_of_leadsTo hname fits_a.temporaryPath hleads) hleads rfl rfl

theorem stage_second :
    Staged.stage stagedOnce ⟨"sub/b"⟩ ⟨#[3]⟩ = (stagedTwice, .ok (ofName ⟨"sub"⟩ "b")) := by
  have hname : PlainName "b" := plainName_of_isFileName rfl
  have hprepare : prepareDirectory stagedOnce ⟨"sub/b"⟩ =
      (stagedOnce.put ["sub"] (.directory []), .ok ()) := by cbv
  have hsteps : (⟨"sub"⟩ : Path).steps = ["sub"] := by decide
  have hwalk : (stagedOnce.put ["sub"] (.directory [])).Walks Path.maxLinks [] ["sub"]
      ⟨["sub"], Path.maxLinks⟩ :=
    .down ⟨_, rfl, rfl⟩ rfl (by decide) rfl (by rintro target ⟨⟩) (.done rfl)
  rw [← hsteps] at hwalk
  exact stage_of_prepareDirectory hname fits_b hprepare ⟨⟨_, rfl, rfl⟩, _, hwalk⟩ rfl rfl

theorem commit_first : ∃ after, Staged.commit stagedTwice (ofName ⟨""⟩ "a") = (after, .ok ⟨"a"⟩) := by
  have hname : PlainName "a" := plainName_of_isFileName rfl
  have hleads : stagedTwice.LeadsTo ⟨""⟩ [] := leadsTo_empty ⟨_, rfl, rfl⟩
  have hfile : stagedTwice.get? [".a.tmp"] = some (.file ⟨#[2]⟩) := rfl
  obtain ⟨after, hcommit, -⟩ := commit_join hname fits_a hleads rfl hfile (by rintro _ ⟨⟩)
  exact ⟨after, hcommit⟩

def firstHandle : Handle := ⟨ofName ⟨""⟩ "a", ⟨#[2]⟩⟩

def secondHandle : Handle := ⟨ofName ⟨"sub"⟩ "b", ⟨#[3]⟩⟩

/-- Both are staged, and the first is committed. -/
theorem reached_oldAndNew : ∃ after, Reached oldFile oldAndNew
    ⟨after, [none, some secondHandle], [(⟨"a"⟩, ⟨#[2]⟩)]⟩ := by
  obtain ⟨after, hcommit⟩ := commit_first
  have hstart : Reached oldFile oldAndNew ⟨oldFile, [], []⟩ := .start
  have hfirst : step ⟨oldFile, [], []⟩ (.stage ⟨"a"⟩ ⟨#[2]⟩) =
      ⟨stagedOnce, [some firstHandle], []⟩ := by
    simp only [step, stage_first]
    rfl
  have hsecond : step ⟨stagedOnce, [some firstHandle], []⟩ (.stage ⟨"sub/b"⟩ ⟨#[3]⟩) =
      ⟨stagedTwice, [some firstHandle, some secondHandle], []⟩ := by
    simp only [step, stage_second]
    rfl
  have hthird : step ⟨stagedTwice, [some firstHandle, some secondHandle], []⟩ (.commit 0) =
      ⟨after, [none, some secondHandle], [(⟨"a"⟩, ⟨#[2]⟩)]⟩ := by
    have hhandle : handle? ⟨stagedTwice, [some firstHandle, some secondHandle], []⟩ 0 =
      some firstHandle := rfl
    have hstaged : firstHandle.staged = ofName ⟨""⟩ "a" := rfl
    simp only [step, hhandle, hstaged, hcommit]
    rfl
  have hallows : Allows ⟨oldFile, [], []⟩ oldAndNew (.stage ⟨"a"⟩ ⟨#[2]⟩) := by
    refine ⟨⟨_, List.mem_cons_self, rfl⟩, ?_⟩
    rintro ⟨number, handle, ⟨⟩, -⟩
  have hallows' : Allows ⟨stagedOnce, [some firstHandle], []⟩ oldAndNew
      (.stage ⟨"sub/b"⟩ ⟨#[3]⟩) := by
    refine ⟨⟨_, List.mem_cons_of_mem _ List.mem_cons_self, rfl⟩, ?_⟩
    rintro ⟨_ | number, handle, hhandle, htarget⟩
    · cases hhandle
      exact absurd htarget (by decide)
    · cases hhandle
  have hreached := ((hstart.step hallows).step (hfirst ▸ hallows'))
  rw [hfirst, hsecond] at hreached
  have hcommitted := hreached.step (show Allows _ oldAndNew (.commit 0) from trivial)
  rw [hthird] at hcommitted
  exact ⟨after, hcommitted⟩

theorem holds_last_committed_oldAndNew :
    Distinct oldFile oldAndNew ∧ Passable oldFile oldAndNew ∧
      ∃ session, Reached oldFile oldAndNew session ∧
        session.files.get? ["a"] = some (.file ⟨#[2]⟩) ∧
        session.files.get? ["sub", "b"] = none ∧
        session.files.get? [".a.tmp"] = none ∧
        (session.files.get? ["sub", ".b.tmp"]).isSome := by
  obtain ⟨after, hreached⟩ := reached_oldAndNew
  have haccount := holds_last_committed oldFile oldAndNew distinct_oldAndNew passable_oldAndNew _
    hreached
  obtain ⟨hfirst, hfirstTemporary⟩ := haccount _ List.mem_cons_self
  obtain ⟨hsecond, hsecondTemporary⟩ := haccount _ (List.mem_cons_of_mem _ List.mem_cons_self)
  refine ⟨distinct_oldAndNew, passable_oldAndNew, _, hreached, hfirst, hsecond, ?_, ?_⟩
  · rw [← Option.not_isSome_iff_eq_none]
    intro hsome
    obtain ⟨_ | _ | number, handle, hhandle, htarget⟩ := hfirstTemporary.mp hsome
    · cases hhandle
    · cases hhandle
      exact absurd htarget (by decide)
    · cases hhandle
  · exact hsecondTemporary.mpr ⟨1, secondHandle, rfl, rfl⟩

/-- A path that goes into a directory, and out of it to a file of the same name. -/
def throughItself : Target := ⟨⟨"t/../t"⟩, [], "t"⟩

def emptyRoot : FileSystem := .ofRoot (.directory [])

theorem distinct_throughItself : Distinct emptyRoot [throughItself] := by
  have hsteps : (⟨"t/.."⟩ : Path).steps = ["t", ".."] := by decide
  have hheads : emptyRoot.HeadsTo ⟨"t/.."⟩ [] := by
    refine ⟨Path.maxLinks, ?_⟩
    rw [hsteps]
    exact .down rfl (by rintro target ⟨⟩) (.up .done)
  refine ⟨?_, by decide, by decide, ?_, by decide, ?_⟩
  · exact List.forall_mem_singleton.mpr ⟨by decide, ⟨"t/.."⟩, by decide, hheads⟩
  · refine List.forall_mem_singleton.mpr ?_
    rintro target ⟨⟩
  · exact List.forall_mem_singleton.mpr rfl

/-- Staging such a target makes it a directory. -/
theorem stage_makes_throughItself :
    Distinct emptyRoot [throughItself] ∧ ∃ session, Reached emptyRoot [throughItself] session ∧
      session.committed = [] ∧
      session.files.get? throughItself.spot ≠ session.holds emptyRoot throughItself := by
  have hname : PlainName "t" := plainName_of_isFileName rfl
  have hfits : Fits ⟨"t/.."⟩ "t" := ⟨rfl, rfl, by decide, by decide⟩
  let made : FileSystem := .ofRoot (.directory [("t", .directory [])])
  have hprepare : prepareDirectory emptyRoot ⟨"t/../t"⟩ = (made, .ok ()) := by cbv
  have hsteps : (⟨"t/.."⟩ : Path).steps = ["t", ".."] := by decide
  have hwalk : made.Walks Path.maxLinks [] ["t", ".."] ⟨[], Path.maxLinks⟩ :=
    .down ⟨_, rfl, rfl⟩ rfl (by decide) rfl (by rintro target ⟨⟩)
      (.up ⟨_, rfl, rfl⟩ (.done rfl))
  rw [← hsteps] at hwalk
  have hfills : Fills made [] "t" ⟨#[1]⟩ := fills_ofRoot
  have hstage :=
    stage_of_prepareDirectory hname hfits hprepare ⟨⟨_, rfl, rfl⟩, _, hwalk⟩ rfl hfills
  have hallows : Allows ⟨emptyRoot, [], []⟩ [throughItself] (.stage ⟨"t/../t"⟩ ⟨#[1]⟩) := by
    refine ⟨⟨_, List.mem_cons_self, rfl⟩, ?_⟩
    rintro ⟨number, handle, ⟨⟩, -⟩
  have hstep : step ⟨emptyRoot, [], []⟩ (.stage ⟨"t/../t"⟩ ⟨#[1]⟩) =
      opened ⟨emptyRoot, [], []⟩ (made.put [".t.tmp"] (.file ⟨#[1]⟩))
        ⟨ofName ⟨"t/.."⟩ "t", ⟨#[1]⟩⟩ := by
    have hjoin : (⟨"t/.."⟩ : Path).join ⟨"t"⟩ = ⟨"t/../t"⟩ := rfl
    rw [hjoin] at hstage
    simp only [step, hstage]
    rfl
  have hstart : Reached emptyRoot [throughItself] ⟨emptyRoot, [], []⟩ := .start
  have hreached := hstart.step hallows
  rw [hstep] at hreached
  refine ⟨distinct_throughItself, _, hreached, rfl, ?_⟩
  rintro ⟨⟩

end Session

end Staged

end FeatureFlags
