import FeatureFlags.Proofs.Directories

/-!
# Where a path heads

A path may go through directories that are not there yet. Where it would lead if they were made is
a matter of the links on its way alone (`Heads`). So it leads to the same place in all later trees
that have no other links (`Guides.headsTo`), whether its directory was there from the start or was
made on the way. Making directories, and every other change of one entry, is said entry by entry
(`Edits`, `Makes`).
-/

namespace FeatureFlags

namespace FileSystem

variable {files other after : FileSystem} {path : Path} {place spot : Location}

/-! ## Headings -/

/--
`Heads files links here names arrival`: a walk along `names` that is not stopped by what is missing
on its way gets to `arrival`. Only the links of `files` count.
-/
inductive Heads (files : FileSystem) : Nat → Location → List String → Arrival → Prop where
  | done {links : Nat} {here : Location} : Heads files links here [] ⟨here, links⟩
  | stay {links : Nat} {here : Location} {rest : List String} {arrival : Arrival}
      (hrest : Heads files links here rest arrival) : Heads files links here ("." :: rest) arrival
  | up {links : Nat} {here : Location} {rest : List String} {arrival : Arrival}
      (hrest : Heads files links here.dropLast rest arrival) :
      Heads files links here (".." :: rest) arrival
  | follow {links : Nat} {here : Location} {name : String} {target : Path} {rest : List String}
      {arrival : Arrival} (hname : Path.isEntryName name = true)
      (hlink : files.get? (here ++ [name]) = some (.link target))
      (hrest : Heads files links (target.startFrom here) (target.stepsThrough ++ rest) arrival) :
      Heads files (links + 1) here (name :: rest) arrival
  | down {links : Nat} {here : Location} {name : String} {rest : List String} {arrival : Arrival}
      (hname : Path.isEntryName name = true)
      (hnolink : ∀ target, files.get? (here ++ [name]) ≠ some (.link target))
      (hrest : Heads files links (here ++ [name]) rest arrival) :
      Heads files links here (name :: rest) arrival

theorem Heads.unique {links : Nat} {here : Location} {names : List String}
    {arrival arrival' : Arrival} (h : files.Heads links here names arrival)
    (h' : files.Heads links here names arrival') : arrival = arrival' := by
  induction h with
  | done =>
      cases h'
      rfl
  | @stay _ _ rest _ _ ih =>
      generalize hnames : "." :: rest = names at h'
      cases h' with
      | done => cases hnames
      | stay hrest' =>
          cases hnames
          exact ih hrest'
      | up => simp at hnames
      | follow hname' =>
          cases hnames
          cases hname'
      | down hname' =>
          cases hnames
          cases hname'
  | @up _ _ rest _ _ ih =>
      generalize hnames : ".." :: rest = names at h'
      cases h' with
      | done => cases hnames
      | stay => simp at hnames
      | up hrest' =>
          cases hnames
          exact ih hrest'
      | follow hname' =>
          cases hnames
          cases hname'
      | down hname' =>
          cases hnames
          cases hname'
  | follow hname hlink _ ih =>
      cases h' with
      | stay => cases hname
      | up => cases hname
      | follow _ hlink' hrest' =>
          cases hlink.symm.trans hlink'
          exact ih hrest'
      | down _ hnolink' => exact absurd hlink (hnolink' _)
  | down hname hnolink _ ih =>
      cases h' with
      | stay => cases hname
      | up => cases hname
      | follow _ hlink' => exact absurd hlink' (hnolink _)
      | down _ _ hrest' => exact ih hrest'

/-- The path leads to `place`, once the directories that it lacks are made. -/
def HeadsTo (files : FileSystem) (path : Path) (place : Location) : Prop :=
  ∃ linksLeft, files.Heads Path.maxLinks (path.startFrom files.workingDirectory) path.steps
    ⟨place, linksLeft⟩

theorem HeadsTo.unique {place' : Location} (h : files.HeadsTo path place)
    (h' : files.HeadsTo path place') : place = place' := by
  obtain ⟨_, hheads⟩ := h
  obtain ⟨_, hheads'⟩ := h'
  exact congrArg Arrival.place (hheads.unique hheads')

/--
`files` tells where paths lead in `other`: all links there are links of `files`, and where one is
missing there is a file, through which no path leads.
-/
structure Guides (files other : FileSystem) : Prop where
  workingDirectory : other.workingDirectory = files.workingDirectory
  isLink : ∀ {place : Location} {target : Path}, other.trunk? place = some (.link target) →
    files.trunk? place = some (.link target)
  wasLink : ∀ {place : Location} {target : Path}, files.trunk? place = some (.link target) →
    other.trunk? place = some (.link target) ∨
      ∃ content, other.trunk? place = some (.file content)

namespace Guides

theorem refl (files : FileSystem) : files.Guides files := ⟨rfl, id, .inl⟩

theorem heads (h : files.Guides other) {links : Nat} {here : Location} {names : List String}
    {arrival : Arrival} (hwalk : other.Walks links here names arrival)
    (hdirectory : other.HasDirectory arrival.place) : files.Heads links here names arrival := by
  induction hwalk with
  | done => exact .done
  | stay _ _ ih => exact .stay (ih hdirectory)
  | up _ _ ih => exact .up (ih hdirectory)
  | follow _ hname _ hlink _ ih =>
      have hlink' := h.isLink (trunk?_eq_link_iff.mpr hlink)
      exact .follow hname (trunk?_eq_link_iff.mp hlink') (ih hdirectory)
  | @down _ here name _ _ _ _ hname _ _ _ hrest ih =>
      refine .down hname ?_ (ih hdirectory)
      intro target hlink
      -- The walk goes on from here, so there is a directory now, and there was no link.
      have hentry := hasDirectory_iff.mp (hrest.hasDirectory_start hdirectory)
      rcases h.wasLink (trunk?_eq_link_iff.mpr hlink) with hsame | ⟨content, hfile⟩
      · cases hentry.symm.trans hsame
      · cases hentry.symm.trans hfile

theorem headsTo (h : files.Guides other) (hleads : other.LeadsTo path place) :
    files.HeadsTo path place := by
  obtain ⟨hdirectory, linksLeft, hwalk⟩ := hleads
  refine ⟨linksLeft, ?_⟩
  rw [← h.workingDirectory]
  exact h.heads hwalk hdirectory

theorem ne_link (h : files.Guides other) (hnolink : ∀ target, files.get? place ≠ some (.link target))
    (target : Path) : other.get? place ≠ some (.link target) := by
  intro hlink
  have hlink' := h.isLink (trunk?_eq_link_iff.mpr hlink)
  exact hnolink target (trunk?_eq_link_iff.mp hlink')

end Guides

/-! ## Changes of one entry -/

/-- `after` is `files` with the entry `spot` made `new`, and with nothing below it. -/
structure Edits (files : FileSystem) (spot : Location) (new : Option FileTree)
    (after : FileSystem) : Prop where
  workingDirectory : after.workingDirectory = files.workingDirectory
  trunk?_eq : ∀ place, after.trunk? place = if place = spot then new else files.trunk? place
  get?_eq : ∀ {place : Location}, FileTree.Apart spot place → after.get? place = files.get? place

theorem trunk?_below (hnone : ¬ files.HasDirectory place) {below : Location} (hbelow : below ≠ []) :
    files.trunk? (place ++ below) = none := by
  rw [trunk?_eq_none_iff, Option.eq_none_iff_forall_ne_some]
  intro tree htree
  exact hnone (hasDirectory_of_append hbelow htree)

theorem append_ne_self (place : Location) {below : Location} (hbelow : below ≠ []) :
    place ++ below ≠ place :=
  fun h => hbelow (List.append_right_eq_self.mp h)

section OneEntry

variable (hdirectory : files.HasDirectory place) {name : String}
  (hentry : ¬ files.HasDirectory (place ++ [name]))
include hdirectory hentry

theorem edits_put {new : FileTree} (hnew : new.children = []) :
    files.Edits (place ++ [name]) (some new.trunk) (files.put (place ++ [name]) new) := by
  refine ⟨rfl, ?_, fun hapart => get?_put_of_apart files hapart new⟩
  intro elsewhere
  by_cases hinit : place ++ [name] <+: elsewhere
  · obtain ⟨below, rfl⟩ := hinit
    have hput : (files.put (place ++ [name]) new).get? (place ++ [name]) = some new := by
      rw [get?_put_entry hdirectory, if_pos rfl]
    by_cases hbelow : below = []
    · rw [hbelow, List.append_nil, if_pos rfl, trunk?, hput]
      rfl
    · rw [if_neg (append_ne_self _ hbelow), trunk?_below hentry hbelow, trunk?_append, hput]
      cases below with
      | nil => exact absurd rfl hbelow
      | cons next below =>
          rw [Option.bind_some, FileTree.get?_cons, FileTree.child?, hnew]
          rfl
  · have hne : elsewhere ≠ place ++ [name] := by
      rintro rfl
      exact hinit (List.prefix_refl _)
    rw [if_neg hne, trunk?_put hdirectory hinit]

theorem edits_erase : files.Edits (place ++ [name]) none (files.erase (place ++ [name])) := by
  refine ⟨rfl, ?_, fun hapart => get?_erase_of_apart files hapart⟩
  intro elsewhere
  by_cases hinit : place ++ [name] <+: elsewhere
  · have hnone := get?_erase_of_prefix hdirectory hinit
    rw [← trunk?_eq_none_iff] at hnone
    obtain ⟨below, rfl⟩ := hinit
    rw [hnone]
    by_cases hbelow : below = []
    · rw [hbelow, List.append_nil, if_pos rfl]
    · rw [if_neg (append_ne_self _ hbelow), trunk?_below hentry hbelow]
  · have hne : elsewhere ≠ place ++ [name] := by
      rintro rfl
      exact hinit (List.prefix_refl _)
    rw [if_neg hne, trunk?_erase hdirectory hinit]

end OneEntry

namespace Edits

variable {new : Option FileTree}

/-- A new file hides a link at most. -/
theorem guides_file {content : ByteArray} (h : other.Edits spot (some (.file content)) after)
    (hguides : files.Guides other) : files.Guides after := by
  refine ⟨h.workingDirectory.trans hguides.workingDirectory, ?_, ?_⟩
  · intro place target hlink
    rw [h.trunk?_eq] at hlink
    split at hlink
    · cases hlink
    · exact hguides.isLink hlink
  · intro place target hlink
    rw [h.trunk?_eq]
    split
    · exact .inr ⟨content, rfl⟩
    · exact hguides.wasLink hlink

/-- Anything but a link may be put where there was none, or taken away there. -/
theorem guides_of_ne_link (h : other.Edits spot new after)
    (hnew : ∀ target, new ≠ some (.link target))
    (hspot : ∀ target, files.get? spot ≠ some (.link target)) (hguides : files.Guides other) :
    files.Guides after := by
  refine ⟨h.workingDirectory.trans hguides.workingDirectory, ?_, ?_⟩
  · intro place target hlink
    rw [h.trunk?_eq] at hlink
    split at hlink
    · exact absurd hlink (hnew target)
    · exact hguides.isLink hlink
  · intro place target hlink
    rw [h.trunk?_eq]
    split
    · next hplace =>
        rw [hplace, trunk?_eq_link_iff] at hlink
        exact absurd hlink (hspot target)
    · exact hguides.wasLink hlink

end Edits

/-! ## Making directories -/

/--
`after` is `files` with new directories, each at a place that one of `paths` leads to. What has no
new one in it is the same.
-/
structure Makes (files : FileSystem) (paths : List Path) (after : FileSystem) : Prop where
  workingDirectory : after.workingDirectory = files.workingDirectory
  shortfall? : after.shortfall? = files.shortfall?
  kept : ∀ {place : Location} {tree : FileTree}, files.trunk? place = some tree →
    after.trunk? place = some tree
  made : ∀ {place : Location} {tree : FileTree}, after.trunk? place = some tree →
    files.trunk? place = some tree ∨
      files.trunk? place = none ∧ tree = .directory [] ∧
        ∃ path ∈ paths, after.LeadsTo path place
  untouched : ∀ {place : Location},
    (∀ path ∈ paths, ∀ new, after.LeadsTo path new → files.trunk? new = none → ¬ place <+: new) →
      after.get? place = files.get? place

namespace Makes

variable {paths : List Path}

theorem refl (files : FileSystem) (paths : List Path) : Makes files paths files :=
  ⟨rfl, rfl, id, .inl, fun _ => rfl⟩

theorem keeps (h : Makes files paths after) : files.Keeps after :=
  ⟨h.workingDirectory, h.shortfall?, fun htree _ => h.kept htree⟩

theorem mono {others : List Path} (h : Makes files paths after) (hsub : paths ⊆ others) :
    Makes files others after := by
  refine ⟨h.workingDirectory, h.shortfall?, h.kept, ?_, ?_⟩
  · intro place tree htree
    refine (h.made htree).imp_right ?_
    rintro ⟨hnone, hnew, path, hpath, hleads⟩
    exact ⟨hnone, hnew, path, hsub hpath, hleads⟩
  · intro place hplace
    exact h.untouched fun path hpath => hplace path (hsub hpath)

theorem trans {last : FileSystem} (h : Makes files paths after) (h' : Makes after paths last) :
    Makes files paths last := by
  refine ⟨h'.workingDirectory.trans h.workingDirectory, h'.shortfall?.trans h.shortfall?,
    fun htree => h'.kept (h.kept htree), ?_, ?_⟩
  · intro place tree htree
    rcases h'.made htree with hafter | ⟨hnone, hnew, hpath⟩
    · refine (h.made hafter).imp_right ?_
      rintro ⟨hnone, hnew, path, hpath, hleads⟩
      exact ⟨hnone, hnew, path, hpath, h'.keeps.leadsTo hleads⟩
    · refine .inr ⟨?_, hnew, hpath⟩
      cases hfiles : files.trunk? place with
      | none => rfl
      | some old => cases hnone.symm.trans (h.kept hfiles)
  · intro place hplace
    rw [h'.untouched, h.untouched]
    · exact fun path hpath new hleads => hplace path hpath new (h'.keeps.leadsTo hleads)
    · intro path hpath new hleads hnone
      refine hplace path hpath new hleads ?_
      cases hfiles : files.trunk? new with
      | none => rfl
      | some old => cases hnone.symm.trans (h.kept hfiles)

theorem guides (h : Makes other paths after) (hguides : files.Guides other) :
    files.Guides after := by
  refine ⟨h.workingDirectory.trans hguides.workingDirectory, ?_, ?_⟩
  · intro place target hlink
    rcases h.made hlink with hsame | ⟨-, hnew, -⟩
    · exact hguides.isLink hsame
    · cases hnew
  · intro place target hlink
    refine (hguides.wasLink hlink).imp (fun hsame => h.kept hsame) ?_
    rintro ⟨content, hfile⟩
    exact ⟨content, h.kept hfile⟩

end Makes

theorem makes_of_makeDirectory (h : files.makeDirectory path = .ok after) :
    Makes files [path] after := by
  obtain ⟨above, last, habove, hnone, hafter, -, hleads⟩ := exists_put_of_makeDirectory h
  have hentry : ¬ files.HasDirectory (above ++ [last]) := by
    rintro ⟨tree, htree, -⟩
    cases hnone.symm.trans htree
  have hedits : files.Edits (above ++ [last]) (some (.directory [])) after := by
    have hnew : (FileTree.directory []).children = [] := rfl
    rw [hafter]
    exact edits_put habove hentry hnew
  have hshortfall : after.shortfall? = files.shortfall? := by
    rw [hafter]
    rfl
  refine ⟨hedits.workingDirectory, hshortfall, ?_, ?_, ?_⟩
  · intro place tree htree
    rw [hedits.trunk?_eq, if_neg]
    · exact htree
    · rintro rfl
      cases (trunk?_eq_none_iff.mpr hnone).symm.trans htree
  · intro place tree htree
    rw [hedits.trunk?_eq] at htree
    split at htree
    · next hplace =>
        cases htree
        rw [hplace]
        exact .inr ⟨trunk?_eq_none_iff.mpr hnone, rfl, path, List.mem_cons_self, hleads⟩
    · exact .inl htree
  · intro place hplace
    have hnot := hplace path List.mem_cons_self _ hleads (trunk?_eq_none_iff.mpr hnone)
    by_cases hinit : above ++ [last] <+: place
    · obtain ⟨below, rfl⟩ := hinit
      have hbelow : below ≠ [] := by
        rintro rfl
        have hsame : above ++ [last] ++ [] <+: above ++ [last] := by simp
        exact hnot hsame
      rw [trunk?_eq_none_iff.mp (trunk?_below hentry hbelow), ← trunk?_eq_none_iff,
        hedits.trunk?_eq, if_neg (append_ne_self _ hbelow)]
      exact trunk?_below hentry hbelow
    · exact hedits.get?_eq ⟨hinit, hnot⟩

theorem makeFirst_makes {paths : List Path} {result : Except FileFault Unit}
    (h : files.makeFirst paths = (after, result)) : Makes files paths after := by
  induction paths generalizing files after result with
  | nil =>
      cases h
      exact .refl _ []
  | cons path parents ih =>
      rw [makeFirst] at h
      split at h
      · cases h
        exact .refl _ _
      · split at h
        · next hmake =>
            cases h
            exact (makes_of_makeDirectory hmake).mono (by simp)
        · split at h
          · next hparents =>
              cases h
              exact (ih hparents).mono (List.subset_cons_self _ _)
          · next middle hparents =>
              -- The parents are there now, and the path is tried a second time.
              have hmiddle := (ih hparents).mono (List.subset_cons_self path parents)
              split at h
              · next hmake =>
                  cases h
                  exact hmiddle.trans ((makes_of_makeDirectory hmake).mono (by simp))
              · cases h
                exact hmiddle
        · cases h
          exact .refl _ _

end FileSystem

namespace Path

/-- The parent of a path, its parent and so on. -/
def above (path : Path) : List Path :=
  match path.parent? with
  | none => []
  | some parent => parent.ancestors

end Path

namespace Staged

open FileSystem

theorem prepareDirectory_makes {files prepared : FileSystem} {target : Path}
    {result : Except Error Unit} (h : prepareDirectory files target = (prepared, result)) :
    Makes files target.above prepared := by
  unfold prepareDirectory at h
  unfold Path.above
  cases hparent : target.parent? with
  | none =>
      simp only [hparent] at h
      cases h
      exact .refl _ []
  | some parent =>
      simp only [hparent] at h ⊢
      split at h
      · cases h
        exact .refl _ _
      · split at h
        · next hmake =>
            cases h
            exact makeFirst_makes hmake
        · next hmake =>
            cases h
            exact makeFirst_makes hmake

end Staged

end FeatureFlags
