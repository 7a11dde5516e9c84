import FeatureFlags.Proofs.Paths
import FeatureFlags.Proofs.Walking

/-!
# Entries of a directory

A file in a directory as the operations on files find it by its path: the directory that the path
leads to, and the name. Reading, renaming and opening for writing are each said in these terms,
once and for all callers.
-/

namespace FeatureFlags

theorem bind_eq_ok_iff {ε α β : Type} {x : Except ε α} {f : α → Except ε β} {b : β} :
    (x >>= f) = .ok b ↔ ∃ a, x = .ok a ∧ f a = .ok b := by
  cases x <;> simp [bind, Except.bind]

namespace FileSystem

variable {files other : FileSystem} {base : Path} {name : String} {place : Location}

/-! ## Paths of directories -/

/-- A walk along the path ends at the directory `place`. -/
def LeadsTo (files : FileSystem) (path : Path) (place : Location) : Prop :=
  files.HasDirectory place ∧ ∃ linksLeft, files.Walks Path.maxLinks
    (path.startFrom files.workingDirectory) path.steps ⟨place, linksLeft⟩

theorem LeadsTo.unique {place' : Location} (h : files.LeadsTo base place)
    (h' : files.LeadsTo base place') : place = place' := by
  obtain ⟨-, _, hwalk⟩ := h
  obtain ⟨-, _, hwalk'⟩ := h'
  exact congrArg Arrival.place (hwalk.unique hwalk')

theorem Keeps.leadsTo (h : files.Keeps other) (hleads : files.LeadsTo base place) :
    other.LeadsTo base place := by
  obtain ⟨hdirectory, linksLeft, hwalk⟩ := hleads
  refine ⟨h.hasDirectory hdirectory, linksLeft, ?_⟩
  rw [h.workingDirectory]
  exact h.walks hwalk hdirectory

theorem leadsTo_trim_iff : files.LeadsTo base.trim place ↔ files.LeadsTo base place := by
  obtain ⟨fillers, hfillers, hsteps⟩ := base.exists_steps_eq_trim
  have hstart : base.trim.startFrom files.workingDirectory =
      base.startFrom files.workingDirectory := by
    rw [Path.startFrom, Path.startFrom, base.isAbsolute_trim]
  unfold LeadsTo
  rw [hstart, hsteps]
  constructor
  · rintro ⟨hdirectory, linksLeft, hwalk⟩
    exact ⟨hdirectory, linksLeft, hwalk.append_fillers hdirectory hfillers⟩
  · rintro ⟨hdirectory, linksLeft, hwalk⟩
    obtain ⟨middle, hmiddle, hrest⟩ := hwalk.exists_of_append
    refine ⟨hdirectory, linksLeft, ?_⟩
    rw [hrest.eq_of_fillers hfillers]
    exact hmiddle

theorem leadsTo_dot_iff :
    files.LeadsTo ⟨"."⟩ place ↔ files.HasDirectory place ∧ place = files.workingDirectory := by
  constructor
  · rintro ⟨hdirectory, linksLeft, hwalk⟩
    have hdots : ∀ name ∈ (⟨"."⟩ : Path).steps, name = "." := by decide
    exact ⟨hdirectory, congrArg Arrival.place (hwalk.eq_of_fillers hdots)⟩
  · rintro ⟨hdirectory, rfl⟩
    exact ⟨hdirectory, Path.maxLinks, .stay hdirectory (.done hdirectory.isSome)⟩

/-! ## Entries by path -/

theorem entryFrom_snoc_eq_ok_iff {links : Nat} {start : Location} {names : List String}
    {asDirectory : Bool} {entry : DirectoryEntry} {linksLeft : Nat} :
    files.entryFrom links start (names ++ [name]) asDirectory = .ok (entry, linksLeft) ↔
      ∃ place, files.HasDirectory place ∧ files.Walks links start names ⟨place, linksLeft⟩ ∧
        entry = ⟨place, name, asDirectory⟩ := by
  unfold entryFrom HasDirectory
  simp only [List.getLast?_concat, List.dropLast_concat]
  constructor
  · intro h
    split at h
    · cases h
    · next arrival hwalk =>
        split at h
        · next tree htree =>
            split at h
            · next hdirectory =>
                cases h
                exact ⟨arrival.place, ⟨tree, htree, hdirectory⟩, walks_of_walk hwalk, rfl⟩
            · cases h
        · cases h
  · rintro ⟨place, ⟨tree, htree, hdirectory⟩, hwalk, rfl⟩
    simp [hwalk.walk_eq, htree, hdirectory]

/-- The entry of a file in a directory is found where the path of the directory leads. -/
theorem entry_join_eq_ok_iff (hname : PlainName name) {entry : DirectoryEntry} :
    files.entry (base.join ⟨name⟩) = .ok entry ↔
      (base.join ⟨name⟩).checkLength = .ok () ∧
        ∃ place, files.LeadsTo base place ∧ entry = ⟨place, name, false⟩ := by
  unfold FileSystem.entry
  rw [base.steps_join hname, base.endsInSlash_join hname, base.startFrom_join hname,
    bind_eq_ok_iff]
  constructor
  · rintro ⟨⟨⟩, hlength, h⟩
    obtain ⟨⟨found, linksLeft⟩, hfound, h⟩ := bind_eq_ok_iff.mp h
    cases h
    obtain ⟨place, hdirectory, hwalk, rfl⟩ := entryFrom_snoc_eq_ok_iff.mp hfound
    exact ⟨hlength, place, ⟨hdirectory, linksLeft, hwalk⟩, rfl⟩
  · rintro ⟨hlength, place, ⟨hdirectory, linksLeft, hwalk⟩, rfl⟩
    refine ⟨(), hlength, bind_eq_ok_iff.mpr ⟨(⟨place, name, false⟩, linksLeft), ?_, rfl⟩⟩
    exact entryFrom_snoc_eq_ok_iff.mpr ⟨place, hdirectory, hwalk, rfl⟩

/-- The path of a proper entry leads along its other names to the directory of the entry. -/
theorem exists_walks_of_entry {path : Path} {entry : DirectoryEntry}
    (h : files.entry path = .ok entry) (hproper : entry.isProper = true) :
    path.checkLength = .ok () ∧ entry.asDirectory = path.endsInSlash ∧
      Path.isEntryName entry.name = true ∧ files.HasDirectory entry.directory ∧
      ∃ names linksLeft, path.steps = names ++ [entry.name] ∧
        files.Walks Path.maxLinks (path.startFrom files.workingDirectory) names
          ⟨entry.directory, linksLeft⟩ := by
  obtain ⟨⟨⟩, hlength, h⟩ := bind_eq_ok_iff.mp h
  obtain ⟨⟨found, linksLeft⟩, hfound, h⟩ := bind_eq_ok_iff.mp h
  cases h
  rcases path.steps.eq_nil_or_concat' with hsteps | ⟨names, last, hsteps⟩
  · rw [hsteps] at hfound
    cases hfound
    simp [DirectoryEntry.isProper] at hproper
  · rw [hsteps] at hfound
    obtain ⟨place, hdirectory, hwalk, rfl⟩ := entryFrom_snoc_eq_ok_iff.mp hfound
    simp only [DirectoryEntry.isProper, Bool.and_eq_true] at hproper
    exact ⟨hlength, rfl, hproper.2, hdirectory, names, linksLeft, hsteps, hwalk⟩

/-- A path that stands for a proper entry, without a slash at its end, ends in the name of it. -/
theorem exists_join_of_entry {path : Path} {entry : DirectoryEntry}
    (h : files.entry path = .ok entry) (hproper : entry.isProper = true)
    (hfile : entry.asDirectory = false) :
    ∃ base : Path, PlainName entry.name ∧ path = base.join ⟨entry.name⟩ := by
  obtain ⟨-, hslash, hname, -, names, -, hsteps, -⟩ := exists_walks_of_entry h hproper
  exact Path.exists_join_eq (hslash ▸ hfile) hsteps hname

theorem isProper_of_plainName (hname : PlainName name) (place : Location) (asDirectory : Bool) :
    DirectoryEntry.isProper ⟨place, name, asDirectory⟩ = true := by
  have hempty : name ≠ "" := by
    rintro rfl
    exact hname.ne_nil rfl
  simp [DirectoryEntry.isProper, hname.isEntryName, hempty]

theorem lookup_eq_ok_iff {entry : DirectoryEntry} {found : Option FileTree} :
    files.lookup entry = .ok found ↔
      entry.name.utf8ByteSize ≤ Path.maxNameBytes ∧ files.get? entry.place = found := by
  unfold lookup
  split
  · next h => simp [Nat.not_le.mpr h]
  · next h => simp [Nat.le_of_not_lt h]

/-! ## Reading -/

theorem check_of_checkLength {path : Path} (h : path.checkLength = .ok ()) :
    path.check = .ok () := by
  unfold Path.checkLength at h
  unfold Path.check
  split at h
  · cases h
  · next hnul =>
      split at h
      · cases h
      · next hempty => rw [if_neg hnul, if_neg hempty]

/-- What is in a directory is found by its path, if it is no link. -/
theorem stat_join (hname : PlainName name) (hlength : (base.join ⟨name⟩).checkLength = .ok ())
    (hshort : name.utf8ByteSize ≤ Path.maxNameBytes) (hleads : files.LeadsTo base place)
    {tree : FileTree} (htree : files.get? (place ++ [name]) = some tree)
    (hlink : ∀ target, tree ≠ .link target) : files.stat (base.join ⟨name⟩) = .ok tree := by
  obtain ⟨hdirectory, linksLeft, hwalk⟩ := hleads
  have hentry : files.Walks linksLeft place [name] ⟨place ++ [name], linksLeft⟩ := by
    apply Walks.down hdirectory hname.isEntryName hshort htree hlink
    apply Walks.done
    rw [htree]
    rfl
  have hcanonical : files.canonical (base.join ⟨name⟩) = .ok (place ++ [name]) := by
    unfold canonical Path.stepsThrough
    rw [check_of_checkLength hlength, base.startFrom_join hname, base.endsInSlash_join hname,
      base.steps_join hname]
    simp only [Bool.false_eq_true, if_false, (hwalk.append hentry).walk_eq]
    rfl
  unfold stat
  refine bind_eq_ok_iff.mpr ⟨(), hlength, bind_eq_ok_iff.mpr ⟨_, hcanonical, ?_⟩⟩
  rw [htree]

/-- A file in a directory is read by its path, if it is no link. -/
theorem readBytes_join (hname : PlainName name) (hlength : (base.join ⟨name⟩).checkLength = .ok ())
    (hshort : name.utf8ByteSize ≤ Path.maxNameBytes) (hleads : files.LeadsTo base place)
    {content : ByteArray} (hfile : files.get? (place ++ [name]) = some (.file content)) :
    files.readBytes (base.join ⟨name⟩) = .ok content := by
  have hstat := stat_join hname hlength hshort hleads hfile (by rintro target ⟨⟩)
  unfold readBytes
  exact bind_eq_ok_iff.mpr ⟨_, hstat, rfl⟩

/-- If something is found by the path of a file in a directory, the directory is there, and the
entry in it. -/
theorem exists_of_stat_join (hname : PlainName name) {found : FileTree}
    (h : files.stat (base.join ⟨name⟩) = .ok found) :
    ∃ place, files.LeadsTo base place ∧ ∃ tree, files.get? (place ++ [name]) = some tree := by
  obtain ⟨-, -, h⟩ := bind_eq_ok_iff.mp h
  obtain ⟨_, hcanonical, -⟩ := bind_eq_ok_iff.mp h
  unfold canonical Path.stepsThrough at hcanonical
  rw [base.startFrom_join hname, base.endsInSlash_join hname, base.steps_join hname] at hcanonical
  split at hcanonical
  · cases hcanonical
  · cases hwalk : files.walk Path.maxLinks (base.startFrom files.workingDirectory)
        (base.steps ++ [name]) with
    | error fault => simp [hwalk, Except.map] at hcanonical
    | ok arrival =>
        obtain ⟨middle, hmiddle, hrest⟩ := (walks_of_walk hwalk).exists_of_append
        exact ⟨middle.place, ⟨hrest.hasDirectory_of_cons, middle.linksLeft, hmiddle⟩,
          hrest.exists_entry hname.isEntryName⟩

theorem exists_of_readBytes_join (hname : PlainName name) {content : ByteArray}
    (h : files.readBytes (base.join ⟨name⟩) = .ok content) :
    ∃ place, files.LeadsTo base place ∧ ∃ tree, files.get? (place ++ [name]) = some tree := by
  unfold readBytes at h
  obtain ⟨tree, hstat, -⟩ := bind_eq_ok_iff.mp h
  exact exists_of_stat_join hname hstat

theorem regularContent?_of_stat {path : Path} {tree : FileTree} (h : files.stat path = .ok tree) :
    files.regularContent? path = tree.bytes? := by
  unfold regularContent? isRegular readBytes
  rw [h]
  cases tree <;> rfl

/-- What is remembered of an entry is the bytes of a regular file that can be read. -/
theorem regularContent?_join (hname : PlainName name)
    (hlength : (base.join ⟨name⟩).checkLength = .ok ())
    (hshort : name.utf8ByteSize ≤ Path.maxNameBytes) (hleads : files.LeadsTo base place)
    (hnowhere : FileTree.LeadsNowhere (files.get? (place ++ [name]))) :
    files.regularContent? (base.join ⟨name⟩) =
      (files.get? (place ++ [name])).bind FileTree.bytes? := by
  cases hfound : files.get? (place ++ [name]) with
  | none =>
      cases hstat : files.stat (base.join ⟨name⟩) with
      | error fault => simp [regularContent?, isRegular, hstat]
      | ok found =>
          obtain ⟨other, hother, tree, htree⟩ := exists_of_stat_join hname hstat
          rw [hother.unique hleads, hfound] at htree
          cases htree
  | some tree =>
      have hlink : ∀ target, tree ≠ .link target := by
        rintro target rfl
        cases hnowhere _ hfound
      exact regularContent?_of_stat (stat_join hname hlength hshort hleads hfound hlink)

/-- A directory that a path leads to is found by the path. -/
theorem exists_stat_of_leadsTo (hlength : base.checkLength = .ok ())
    (hleads : files.LeadsTo base place) :
    ∃ tree, files.stat base = .ok tree ∧ tree.isDirectory = true := by
  obtain ⟨hdirectory, linksLeft, hwalk⟩ := hleads
  have hcanonical : files.canonical base = .ok place := by
    have hthrough : files.Walks Path.maxLinks (base.startFrom files.workingDirectory)
        base.stepsThrough ⟨place, linksLeft⟩ := by
      unfold Path.stepsThrough
      split
      · exact hwalk.append_fillers hdirectory (by simp)
      · exact hwalk
    unfold canonical
    rw [check_of_checkLength hlength]
    simp only [hthrough.walk_eq]
    rfl
  obtain ⟨tree, htree, hdirectory⟩ := hdirectory
  refine ⟨tree, ?_, hdirectory⟩
  unfold stat
  refine bind_eq_ok_iff.mpr ⟨(), hlength, bind_eq_ok_iff.mpr ⟨place, hcanonical, ?_⟩⟩
  rw [htree]

theorem pathExists_of_leadsTo (hlength : base.checkLength = .ok ())
    (hleads : files.LeadsTo base place) : files.pathExists base = true := by
  obtain ⟨tree, hstat, -⟩ := exists_stat_of_leadsTo hlength hleads
  unfold pathExists
  rw [hstat]

theorem isDirectory_iff :
    files.isDirectory base = true ↔
      base.checkLength = .ok () ∧ ∃ place, files.LeadsTo base place := by
  constructor
  · intro h
    unfold isDirectory at h
    split at h
    · next tree hstat =>
        obtain ⟨⟨⟩, hlength, hstat⟩ := bind_eq_ok_iff.mp hstat
        obtain ⟨place, hcanonical, hstat⟩ := bind_eq_ok_iff.mp hstat
        refine ⟨hlength, place, ?_⟩
        split at hstat
        · next htree =>
            cases hstat
            have hdirectory : files.HasDirectory place := ⟨tree, htree, h⟩
            unfold canonical at hcanonical
            split at hcanonical
            · cases hcanonical
            · cases hwalk : files.walk Path.maxLinks (base.startFrom files.workingDirectory)
                  base.stepsThrough with
              | error fault => simp [hwalk, Except.map] at hcanonical
              | ok arrival =>
                  simp only [hwalk, Except.map, Except.ok.injEq] at hcanonical
                  subst hcanonical
                  have hwalks := walks_of_walk hwalk
                  unfold Path.stepsThrough at hwalks
                  split at hwalks
                  · obtain ⟨middle, hmiddle, hrest⟩ := hwalks.exists_of_append
                    have hsame := hrest.eq_of_fillers (by simp)
                    refine ⟨hdirectory, middle.linksLeft, ?_⟩
                    rw [hsame]
                    exact hmiddle
                  · exact ⟨hdirectory, arrival.linksLeft, hwalks⟩
        · cases hstat
    · cases h
  · rintro ⟨hlength, place, hleads⟩
    obtain ⟨tree, hstat, hdirectory⟩ := exists_stat_of_leadsTo hlength hleads
    unfold isDirectory
    rw [hstat]
    exact hdirectory

/-! ## Writing -/

/-- `spot` is an entry of a directory, with nothing there that a walk goes on from. -/
structure Writable (files : FileSystem) (spot : Location) : Prop where
  entry : ∃ place name, spot = place ++ [name] ∧ files.HasDirectory place
  leadsNowhere : FileTree.LeadsNowhere (files.get? spot)

/-- What opening an entry meets. -/
theorem openEntry_snoc_eq_ok {links : Nat} {start : Location} {names : List String}
    {asDirectory : Bool} {opening : Opening}
    (h : files.openEntry links start (names ++ [name]) asDirectory = .ok opening) :
    ∃ place linksLeft, files.HasDirectory place ∧
      files.Walks links start names ⟨place, linksLeft⟩ ∧
      name.utf8ByteSize ≤ Path.maxNameBytes ∧
      ((∃ target, files.get? (place ++ [name]) = some (.link target) ∧
          opening = .link place target linksLeft) ∨
        files.Writable (place ++ [name]) ∧ opening = .place (place ++ [name])) := by
  unfold openEntry at h
  split at h
  · cases h
  · next entry linksLeft hentry =>
      obtain ⟨place, hdirectory, hwalk, rfl⟩ := entryFrom_snoc_eq_ok_iff.mp hentry
      refine ⟨place, linksLeft, hdirectory, hwalk, ?_⟩
      split at h
      · cases h
      · cases hlookup : files.lookup ⟨place, name, asDirectory⟩ with
        | error fault => simp [hlookup] at h
        | ok found =>
            obtain ⟨hshort, hfound⟩ := lookup_eq_ok_iff.mp hlookup
            refine ⟨hshort, ?_⟩
            rw [hlookup] at h
            have hwritable : FileTree.LeadsNowhere found → files.Writable (place ++ [name]) := by
              intro hnowhere
              rw [← hfound] at hnowhere
              exact ⟨⟨place, name, rfl, hdirectory⟩, hnowhere⟩
            rcases found with _ | tree
            · cases h
              exact .inr ⟨hwritable FileTree.leadsNowhere_none, rfl⟩
            · cases tree with
              | link target =>
                  cases h
                  exact .inl ⟨target, hfound, rfl⟩
              | directory children => cases h
              | sealed content => cases h
              | file content =>
                  cases h
                  exact .inr ⟨hwritable (FileTree.leadsNowhere_file content), rfl⟩
              | device kind =>
                  cases h
                  exact .inr ⟨hwritable (by rintro _ ⟨⟩; rfl), rfl⟩

theorem exists_snoc_of_openEntry {links : Nat} {start : Location} {names : List String}
    {asDirectory : Bool} {opening : Opening}
    (h : files.openEntry links start names asDirectory = .ok opening) :
    ∃ init name, names = init ++ [name] := by
  rcases names.eq_nil_or_concat' with rfl | ⟨init, name, rfl⟩
  · simp [openEntry, entryFrom, DirectoryEntry.isProper] at h
  · exact ⟨init, name, rfl⟩

/-- Whatever links are followed, what is written to is no link and no directory. -/
theorem writable_of_writePlace {links : Nat} {start : Location} {names : List String}
    {asDirectory : Bool} {spot : Location}
    (h : files.writePlace links start names asDirectory = .ok spot) : files.Writable spot := by
  fun_induction FileSystem.writePlace files links start names asDirectory with
  | case1 => cases h
  | case2 links start names asDirectory place hopen =>
      cases h
      obtain ⟨init, name, rfl⟩ := exists_snoc_of_openEntry hopen
      obtain ⟨_, _, -, -, -, ⟨_, -, hlink⟩ | ⟨hwritable, hplace⟩⟩ := openEntry_snoc_eq_ok hopen
      · cases hlink
      · cases hplace
        exact hwritable
  | case3 => cases h
  | case4 links start names asDirectory directory target linksLeft hopen ih => exact ih h

/-- A file is filled, or it holds less than it should, or the files are as they were. -/
theorem fill_cases (files : FileSystem) (spot : Location) (content : ByteArray) :
    (files.shortfall? spot content = none ∧
        files.fill spot content = (files.put spot (.file content), .ok ())) ∨
      (∃ short, files.shortfall? spot content = some short ∧
        files.fill spot content = (files.put spot (.file short.held), .error short.fault)) ∨
      ∃ fault, files.fill spot content = (files, .error fault) := by
  unfold fill
  split
  · exact .inr (.inr ⟨_, rfl⟩)
  · exact .inr (.inr ⟨_, rfl⟩)
  · split
    · next hshort => exact .inl ⟨hshort, rfl⟩
    · next short hshort => exact .inr (.inl ⟨short, hshort, rfl⟩)

theorem fill_eq_ok {spot : Location} {content : ByteArray}
    (h : files.fill spot content = (other, .ok ())) :
    files.shortfall? spot content = none ∧ other = files.put spot (.file content) := by
  rcases fill_cases files spot content with ⟨hshort, hfill⟩ | ⟨short, -, hfill⟩ | ⟨fault, hfill⟩
  · cases hfill.symm.trans h
    exact ⟨hshort, rfl⟩
  · cases hfill.symm.trans h
  · cases hfill.symm.trans h

theorem fill_eq_error {spot : Location} {content : ByteArray} {fault : FileFault}
    (h : files.fill spot content = (other, .error fault)) :
    other = files ∨ ∃ held, other = files.put spot (.file held) := by
  rcases fill_cases files spot content with ⟨-, hfill⟩ | ⟨short, -, hfill⟩ | ⟨fault, hfill⟩
  · cases hfill.symm.trans h
  · cases hfill.symm.trans h
    exact .inr ⟨short.held, rfl⟩
  · cases hfill.symm.trans h
    exact .inl rfl

/-- The place that a write by `path` fills. -/
def WritesAt (files : FileSystem) (path : Path) (spot : Location) : Prop :=
  path.checkLength = .ok () ∧
    files.writePlace Path.maxLinks (path.startFrom files.workingDirectory) path.steps
      path.endsInSlash = .ok spot

theorem write_eq_of_writesAt {path : Path} {spot : Location} (h : files.WritesAt path spot)
    (content : ByteArray) :
    files.write path content =
      match files.fill spot content with
      | (files, .ok ()) => (files, .ok ())
      | (files, .error fault) => (files, .error (.notFilled fault)) := by
  unfold write
  cases hfill : files.fill spot content with
  | mk after result => cases result <;> simp [h.1, h.2, hfill, bind, Except.bind]

theorem write_cases (files : FileSystem) (path : Path) (content : ByteArray) :
    (∃ fault, files.write path content = (files, .error (.notOpened fault))) ∨
      ∃ spot, files.WritesAt path spot := by
  cases hopened : (do
      path.checkLength
      files.writePlace Path.maxLinks (path.startFrom files.workingDirectory) path.steps
        path.endsInSlash) with
  | error fault =>
      left
      refine ⟨fault, ?_⟩
      unfold write
      simp only [hopened]
  | ok spot =>
      obtain ⟨⟨⟩, hlength, hspot⟩ := bind_eq_ok_iff.mp hopened
      exact .inr ⟨spot, hlength, hspot⟩

theorem write_eq_ok {path : Path} {content : ByteArray}
    (h : files.write path content = (other, .ok ())) :
    ∃ spot, files.WritesAt path spot ∧ files.shortfall? spot content = none ∧
      other = files.put spot (.file content) := by
  rcases write_cases files path content with ⟨fault, hfails⟩ | ⟨spot, hspot⟩
  · cases hfails.symm.trans h
  · rw [write_eq_of_writesAt hspot] at h
    split at h
    · next hfill =>
        cases h
        exact ⟨spot, hspot, fill_eq_ok hfill⟩
    · cases h

/-- A write that fails has changed nothing, or begun to fill the file. -/
theorem write_eq_error {path : Path} {content : ByteArray} {fault : WriteFault}
    (h : files.write path content = (other, .error fault)) :
    other = files ∨ ∃ spot held, files.WritesAt path spot ∧ other = files.put spot (.file held) := by
  rcases write_cases files path content with ⟨fault, hfails⟩ | ⟨spot, hspot⟩
  · cases hfails.symm.trans h
    exact .inl rfl
  · rw [write_eq_of_writesAt hspot] at h
    split at h
    · cases h
    · next hfill =>
        cases h
        exact (fill_eq_error hfill).imp_right fun ⟨held, hother⟩ => ⟨spot, held, hspot, hother⟩

theorem eq_of_write_notOpened {path : Path} {content : ByteArray} {fault : FileFault}
    (h : files.write path content = (other, .error (.notOpened fault))) : other = files := by
  rcases write_cases files path content with ⟨fault, hfails⟩ | ⟨spot, hspot⟩
  · cases hfails.symm.trans h
    rfl
  · rw [write_eq_of_writesAt hspot] at h
    split at h
    · cases h
    · cases h

/-- What is written by the path of a file in a directory: that entry itself, unless it is a link. -/
theorem WritesAt.of_join (hname : PlainName name) {spot : Location}
    (h : files.WritesAt (base.join ⟨name⟩) spot) :
    (base.join ⟨name⟩).checkLength = .ok () ∧ name.utf8ByteSize ≤ Path.maxNameBytes ∧
      ∃ place, files.LeadsTo base place ∧ files.Writable spot ∧
        ((∃ target, files.get? (place ++ [name]) = some (.link target)) ∨
          spot = place ++ [name]) := by
  obtain ⟨hlength, hspot⟩ := h
  have hwritable := writable_of_writePlace hspot
  rw [base.startFrom_join hname, base.steps_join hname, base.endsInSlash_join hname,
    writePlace] at hspot
  have hopened : ∃ opening, files.openEntry Path.maxLinks
      (base.startFrom files.workingDirectory) (base.steps ++ [name]) false = .ok opening ∧
      ∀ place, opening = .place place → spot = place := by
    split at hspot
    · cases hspot
    · next place hopen =>
        cases hspot
        refine ⟨_, hopen, ?_⟩
        rintro place ⟨⟩
        rfl
    · cases hspot
    · next hopen =>
        refine ⟨_, hopen, ?_⟩
        rintro place ⟨⟩
  obtain ⟨opening, hopen, hsame⟩ := hopened
  -- Only the first opening is of this entry; behind a link there may be more.
  obtain ⟨place, linksLeft, hdirectory, hwalk, hshort, hopening⟩ := openEntry_snoc_eq_ok hopen
  refine ⟨hlength, hshort, place, ⟨hdirectory, linksLeft, hwalk⟩, hwritable, ?_⟩
  rcases hopening with ⟨target, hlink, -⟩ | ⟨-, hplace⟩
  · exact .inl ⟨target, hlink⟩
  · exact .inr (hsame _ hplace)

theorem writePlace_of_openEntry {links : Nat} {start : Location} {names : List String}
    {asDirectory : Bool} {spot : Location}
    (h : files.openEntry links start names asDirectory = .ok (.place spot)) :
    files.writePlace links start names asDirectory = .ok spot := by
  rw [writePlace]
  split <;> simp_all

theorem writePlace_of_link {links linksLeft : Nat} {start directory : Location}
    {names : List String} {asDirectory : Bool} {target : Path}
    (h : files.openEntry links start names asDirectory =
      .ok (.link directory target (linksLeft + 1))) :
    files.writePlace links start names asDirectory =
      files.writePlace linksLeft (target.startFrom directory) target.steps target.endsInSlash := by
  rw [writePlace]
  split <;> simp_all

/-- A file may be written in any directory, if its path and its name are short enough. -/
theorem writesAt_join (hname : PlainName name)
    (hlength : (base.join ⟨name⟩).checkLength = .ok ())
    (hshort : name.utf8ByteSize ≤ Path.maxNameBytes) (hleads : files.LeadsTo base place)
    (hfree : FileTree.Overwritable (files.get? (place ++ [name]))) :
    files.WritesAt (base.join ⟨name⟩) (place ++ [name]) := by
  obtain ⟨hdirectory, linksLeft, hwalk⟩ := hleads
  have hentry : files.entryFrom Path.maxLinks (base.startFrom files.workingDirectory)
      (base.steps ++ [name]) false = .ok (⟨place, name, false⟩, linksLeft) :=
    entryFrom_snoc_eq_ok_iff.mpr ⟨place, hdirectory, hwalk, rfl⟩
  have hlookup : files.lookup ⟨place, name, false⟩ = .ok (files.get? (place ++ [name])) :=
    lookup_eq_ok_iff.mpr ⟨hshort, rfl⟩
  refine ⟨hlength, ?_⟩
  rw [base.startFrom_join hname, base.steps_join hname, base.endsInSlash_join hname]
  apply writePlace_of_openEntry
  unfold openEntry
  rw [hentry]
  rcases hfree.cases with hfound | ⟨held, hfound⟩
  · simp [isProper_of_plainName hname, hlookup, hfound, DirectoryEntry.place]
  · simp [isProper_of_plainName hname, hlookup, hfound, DirectoryEntry.place]

theorem fill_of_overwritable {spot : Location}
    (h : FileTree.Overwritable (files.get? spot)) (content : ByteArray) :
    files.fill spot content =
      match files.shortfall? spot content with
      | none => (files.put spot (.file content), .ok ())
      | some short => (files.put spot (.file short.held), .error short.fault) := by
  unfold fill
  rcases h.cases with hfound | ⟨held, hfound⟩
  · cases files.shortfall? spot content <;> simp [hfound]
  · cases files.shortfall? spot content <;> simp [hfound]

/-- Putting something where nothing leads on keeps all that a walk needs. -/
theorem Writable.keeps {spot : Location} (h : files.Writable spot) (new : FileTree) :
    files.Keeps (files.put spot new) := by
  obtain ⟨⟨place, name, rfl, hdirectory⟩, hnowhere⟩ := h
  apply (within_put files place name _).keeps
  intro other
  by_cases hother : other = name
  · subst hother
    exact .inl hnowhere
  · right
    rw [get?_put_entry hdirectory, if_neg hother]

/-- Erasing what leads nowhere keeps all that a walk needs. -/
theorem Writable.keeps_erase {spot : Location} (h : files.Writable spot) :
    files.Keeps (files.erase spot) := by
  obtain ⟨⟨place, name, rfl, hdirectory⟩, hnowhere⟩ := h
  apply (within_erase files place name).keeps
  intro other
  by_cases hother : other = name
  · subst hother
    exact .inl hnowhere
  · right
    rw [get?_erase_entry hdirectory, if_neg hother]

/-! ## Renaming -/

/-- What a rename that works finds, and what it does. -/
theorem rename_eq_ok {old new : Path} (h : files.rename old new = .ok other) :
    ∃ source target moved, files.entry old = .ok source ∧ files.entry new = .ok target ∧
      source.name.utf8ByteSize ≤ Path.maxNameBytes ∧
      target.name.utf8ByteSize ≤ Path.maxNameBytes ∧
      files.get? source.place = some moved ∧
      (source.place = target.place ∧ other = files ∨
        source.place ≠ target.place ∧
          (∀ children, files.get? target.place = some (.directory children) → children = []) ∧
          other = (files.erase source.place).put target.place moved) := by
  unfold rename at h
  obtain ⟨source, hsource, h⟩ := bind_eq_ok_iff.mp h
  obtain ⟨target, htarget, h⟩ := bind_eq_ok_iff.mp h
  refine ⟨source, target, ?_⟩
  split at h
  · cases h
  · obtain ⟨found, hfound, h⟩ := bind_eq_ok_iff.mp h
    obtain ⟨hshort, hmoved⟩ := lookup_eq_ok_iff.mp hfound
    split at h
    · cases h
    · next moved =>
        obtain ⟨replaced, hreplaced, h⟩ := bind_eq_ok_iff.mp h
        obtain ⟨hshort', hreplaced⟩ := lookup_eq_ok_iff.mp hreplaced
        refine ⟨moved, hsource, htarget, hshort, hshort', hmoved, ?_⟩
        rw [← hreplaced] at h
        split at h
        · split at h
          · cases h
          · split at h
            · cases h
            · split at h
              · next hsame =>
                  cases h
                  exact .inl ⟨hsame, rfl⟩
              · next hne =>
                  right
                  split at h
                  · next hnone =>
                      cases h
                      exact ⟨hne, by rw [hnone]; simp, rfl⟩
                  · next children hchildren =>
                      split at h
                      · next hempty =>
                          cases h
                          refine ⟨hne, ?_, rfl⟩
                          intro others hothers
                          cases hchildren.symm.trans hothers
                          exact hempty
                      · cases h
                  · cases h
        · split at h
          · cases h
          · split at h
            · cases h
            · split at h
              · next hsame =>
                  cases h
                  exact .inl ⟨hsame, rfl⟩
              · next hne =>
                  right
                  split at h
                  · cases h
                  · next hnot =>
                      cases h
                      refine ⟨hne, ?_, rfl⟩
                      intro children hchildren
                      exact absurd hchildren (hnot children)

/-- What is no directory is moved to any other name of its directory that is not one's either. -/
theorem rename_eq {old new : Path} {oldName newName : String} {moved : FileTree}
    (hold : files.entry old = .ok ⟨place, oldName, false⟩) (holdName : PlainName oldName)
    (holdShort : oldName.utf8ByteSize ≤ Path.maxNameBytes)
    (hnew : files.entry new = .ok ⟨place, newName, false⟩) (hnewName : PlainName newName)
    (hnewShort : newName.utf8ByteSize ≤ Path.maxNameBytes) (hne : oldName ≠ newName)
    (hplain : moved.isDirectory = false) (hmoved : files.get? (place ++ [oldName]) = some moved)
    (htarget : ∀ children, files.get? (place ++ [newName]) ≠ some (.directory children)) :
    files.rename old new =
      .ok ((files.erase (place ++ [oldName])).put (place ++ [newName]) moved) := by
  have hsource : files.lookup ⟨place, oldName, false⟩ = .ok (some moved) :=
    lookup_eq_ok_iff.mpr ⟨holdShort, hmoved⟩
  have hreplaced : files.lookup ⟨place, newName, false⟩ = .ok (files.get? (place ++ [newName])) :=
    lookup_eq_ok_iff.mpr ⟨hnewShort, rfl⟩
  have hplaces : place ++ [oldName] ≠ place ++ [newName] := by
    intro hsame
    exact hne (List.singleton_inj.mp (List.append_cancel_left hsame))
  have houter : ¬ place ++ [newName] <+: place := by
    intro hinit
    have := hinit.length_le
    rw [List.length_append, List.length_singleton] at this
    omega
  unfold rename
  simp only [hold, hnew, hsource, hreplaced, isProper_of_plainName holdName,
    isProper_of_plainName hnewName, DirectoryEntry.place, bind, Except.bind, Bool.not_true,
    Bool.or_self, Bool.false_eq_true, if_false, hplain, houter, hplaces]

/-- A link elsewhere stays when an entry is moved in a directory, or goes with the entry. -/
theorem get?_link_of_move (hdirectory : files.HasDirectory place) {old new : String}
    {moved : FileTree} {target : Path} {elsewhere : Location}
    (hempty : ∀ children,
      files.get? (place ++ [new]) = some (.directory children) → children = [])
    (hlink : files.get? elsewhere = some (.link target)) (hne : elsewhere ≠ place ++ [new]) :
    ((files.erase (place ++ [old])).put (place ++ [new]) moved).get? elsewhere =
        some (.link target) ∨
      ((files.erase (place ++ [old])).put (place ++ [new]) moved).get? elsewhere = none := by
  -- What is replaced is no directory with something in it: the link is not below it.
  have hnew : ¬ place ++ [new] <+: elsewhere := by
    rintro ⟨below, rfl⟩
    have hbelow : below ≠ [] := by
      rintro rfl
      exact hne (List.append_nil _)
    obtain ⟨tree, htree, htreedir⟩ := hasDirectory_of_append hbelow hlink
    cases tree with
    | directory children =>
        rw [get?_append, htree, hempty children htree] at hlink
        cases below with
        | nil => exact hbelow rfl
        | cons next below => cases hlink
    | _ => cases htreedir
  have hdirectory' : (files.erase (place ++ [old])).HasDirectory place :=
    (within_erase files place old).hasDirectory_iff.mpr hdirectory
  have htrunk := trunk?_put hdirectory' hnew moved
  by_cases hold : place ++ [old] <+: elsewhere
  · right
    rw [← trunk?_eq_none_iff, htrunk, trunk?_eq_none_iff]
    exact get?_erase_of_prefix hdirectory hold
  · left
    rw [← trunk?_eq_link_iff, htrunk, trunk?_erase hdirectory hold, trunk?_eq_link_iff]
    exact hlink

/-- A file is only renamed to a path that ends in a name, which names no directory. -/
theorem rename_file_eq_ok {old new : Path} {source : DirectoryEntry} {content : ByteArray}
    (hsource : files.entry old = .ok source)
    (hfile : files.get? source.place = some (.file content))
    (h : files.rename old new = .ok other) :
    ∃ target, files.entry new = .ok target ∧ target.isProper = true ∧
      target.asDirectory = false ∧
      ∀ children, files.get? target.place ≠ some (.directory children) := by
  obtain ⟨source', target, -, hsource', htarget, hshort, hshort', -, -⟩ := rename_eq_ok h
  cases hsource.symm.trans hsource'
  have hmoved : files.lookup source = .ok (some (.file content)) :=
    lookup_eq_ok_iff.mpr ⟨hshort, hfile⟩
  have hreplaced : files.lookup target = .ok (files.get? target.place) :=
    lookup_eq_ok_iff.mpr ⟨hshort', rfl⟩
  unfold rename at h
  simp only [hsource, htarget, hmoved, hreplaced, bind, Except.bind, FileTree.isDirectory,
    Bool.false_eq_true, if_false] at h
  refine ⟨target, htarget, ?_⟩
  split at h
  · cases h
  · next hproper =>
      split at h
      · cases h
      · next hdirectory =>
          simp only [Bool.or_eq_true, Bool.not_eq_true', not_or, Bool.not_eq_false,
            Bool.not_eq_true] at hproper hdirectory
          refine ⟨hproper.2, hdirectory.2, ?_⟩
          intro children hchildren
          simp only [hchildren] at h
          split at h
          · cases h
          · split at h
            · next hsame =>
                rw [← hsame, hfile] at hchildren
                cases hchildren
            · cases h

/-! ## Removing -/

theorem removeFile_join_eq_ok_iff (hname : PlainName name) :
    files.removeFile (base.join ⟨name⟩) = .ok other ↔
      (base.join ⟨name⟩).checkLength = .ok () ∧ name.utf8ByteSize ≤ Path.maxNameBytes ∧
        ∃ place, files.LeadsTo base place ∧ other = files.erase (place ++ [name]) ∧
          ∃ tree, files.get? (place ++ [name]) = some tree ∧ tree.isDirectory = false := by
  unfold removeFile
  rw [bind_eq_ok_iff]
  simp only [entry_join_eq_ok_iff hname]
  constructor
  · rintro ⟨entry, ⟨hlength, place, hleads, rfl⟩, h⟩
    rw [isProper_of_plainName hname] at h
    obtain ⟨found, hfound, h⟩ := bind_eq_ok_iff.mp h
    obtain ⟨hshort, hget⟩ := lookup_eq_ok_iff.mp hfound
    refine ⟨hlength, hshort, place, hleads, ?_⟩
    split at h
    · cases h
    · cases h
    · next tree hnot =>
        cases h
        refine ⟨rfl, tree, hget, ?_⟩
        cases tree with
        | directory children => exact absurd rfl (hnot children)
        | _ => rfl
  · rintro ⟨hlength, hshort, place, hleads, rfl, tree, htree, hfile⟩
    have hlookup : files.lookup ⟨place, name, false⟩ = .ok (some tree) :=
      lookup_eq_ok_iff.mpr ⟨hshort, htree⟩
    refine ⟨_, ⟨hlength, place, hleads, rfl⟩, ?_⟩
    rw [isProper_of_plainName hname, hlookup]
    cases tree with
    | directory children => cases hfile
    | _ => rfl

/-- A file stays a file when something else is written, and what is written is a file. -/
theorem Writable.exists_get?_put {spot elsewhere : Location} (h : files.Writable spot)
    {held : ByteArray} (hfile : files.get? elsewhere = some (.file held)) (content : ByteArray) :
    ∃ holds, (files.put spot (.file content)).get? elsewhere = some (.file holds) := by
  obtain ⟨⟨place, name, rfl, hdirectory⟩, hnowhere⟩ := h
  by_cases hinit : place ++ [name] <+: elsewhere
  · obtain ⟨below, rfl⟩ := hinit
    cases below with
    | nil =>
        rw [List.append_nil, get?_put_entry hdirectory, if_pos rfl]
        exact ⟨content, rfl⟩
    | cons next below =>
        obtain ⟨tree, htree, htreedir⟩ := hasDirectory_of_append (by simp) hfile
        cases (hnowhere tree htree).symm.trans (FileTree.leadsOn_of_isDirectory htreedir)
  · refine ⟨held, ?_⟩
    rw [← trunk?_eq_file_iff, trunk?_put hdirectory hinit, trunk?_eq_file_iff]
    exact hfile

end FileSystem

end FeatureFlags
