import FeatureFlags.Proofs.Trees

/-!
# Walks

What a walk that gets to its end does, name by name (`walks_of_walk`, `Walks.walk_eq`). A walk along
two lists of names is one along the first and then one along the second (`Walks.append`,
`Walks.exists_of_append`), and it goes the same way in every tree that keeps the directories and
links (`Keeps.walks`).
-/

namespace FeatureFlags.FileSystem

variable {files other : FileSystem}

/-! ## Successful walks -/

/-- A walk from `here` along some names, with `links` links to spend, gets to its end. -/
inductive Walks (files : FileSystem) : Nat → Location → List String → Arrival → Prop where
  | done {links : Nat} {here : Location} (hsome : (files.get? here).isSome) :
      Walks files links here [] ⟨here, links⟩
  | stay {links : Nat} {here : Location} {rest : List String} {arrival : Arrival}
      (hdirectory : files.HasDirectory here) (hrest : Walks files links here rest arrival) :
      Walks files links here ("." :: rest) arrival
  | up {links : Nat} {here : Location} {rest : List String} {arrival : Arrival}
      (hdirectory : files.HasDirectory here)
      (hrest : Walks files links here.dropLast rest arrival) :
      Walks files links here (".." :: rest) arrival
  | follow {links : Nat} {here : Location} {name : String} {target : Path} {rest : List String}
      {arrival : Arrival} (hdirectory : files.HasDirectory here)
      (hname : Path.isEntryName name = true) (hlength : name.utf8ByteSize ≤ Path.maxNameBytes)
      (hlink : files.get? (here ++ [name]) = some (.link target))
      (hrest : Walks files links (target.startFrom here) (target.stepsThrough ++ rest) arrival) :
      Walks files (links + 1) here (name :: rest) arrival
  | down {links : Nat} {here : Location} {name : String} {tree : FileTree} {rest : List String}
      {arrival : Arrival} (hdirectory : files.HasDirectory here)
      (hname : Path.isEntryName name = true) (hlength : name.utf8ByteSize ≤ Path.maxNameBytes)
      (hentry : files.get? (here ++ [name]) = some tree) (htree : ∀ target, tree ≠ .link target)
      (hrest : Walks files links (here ++ [name]) rest arrival) :
      Walks files links here (name :: rest) arrival

theorem get?_entry_of_child? {here : Location} {tree : FileTree} (h : files.get? here = some tree)
    (name : String) : files.get? (here ++ [name]) = tree.child? name :=
  FileTree.get?_snoc h name

theorem walks_of_walk {links : Nat} {here : Location} {names : List String} {arrival : Arrival}
    (h : files.walk links here names = .ok arrival) : files.Walks links here names arrival := by
  fun_induction FileSystem.walk files links here names with
  | case1 links here hsome =>
      cases h
      exact .done hsome
  | case2 => cases h
  | case3 => cases h
  | case4 => cases h
  | case5 links here rest tree htree hdirectory ih =>
      exact .stay ⟨tree, htree, by simpa using hdirectory⟩ (ih h)
  | case6 links here rest tree htree hdirectory _ ih =>
      exact .up ⟨tree, htree, by simpa using hdirectory⟩ (ih h)
  | case7 => cases h
  | case8 => cases h
  | case9 => cases h
  | case10 here name rest tree htree hdirectory hdot hdots hlong target hchild links ih =>
      refine .follow ⟨tree, htree, by simpa using hdirectory⟩ ?_ (Nat.le_of_not_lt hlong) ?_ (ih h)
      · simp [Path.isEntryName, hdot, hdots]
      · rw [get?_entry_of_child? htree, hchild]
  | case11 links here name rest tree htree hdirectory hdot hdots hlong child hlink hchild ih =>
      have hentry : files.get? (here ++ [name]) = some child := by
        rw [get?_entry_of_child? htree, hchild]
      refine .down ⟨tree, htree, by simpa using hdirectory⟩ ?_ (Nat.le_of_not_lt hlong) hentry
        (fun target heq => hlink target heq) (ih h)
      simp [Path.isEntryName, hdot, hdots]

theorem Walks.walk_eq {links : Nat} {here : Location} {names : List String} {arrival : Arrival}
    (h : files.Walks links here names arrival) : files.walk links here names = .ok arrival := by
  induction h with
  | done hsome => rw [FileSystem.walk, if_pos hsome]
  | stay hdirectory _ ih =>
      obtain ⟨tree, htree, hdirectory⟩ := hdirectory
      simp [FileSystem.walk, htree, hdirectory, ih]
  | up hdirectory _ ih =>
      obtain ⟨tree, htree, hdirectory⟩ := hdirectory
      simp [FileSystem.walk, htree, hdirectory, ih]
  | follow hdirectory hname hlength hlink _ ih =>
      obtain ⟨tree, htree, hdirectory⟩ := hdirectory
      rw [get?_entry_of_child? htree] at hlink
      simp only [Path.isEntryName, ne_eq, Bool.and_eq_true, decide_eq_true_eq] at hname
      simp [FileSystem.walk, htree, hdirectory, hname, Nat.not_lt.mpr hlength, hlink, ih]
  | @down _ _ _ entry _ _ hdirectory hname hlength hentry hlink _ ih =>
      obtain ⟨tree, htree, hdirectory⟩ := hdirectory
      rw [get?_entry_of_child? htree] at hentry
      simp only [Path.isEntryName, ne_eq, Bool.and_eq_true, decide_eq_true_eq] at hname
      cases entry with
      | link target => exact absurd rfl (hlink target)
      | _ => simp [FileSystem.walk, htree, hdirectory, hname, Nat.not_lt.mpr hlength, hentry, ih]

/-! ## Walks in parts -/

theorem HasDirectory.isSome {place : Location} (h : files.HasDirectory place) :
    (files.get? place).isSome := by
  obtain ⟨tree, htree, -⟩ := h
  rw [htree]
  rfl

/-- A walk begins with the walk along no names. -/
theorem Walks.start {links : Nat} {here : Location} {names : List String} {arrival : Arrival}
    (h : files.Walks links here names arrival) : files.Walks links here [] ⟨here, links⟩ := by
  cases h with
  | done hsome => exact .done hsome
  | stay hdirectory => exact .done hdirectory.isSome
  | up hdirectory => exact .done hdirectory.isSome
  | follow hdirectory => exact .done hdirectory.isSome
  | down hdirectory => exact .done hdirectory.isSome

theorem Walks.append {links : Nat} {here : Location} {names rest : List String}
    {middle arrival : Arrival} (h : files.Walks links here names middle)
    (hrest : files.Walks middle.linksLeft middle.place rest arrival) :
    files.Walks links here (names ++ rest) arrival := by
  induction h with
  | done => exact hrest
  | stay hdirectory _ ih => exact .stay hdirectory (ih hrest)
  | up hdirectory _ ih => exact .up hdirectory (ih hrest)
  | follow hdirectory hname hlength hlink _ ih =>
      have := ih hrest
      rw [List.append_assoc] at this
      exact .follow hdirectory hname hlength hlink this
  | down hdirectory hname hlength hentry htree _ ih =>
      exact .down hdirectory hname hlength hentry htree (ih hrest)

theorem Walks.exists_of_append {links : Nat} {here : Location} {names rest : List String}
    {arrival : Arrival} (h : files.Walks links here (names ++ rest) arrival) :
    ∃ middle, files.Walks links here names middle ∧
      files.Walks middle.linksLeft middle.place rest arrival := by
  -- The induction is on the walk: after a link its names are no end of the ones before.
  generalize hall : names ++ rest = all at h
  induction h generalizing names with
  | done hsome =>
      obtain ⟨rfl, rfl⟩ := List.append_eq_nil_iff.mp hall
      exact ⟨_, .done hsome, .done hsome⟩
  | stay hdirectory hwalk ih =>
      rcases List.append_eq_cons_iff.mp hall with ⟨rfl, rfl⟩ | ⟨names, rfl, hsplit⟩
      · exact ⟨_, (Walks.stay hdirectory hwalk).start, .stay hdirectory hwalk⟩
      · obtain ⟨middle, hnames, hrest⟩ := ih hsplit.symm
        exact ⟨middle, .stay hdirectory hnames, hrest⟩
  | up hdirectory hwalk ih =>
      rcases List.append_eq_cons_iff.mp hall with ⟨rfl, rfl⟩ | ⟨names, rfl, hsplit⟩
      · exact ⟨_, (Walks.up hdirectory hwalk).start, .up hdirectory hwalk⟩
      · obtain ⟨middle, hnames, hrest⟩ := ih hsplit.symm
        exact ⟨middle, .up hdirectory hnames, hrest⟩
  | follow hdirectory hname hlength hlink hwalk ih =>
      rcases List.append_eq_cons_iff.mp hall with ⟨rfl, rfl⟩ | ⟨names, rfl, hsplit⟩
      · exact ⟨_, (Walks.follow hdirectory hname hlength hlink hwalk).start,
          .follow hdirectory hname hlength hlink hwalk⟩
      · obtain ⟨middle, hnames, hrest⟩ := ih (by rw [hsplit, List.append_assoc])
        exact ⟨middle, .follow hdirectory hname hlength hlink hnames, hrest⟩
  | down hdirectory hname hlength hentry htree hwalk ih =>
      rcases List.append_eq_cons_iff.mp hall with ⟨rfl, rfl⟩ | ⟨names, rfl, hsplit⟩
      · exact ⟨_, (Walks.down hdirectory hname hlength hentry htree hwalk).start,
          .down hdirectory hname hlength hentry htree hwalk⟩
      · obtain ⟨middle, hnames, hrest⟩ := ih hsplit.symm
        exact ⟨middle, .down hdirectory hname hlength hentry htree hnames, hrest⟩

/-- Walks that begin alike end alike. -/
theorem Walks.unique {links : Nat} {here : Location} {names : List String}
    {arrival arrival' : Arrival} (h : files.Walks links here names arrival)
    (h' : files.Walks links here names arrival') : arrival = arrival' :=
  Except.ok.inj (h.walk_eq.symm.trans h'.walk_eq)

/-- Fillers at the end of a walk ask for a directory there, and go nowhere. -/
theorem Walks.append_fillers {links : Nat} {here : Location} {names fillers : List String}
    {arrival : Arrival} (h : files.Walks links here names arrival)
    (hdirectory : files.HasDirectory arrival.place) (hfillers : ∀ name ∈ fillers, name = ".") :
    files.Walks links here (names ++ fillers) arrival := by
  refine h.append ?_
  induction fillers with
  | nil => exact .done hdirectory.isSome
  | cons filler fillers ih =>
      rw [hfillers filler List.mem_cons_self]
      apply Walks.stay hdirectory
      apply ih
      intro name hname
      exact hfillers name (List.mem_cons_of_mem _ hname)

theorem Walks.eq_of_fillers {links : Nat} {here : Location} {fillers : List String}
    {arrival : Arrival} (h : files.Walks links here fillers arrival)
    (hfillers : ∀ name ∈ fillers, name = ".") : arrival = ⟨here, links⟩ := by
  induction h with
  | done => rfl
  | stay _ _ ih => exact ih fun name hname => hfillers name (List.mem_cons_of_mem _ hname)
  | up => exact absurd (hfillers ".." List.mem_cons_self) (by decide)
  | follow _ hname =>
      rw [hfillers _ List.mem_cons_self] at hname
      cases hname
  | down _ hname =>
      rw [hfillers _ List.mem_cons_self] at hname
      cases hname

/-! ## Walks in another tree -/

theorem Keeps.hasDirectory (h : files.Keeps other) {place : Location}
    (hdirectory : files.HasDirectory place) : other.HasDirectory place := by
  rw [hasDirectory_iff] at hdirectory ⊢
  exact h.trunk? hdirectory rfl

theorem Keeps.get?_link (h : files.Keeps other) {place : Location} {target : Path}
    (hlink : files.get? place = some (.link target)) :
    other.get? place = some (.link target) := by
  have hfiles : files.trunk? place = some (.link target) := by
    rw [FileSystem.trunk?, hlink]
    rfl
  obtain ⟨tree, htree, htrunk⟩ := Option.map_eq_some_iff.mp (h.trunk? hfiles rfl)
  rw [FileTree.trunk_eq_link_iff] at htrunk
  rw [← htrunk]
  exact htree

theorem Walks.hasDirectory_of_cons {links : Nat} {here : Location} {name : String}
    {rest : List String} {arrival : Arrival} (h : files.Walks links here (name :: rest) arrival) :
    files.HasDirectory here := by
  cases h with
  | stay hhere => exact hhere
  | up hhere => exact hhere
  | follow hhere => exact hhere
  | down hhere => exact hhere

theorem Walks.exists_entry {links : Nat} {here : Location} {name : String} {rest : List String}
    {arrival : Arrival} (h : files.Walks links here (name :: rest) arrival)
    (hname : Path.isEntryName name = true) :
    ∃ tree, files.get? (here ++ [name]) = some tree := by
  cases h with
  | stay => cases hname
  | up => cases hname
  | follow _ _ _ hlink => exact ⟨_, hlink⟩
  | down _ _ _ hentry => exact ⟨_, hentry⟩

/-- A walk goes on in an entry that is no link. -/
theorem Walks.of_entry {links : Nat} {here : Location} {name : String} {rest : List String}
    {arrival : Arrival} {tree : FileTree} (h : files.Walks links here (name :: rest) arrival)
    (hname : Path.isEntryName name = true) (hentry : files.get? (here ++ [name]) = some tree)
    (htree : ∀ target, tree ≠ .link target) : files.Walks links (here ++ [name]) rest arrival := by
  cases h with
  | stay => cases hname
  | up => cases hname
  | follow _ _ _ hlink => exact absurd (Option.some.inj (hentry.symm.trans hlink)) (htree _)
  | down _ _ _ _ _ hrest => exact hrest

/-- A walk that ends at a directory has only met directories. -/
theorem Walks.hasDirectory_start {links : Nat} {here : Location} {names : List String}
    {arrival : Arrival} (h : files.Walks links here names arrival)
    (hdirectory : files.HasDirectory arrival.place) : files.HasDirectory here := by
  cases names with
  | nil =>
      cases h
      exact hdirectory
  | cons name names => exact h.hasDirectory_of_cons

theorem Keeps.walks (h : files.Keeps other) {links : Nat} {here : Location}
    {names : List String} {arrival : Arrival} (hwalk : files.Walks links here names arrival)
    (hdirectory : files.HasDirectory arrival.place) : other.Walks links here names arrival := by
  induction hwalk with
  | done => exact .done (h.hasDirectory hdirectory).isSome
  | stay hhere _ ih => exact .stay (h.hasDirectory hhere) (ih hdirectory)
  | up hhere _ ih => exact .up (h.hasDirectory hhere) (ih hdirectory)
  | follow hhere hname hlength hlink _ ih =>
      exact .follow (h.hasDirectory hhere) hname hlength (h.get?_link hlink) (ih hdirectory)
  | @down _ _ _ _ _ _ hhere hname hlength _ _ hrest ih =>
      obtain ⟨tree, htree, htreedir⟩ := h.hasDirectory (hrest.hasDirectory_start hdirectory)
      refine .down (h.hasDirectory hhere) hname hlength htree ?_ (ih hdirectory)
      intro target htarget
      rw [htarget] at htreedir
      cases htreedir

end FeatureFlags.FileSystem
