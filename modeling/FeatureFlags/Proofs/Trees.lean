import FeatureFlags.FileSystem.Change

/-!
# What a change leaves

Putting something under a name of a directory, or taking it away, changes the children of that
directory. All else that a walk can see stays: the trunk of every tree that is not in the
directory, which is what kind of file it is, with the target of a link or the bytes of a file.
-/

namespace FeatureFlags

namespace FileTree

/-- The tree without what is in it. -/
def trunk : FileTree → FileTree
  | directory _ => directory []
  | tree => tree

/-- Whether a walk may go on from the tree. -/
def leadsOn : FileTree → Bool
  | link _ => true
  | directory _ => true
  | _ => false

/-- The bytes of a regular file. -/
def bytes? : FileTree → Option ByteArray
  | file content => some content
  | _ => none

@[simp] theorem isDirectory_trunk (tree : FileTree) : tree.trunk.isDirectory = tree.isDirectory := by
  cases tree <;> rfl

@[simp] theorem leadsOn_trunk (tree : FileTree) : tree.trunk.leadsOn = tree.leadsOn := by
  cases tree <;> rfl

theorem trunk_eq_link_iff {tree : FileTree} {target : Path} :
    tree.trunk = link target ↔ tree = link target := by
  cases tree <;> simp [trunk]

theorem trunk_eq_file_iff {tree : FileTree} {content : ByteArray} :
    tree.trunk = file content ↔ tree = file content := by
  cases tree <;> simp [trunk]

theorem bytes?_eq_some_iff {tree : FileTree} {content : ByteArray} :
    tree.bytes? = some content ↔ tree = file content := by
  cases tree <;> simp [bytes?]

theorem leadsOn_of_isDirectory {tree : FileTree} (h : tree.isDirectory = true) :
    tree.leadsOn = true := by
  cases tree with
  | directory children => rfl
  | _ => simp [isDirectory] at h

/-- What was found at a place is nothing that a walk could go on from. -/
def LeadsNowhere (found : Option FileTree) : Prop :=
  ∀ tree, found = some tree → tree.leadsOn = false

theorem leadsNowhere_none : LeadsNowhere none := by
  rintro tree ⟨⟩

theorem leadsNowhere_file (content : ByteArray) : LeadsNowhere (some (file content)) := by
  rintro tree ⟨⟩
  rfl

theorem leadsNowhere_of_isFile {found : Option FileTree}
    (h : ∀ tree, found = some tree → tree.isFile = true) : LeadsNowhere found := by
  intro tree htree
  cases tree with
  | file content => rfl
  | _ => cases h _ htree

/-- Nothing was found, or a regular file: what writing may replace without going on anywhere. -/
def Overwritable (found : Option FileTree) : Prop :=
  ∀ tree, found = some tree → tree.isFile = true

instance (found : Option FileTree) : Decidable (Overwritable found) :=
  decidable_of_iff (found.all isFile = true) (by cases found <;> simp [Overwritable])

theorem overwritable_none : Overwritable none := by
  rintro tree ⟨⟩

theorem overwritable_file (content : ByteArray) : Overwritable (some (file content)) := by
  rintro tree ⟨⟩
  rfl

theorem overwritable_of_eq_none {found : Option FileTree} (h : found = none) :
    Overwritable found := by
  rw [h]
  exact overwritable_none

theorem Overwritable.cases {found : Option FileTree} (h : Overwritable found) :
    found = none ∨ ∃ content, found = some (file content) := by
  cases found with
  | none => exact .inl rfl
  | some tree =>
      cases tree with
      | file content => exact .inr ⟨content, rfl⟩
      | _ => cases h _ rfl

theorem Overwritable.leadsNowhere {found : Option FileTree} (h : Overwritable found) :
    LeadsNowhere found :=
  leadsNowhere_of_isFile h

theorem Overwritable.ne_link {found : Option FileTree} (h : Overwritable found)
    (target : Path) : found ≠ some (link target) := by
  rintro rfl
  cases h _ rfl

theorem Overwritable.ne_directory {found : Option FileTree} (h : Overwritable found)
    (children : List (String × FileTree)) : found ≠ some (directory children) := by
  rintro rfl
  cases h _ rfl

/-! ## Children -/

theorem isDirectory_of_child? {tree child : FileTree} {name : String}
    (h : tree.child? name = some child) : tree.isDirectory = true := by
  cases tree with
  | directory children => rfl
  | _ => simp [child?, children] at h

theorem lookup_filter_ne (children : List (String × FileTree)) (name other : String) :
    (children.filter (·.1 ≠ name)).lookup other =
      if other = name then none else children.lookup other := by
  induction children with
  | nil => simp
  | cons first rest ih =>
      obtain ⟨key, child⟩ := first
      by_cases hkey : key = name
      · subst hkey
        by_cases hother : other = key
        · simpa [hother] using ih
        · have hne : (other == key) = false := beq_false_of_ne hother
          simpa [List.lookup_cons, hother, hne] using ih
      · rw [List.filter_cons_of_pos (by simpa using hkey), List.lookup_cons, List.lookup_cons, ih]
        by_cases hother : other = key
        · subst hother
          simp [hkey]
        · rw [beq_false_of_ne hother]

theorem child?_setChild {tree : FileTree} (h : tree.isDirectory = true) (name other : String)
    (new : FileTree) :
    (tree.setChild name new).child? other =
      if other = name then some new else tree.child? other := by
  cases tree with
  | directory children =>
      simp only [setChild, child?, FileTree.children, List.lookup_cons, lookup_filter_ne]
      by_cases hother : other = name
      · simp [hother]
      · simp [hother, beq_false_of_ne hother]
  | _ => simp [isDirectory] at h

theorem child?_eraseChild (tree : FileTree) (name other : String) :
    (tree.eraseChild name).child? other = if other = name then none else tree.child? other := by
  cases tree with
  | directory children => exact lookup_filter_ne children name other
  | _ => simp [eraseChild, child?, children]

@[simp] theorem trunk_setChild (tree : FileTree) (name : String) (new : FileTree) :
    (tree.setChild name new).trunk = tree.trunk := by
  cases tree <;> rfl

@[simp] theorem trunk_eraseChild (tree : FileTree) (name : String) :
    (tree.eraseChild name).trunk = tree.trunk := by
  cases tree <;> rfl

/-! ## Places -/

theorem get?_cons (tree : FileTree) (name : String) (rest : Location) :
    tree.get? (name :: rest) = (tree.child? name).bind (·.get? rest) := rfl

theorem get?_append (tree : FileTree) (place rest : Location) :
    tree.get? (place ++ rest) = (tree.get? place).bind (·.get? rest) := by
  induction place generalizing tree with
  | nil => rfl
  | cons name place ih =>
      rw [List.cons_append, get?, get?, Option.bind_assoc]
      congr 1
      ext child : 1
      exact ih child

theorem get?_snoc {tree directory : FileTree} {place : Location}
    (h : tree.get? place = some directory) (name : String) :
    tree.get? (place ++ [name]) = directory.child? name := by
  rw [get?_append, h, Option.bind_some, get?_cons]
  cases directory.child? name <;> rfl

/-- The tree with the tree at `place` changed. -/
def update (change : FileTree → FileTree) : FileTree → Location → FileTree
  | tree, [] => change tree
  | tree, name :: rest =>
    match tree.child? name with
    | some child => tree.setChild name (child.update change rest)
    | none => tree

theorem put_snoc (tree : FileTree) (place : Location) (name : String) (new : FileTree) :
    tree.put (place ++ [name]) new = tree.update (·.setChild name new) place := by
  induction place generalizing tree with
  | nil => rfl
  | cons first place ih =>
      cases hchild : tree.child? first with
      | none => cases place <;> simp [put, update, hchild]
      | some child =>
          have := ih child
          cases place <;> simp_all [put, update]

theorem erase_snoc (tree : FileTree) (place : Location) (name : String) :
    tree.erase (place ++ [name]) = tree.update (·.eraseChild name) place := by
  induction place generalizing tree with
  | nil => rfl
  | cons first place ih =>
      cases hchild : tree.child? first with
      | none => cases place <;> simp [erase, update, hchild]
      | some child =>
          have := ih child
          cases place <;> simp_all [erase, update]

theorem get?_update (change : FileTree → FileTree) {tree found : FileTree} {place : Location}
    (h : tree.get? place = some found) :
    (tree.update change place).get? place = some (change found) := by
  induction place generalizing tree with
  | nil =>
      cases h
      rfl
  | cons first place ih =>
      obtain ⟨child, hchild, hfound⟩ := Option.bind_eq_some_iff.mp h
      simp only [update, hchild]
      rw [get?_cons, child?_setChild (isDirectory_of_child? hchild), if_pos rfl]
      exact ih hfound

/-- A change that keeps trunks is seen below its place only. -/
theorem trunk_get?_update {change : FileTree → FileTree}
    (hchange : ∀ tree, (change tree).trunk = tree.trunk) {tree : FileTree}
    {place other : Location} (h : ∀ name, ¬ place ++ [name] <+: other) :
    ((tree.update change place).get? other).map trunk = (tree.get? other).map trunk := by
  -- Each name of the place is either the next one on the way to `other`, or they part there.
  induction place generalizing tree other with
  | nil =>
      cases other with
      | nil => exact congrArg some (hchange tree)
      | cons first other => exact absurd (List.prefix_append [first] other) (h first)
  | cons name place ih =>
      cases hchild : tree.child? name with
      | none => simp only [update, hchild]
      | some child =>
          simp only [update, hchild]
          cases other with
          | nil => exact congrArg some (trunk_setChild tree name _)
          | cons first other =>
              rw [get?_cons, get?_cons, child?_setChild (isDirectory_of_child? hchild)]
              by_cases hfirst : first = name
              · subst hfirst
                rw [if_pos rfl, hchild]
                apply ih
                intro next hinit
                exact h next (List.cons_prefix_cons.mpr ⟨rfl, hinit⟩)
              · rw [if_neg hfirst]

/-! ## Places apart -/

/-- Neither place is at or below the other. -/
def Apart (place other : Location) : Prop := ¬ place <+: other ∧ ¬ other <+: place

theorem Apart.symm {place other : Location} (h : Apart place other) : Apart other place :=
  ⟨h.2, h.1⟩

theorem Apart.of_cons {name : String} {place other : Location}
    (h : Apart (name :: place) (name :: other)) : Apart place other :=
  ⟨fun hinit => h.1 (List.cons_prefix_cons.mpr ⟨rfl, hinit⟩),
    fun hinit => h.2 (List.cons_prefix_cons.mpr ⟨rfl, hinit⟩)⟩

theorem not_prefix_sibling {name other : String} (h : name ≠ other) (place : Location) :
    ¬ place ++ [name] <+: place ++ [other] := by
  intro hinit
  have hnames := (List.prefix_append_right_inj place).mp hinit
  exact h (List.singleton_inj.mp (hnames.eq_of_length rfl))

theorem apart_siblings {name other : String} (h : name ≠ other) (place : Location) :
    Apart (place ++ [name]) (place ++ [other]) :=
  ⟨not_prefix_sibling h place, not_prefix_sibling h.symm place⟩

/-- A change of one child leaves whole what is apart from it. -/
theorem get?_update_of_apart {change : FileTree → FileTree} {name : String}
    (hchange : ∀ tree other, other ≠ name → (change tree).child? other = tree.child? other)
    {tree : FileTree} {place other : Location} (h : Apart (place ++ [name]) other) :
    (tree.update change place).get? other = tree.get? other := by
  induction place generalizing tree other with
  | nil =>
      cases other with
      | nil => exact absurd List.nil_prefix h.2
      | cons first other =>
          have hfirst : first ≠ name := by
            rintro rfl
            exact h.1 (List.prefix_append [first] other)
          rw [get?_cons, get?_cons, update, hchange tree first hfirst]
  | cons above place ih =>
      cases hchild : tree.child? above with
      | none => simp only [update, hchild]
      | some child =>
          simp only [update, hchild]
          cases other with
          | nil => exact absurd List.nil_prefix h.2
          | cons first other =>
              rw [get?_cons, get?_cons, child?_setChild (isDirectory_of_child? hchild)]
              by_cases hfirst : first = above
              · subst hfirst
                rw [if_pos rfl, hchild]
                exact ih h.of_cons
              · rw [if_neg hfirst]

theorem child?_setChild_of_ne {tree : FileTree} {name other : String} (h : other ≠ name)
    (new : FileTree) : (tree.setChild name new).child? other = tree.child? other := by
  by_cases hdirectory : tree.isDirectory = true
  · rw [child?_setChild hdirectory, if_neg h]
  · cases tree with
    | directory children => exact absurd rfl hdirectory
    | _ => rfl

end FileTree

namespace FileSystem

/-! ## One directory at a time -/

/-- What kind of file is at a place, with its target or its bytes. -/
def trunk? (files : FileSystem) (place : Location) : Option FileTree :=
  (files.get? place).map FileTree.trunk

/-- There is a directory at `place`. -/
def HasDirectory (files : FileSystem) (place : Location) : Prop :=
  ∃ tree, files.get? place = some tree ∧ tree.isDirectory = true

theorem hasDirectory_iff {files : FileSystem} {place : Location} :
    files.HasDirectory place ↔ files.trunk? place = some (.directory []) := by
  unfold HasDirectory trunk?
  constructor
  · rintro ⟨tree, htree, hdirectory⟩
    cases tree with
    | directory children => rw [htree]; rfl
    | _ => simp [FileTree.isDirectory] at hdirectory
  · intro h
    obtain ⟨tree, htree, htrunk⟩ := Option.map_eq_some_iff.mp h
    refine ⟨tree, htree, ?_⟩
    rw [← FileTree.isDirectory_trunk, htrunk]
    rfl

theorem trunk?_eq_none_iff {files : FileSystem} {place : Location} :
    files.trunk? place = none ↔ files.get? place = none := Option.map_eq_none_iff

theorem trunk?_eq_link_iff {files : FileSystem} {place : Location} {target : Path} :
    files.trunk? place = some (.link target) ↔ files.get? place = some (.link target) := by
  simp [trunk?, Option.map_eq_some_iff, FileTree.trunk_eq_link_iff]

theorem trunk?_eq_file_iff {files : FileSystem} {place : Location} {content : ByteArray} :
    files.trunk? place = some (.file content) ↔ files.get? place = some (.file content) := by
  simp [trunk?, Option.map_eq_some_iff, FileTree.trunk_eq_file_iff]

theorem get?_put_entry {files : FileSystem} {place : Location} (h : files.HasDirectory place)
    (name other : String) (new : FileTree) :
    (files.put (place ++ [name]) new).get? (place ++ [other]) =
      if other = name then some new else files.get? (place ++ [other]) := by
  obtain ⟨tree, htree, hdirectory⟩ := h
  unfold get? put at *
  rw [FileTree.put_snoc, FileTree.get?_snoc (FileTree.get?_update _ htree),
    FileTree.child?_setChild hdirectory, FileTree.get?_snoc htree]

theorem get?_erase_entry {files : FileSystem} {place : Location} (h : files.HasDirectory place)
    (name other : String) :
    (files.erase (place ++ [name])).get? (place ++ [other]) =
      if other = name then none else files.get? (place ++ [other]) := by
  obtain ⟨tree, htree, -⟩ := h
  unfold get? erase at *
  rw [FileTree.erase_snoc, FileTree.get?_snoc (FileTree.get?_update _ htree),
    FileTree.child?_eraseChild, FileTree.get?_snoc htree]

theorem get?_put_of_apart (files : FileSystem) {place elsewhere : Location} {name : String}
    (h : FileTree.Apart (place ++ [name]) elsewhere) (new : FileTree) :
    (files.put (place ++ [name]) new).get? elsewhere = files.get? elsewhere := by
  unfold get? put
  rw [FileTree.put_snoc]
  exact FileTree.get?_update_of_apart
    (fun tree other hother => FileTree.child?_setChild_of_ne hother new) h

theorem get?_erase_of_apart (files : FileSystem) {place elsewhere : Location} {name : String}
    (h : FileTree.Apart (place ++ [name]) elsewhere) :
    (files.erase (place ++ [name])).get? elsewhere = files.get? elsewhere := by
  unfold get? erase
  rw [FileTree.erase_snoc]
  refine FileTree.get?_update_of_apart ?_ h
  intro tree other hother
  rw [FileTree.child?_eraseChild, if_neg hother]

/-- `other` differs from `files` in the directory at `place` only. -/
structure Within (files : FileSystem) (place : Location) (other : FileSystem) : Prop where
  workingDirectory : other.workingDirectory = files.workingDirectory
  shortfall? : other.shortfall? = files.shortfall?
  outside : ∀ {elsewhere : Location}, (∀ name, ¬ place ++ [name] <+: elsewhere) →
    other.trunk? elsewhere = files.trunk? elsewhere

variable {files other last : FileSystem} {place : Location}

theorem Within.trans (h : files.Within place other) (h' : other.Within place last) :
    files.Within place last :=
  ⟨h'.workingDirectory.trans h.workingDirectory, h'.shortfall?.trans h.shortfall?,
    fun houtside => (h'.outside houtside).trans (h.outside houtside)⟩

theorem Within.symm (h : files.Within place other) : other.Within place files :=
  ⟨h.workingDirectory.symm, h.shortfall?.symm, fun houtside => (h.outside houtside).symm⟩

theorem within_put (files : FileSystem) (place : Location) (name : String) (new : FileTree) :
    files.Within place (files.put (place ++ [name]) new) := by
  refine ⟨rfl, rfl, ?_⟩
  intro elsewhere houtside
  unfold trunk? get? put
  rw [FileTree.put_snoc]
  exact FileTree.trunk_get?_update (fun tree => FileTree.trunk_setChild tree name new) houtside

theorem within_erase (files : FileSystem) (place : Location) (name : String) :
    files.Within place (files.erase (place ++ [name])) := by
  refine ⟨rfl, rfl, ?_⟩
  intro elsewhere houtside
  unfold trunk? get? erase
  rw [FileTree.erase_snoc]
  exact FileTree.trunk_get?_update (fun tree => FileTree.trunk_eraseChild tree name) houtside

theorem Within.hasDirectory_iff (h : files.Within place other) :
    other.HasDirectory place ↔ files.HasDirectory place := by
  have hplace : ∀ name, ¬ place ++ [name] <+: place := by
    intro name hinit
    have := hinit.length_le
    rw [List.length_append, List.length_singleton] at this
    omega
  rw [FileSystem.hasDirectory_iff, FileSystem.hasDirectory_iff, h.outside hplace]

theorem get?_append (files : FileSystem) (place rest : Location) :
    files.get? (place ++ rest) = (files.get? place).bind (·.get? rest) :=
  FileTree.get?_append files.root place rest

theorem trunk?_append (files : FileSystem) (place rest : Location) :
    files.trunk? (place ++ rest) =
      (files.get? place).bind fun tree => (tree.get? rest).map FileTree.trunk := by
  rw [trunk?, get?_append, Option.map_bind]
  rfl

/-- What is below a place is in a directory there. -/
theorem hasDirectory_of_append {rest : Location} (hrest : rest ≠ []) {found : FileTree}
    (h : files.get? (place ++ rest) = some found) : files.HasDirectory place := by
  rw [get?_append] at h
  obtain ⟨tree, htree, hfound⟩ := Option.bind_eq_some_iff.mp h
  cases rest with
  | nil => exact absurd rfl hrest
  | cons name rest =>
      obtain ⟨child, hchild, -⟩ := Option.bind_eq_some_iff.mp hfound
      exact ⟨tree, htree, FileTree.isDirectory_of_child? hchild⟩

/-- Where no changed entry is on the way, all stays. -/
theorem Within.trunk?_eq (h : files.Within place other) {elsewhere : Location}
    (hentries : ∀ name, place ++ [name] <+: elsewhere →
      other.get? (place ++ [name]) = files.get? (place ++ [name])) :
    other.trunk? elsewhere = files.trunk? elsewhere := by
  by_cases hinside : ∃ name, place ++ [name] <+: elsewhere
  · obtain ⟨name, hinit⟩ := hinside
    have hsame := hentries name hinit
    obtain ⟨below, rfl⟩ := hinit
    rw [trunk?_append, trunk?_append, hsame]
  · apply h.outside
    intro name hinit
    exact hinside ⟨name, hinit⟩

theorem trunk?_put (hdirectory : files.HasDirectory place) {name : String} {elsewhere : Location}
    (h : ¬ place ++ [name] <+: elsewhere) (new : FileTree) :
    (files.put (place ++ [name]) new).trunk? elsewhere = files.trunk? elsewhere := by
  apply (within_put files place name new).trunk?_eq
  intro other hinit
  have hother : other ≠ name := by
    rintro rfl
    exact h hinit
  rw [get?_put_entry hdirectory, if_neg hother]

theorem trunk?_erase (hdirectory : files.HasDirectory place) {name : String}
    {elsewhere : Location} (h : ¬ place ++ [name] <+: elsewhere) :
    (files.erase (place ++ [name])).trunk? elsewhere = files.trunk? elsewhere := by
  apply (within_erase files place name).trunk?_eq
  intro other hinit
  have hother : other ≠ name := by
    rintro rfl
    exact h hinit
  rw [get?_erase_entry hdirectory, if_neg hother]

theorem get?_erase_of_prefix (hdirectory : files.HasDirectory place) {name : String}
    {elsewhere : Location} (h : place ++ [name] <+: elsewhere) :
    (files.erase (place ++ [name])).get? elsewhere = none := by
  obtain ⟨below, rfl⟩ := h
  rw [get?_append, get?_erase_entry hdirectory, if_pos rfl]
  rfl

/-! ## What a walk needs -/

/-- Every directory and every link of `files` is one of `other` too, and as much can be filled. -/
structure Keeps (files other : FileSystem) : Prop where
  workingDirectory : other.workingDirectory = files.workingDirectory
  shortfall? : other.shortfall? = files.shortfall?
  trunk? : ∀ {place : Location} {tree : FileTree}, files.trunk? place = some tree →
    tree.leadsOn = true → other.trunk? place = some tree

theorem Keeps.refl (files : FileSystem) : files.Keeps files := ⟨rfl, rfl, fun htree _ => htree⟩

theorem Keeps.trans (h : files.Keeps other) (h' : other.Keeps last) : files.Keeps last :=
  ⟨h'.workingDirectory.trans h.workingDirectory, h'.shortfall?.trans h.shortfall?,
    fun htree hleads => h'.trunk? (h.trunk? htree hleads) hleads⟩

/-- A change within a directory keeps all, if each entry that it touches led nowhere. -/
theorem Within.keeps (h : files.Within place other)
    (hentries : ∀ name, FileTree.LeadsNowhere (files.get? (place ++ [name])) ∨
      other.get? (place ++ [name]) = files.get? (place ++ [name])) : files.Keeps other := by
  refine ⟨h.workingDirectory, h.shortfall?, ?_⟩
  intro elsewhere tree htree hleads
  rw [h.trunk?_eq]
  · exact htree
  · intro name hinit
    rcases hentries name with hnowhere | hsame
    · obtain ⟨below, rfl⟩ := hinit
      obtain ⟨found, hfound, rfl⟩ := Option.map_eq_some_iff.mp htree
      rw [FileTree.leadsOn_trunk] at hleads
      cases below with
      | nil =>
          rw [List.append_nil] at hfound
          cases (hnowhere found hfound).symm.trans hleads
      | cons next below =>
          obtain ⟨above, habove, hdirectory⟩ := hasDirectory_of_append (by simp) hfound
          cases (hnowhere above habove).symm.trans (FileTree.leadsOn_of_isDirectory hdirectory)
    · exact hsame

end FileSystem

end FeatureFlags
