import FeatureFlags.Path

/-!
# Trees of files

A directory tree as a value: what is where, and the tree with one place changed. A place is given
by its names from the root down. A tree has finitely many places (`mem_locations`), which is what
ends a walk through files that name each other.
-/

namespace FeatureFlags

/-- Special files: one that takes no byte and gives them without end, and one that holds none. -/
inductive Device where
  | full
  | null
deriving DecidableEq, Repr

inductive FileTree where
  | file (content : ByteArray)
  /-- A regular file that may not be opened. -/
  | sealed (content : ByteArray)
  | link (target : Path)
  | device (kind : Device)
  | directory (children : List (String × FileTree))

/-- The names that lead to a place, from the root down. -/
abbrev Location := List String

namespace FileTree

def isDirectory : FileTree → Bool
  | directory _ => true
  | _ => false

def isFile : FileTree → Bool
  | file _ => true
  | _ => false

/-- A regular file, whether it may be opened or not. -/
def isRegular : FileTree → Bool
  | file _ => true
  | sealed _ => true
  | _ => false

def children : FileTree → List (String × FileTree)
  | directory children => children
  | _ => []

def child? (tree : FileTree) (name : String) : Option FileTree := tree.children.lookup name

/-- What is at a place. -/
def get? : FileTree → Location → Option FileTree
  | tree, [] => some tree
  | tree, name :: rest => (tree.child? name).bind fun child => child.get? rest

/-- The tree with `new` under `name`; only a directory has room for it. -/
def setChild (tree : FileTree) (name : String) (new : FileTree) : FileTree :=
  match tree with
  | directory children => directory ((name, new) :: children.filter (·.1 ≠ name))
  | _ => tree

/-- The tree without what is under `name`. -/
def eraseChild (tree : FileTree) (name : String) : FileTree :=
  match tree with
  | directory children => directory (children.filter (·.1 ≠ name))
  | _ => tree

/-- The tree with `new` at a place, whose directory must be there. -/
def put : FileTree → Location → FileTree → FileTree
  | _, [], new => new
  | tree, [name], new => tree.setChild name new
  | tree, name :: rest, new =>
    match tree.child? name with
    | some child => tree.setChild name (child.put rest new)
    | none => tree

/-- The tree with nothing at a place; the root stays. -/
def erase : FileTree → Location → FileTree
  | tree, [] => tree
  | tree, [name] => tree.eraseChild name
  | tree, name :: rest =>
    match tree.child? name with
    | some child => tree.setChild name (child.erase rest)
    | none => tree

mutual
/-- All places of a tree. -/
def locations : FileTree → List Location
  | directory children => [] :: locationsOfChildren children
  | _ => [[]]

def locationsOfChildren : List (String × FileTree) → List Location
  | [] => []
  | (name, child) :: rest => child.locations.map (name :: ·) ++ locationsOfChildren rest
end

theorem nil_mem_locations (tree : FileTree) : [] ∈ tree.locations := by
  cases tree <;> simp [locations]

theorem mem_locationsOfChildren {children : List (String × FileTree)} {name : String}
    {child : FileTree} {rest : Location} (h : children.lookup name = some child)
    (hrest : rest ∈ child.locations) : name :: rest ∈ locationsOfChildren children := by
  induction children with
  | nil => simp at h
  | cons first others ih =>
    obtain ⟨other, tree⟩ := first
    rw [locationsOfChildren, List.mem_append]
    rw [List.lookup_cons] at h
    by_cases hname : name = other
    · subst hname
      simp only [beq_self_eq_true] at h
      cases h
      exact .inl (List.mem_map_of_mem hrest)
    · rw [beq_false_of_ne hname] at h
      exact .inr (ih h)

/-- A place where something is, is one of the finitely many places of the tree. -/
theorem mem_locations {tree found : FileTree} {place : Location}
    (h : tree.get? place = some found) : place ∈ tree.locations := by
  induction place generalizing tree with
  | nil => exact nil_mem_locations tree
  | cons name rest ih =>
    rw [get?, Option.bind_eq_some_iff] at h
    obtain ⟨child, hchild, hfound⟩ := h
    cases tree with
    | directory children =>
      rw [locations]
      exact List.mem_cons_of_mem _ (mem_locationsOfChildren hchild (ih hfound))
    | _ => simp [child?, FileTree.children] at hchild

end FileTree

end FeatureFlags
