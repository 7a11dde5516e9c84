import FeatureFlags.Table

/-!
# The dependency graph

Linking a table turns the names that entries depend on into nodes. The graph of a table has one
node for each entry, numbered in ascending order of names, and is made only if every name that an
entry depends on is declared.
-/

namespace FeatureFlags

/-- What an entry needs of another node: that its value is `wanted`. -/
structure Condition (size : Nat) where
  node : Fin size
  wanted : Bool
deriving DecidableEq, Repr

/-- A linked entry. -/
structure Node (size : Nat) where
  name : String
  default : Toggle
  /-- The nodes that must be on, in the order of the declaration. -/
  requires : List (Fin size)
  /-- The nodes that must be off, in the order of the declaration. -/
  conflicts : List (Fin size)
deriving DecidableEq, Repr

namespace Node

variable {size : Nat}

/-- The conditions of a node in the order in which they are checked. -/
def conditions (node : Node size) : List (Condition size) :=
  node.requires.map (⟨·, true⟩) ++ node.conflicts.map (⟨·, false⟩)

def condition? (node : Node size) (place : Nat) : Option (Condition size) :=
  node.conditions[place]?

end Node

/-- The first dependency, in ascending order of entry names, on a name that is not declared. -/
def Table.unknownDependency? (table : Table) : Option (String × String) :=
  table.entries.findSome? fun entry =>
    (entry.dependencies.find? fun dependency => !table.contains dependency.name).map
      fun dependency => (entry.name, dependency.name)

structure Graph where
  size : Nat
  nodes : Vector (Node size) size
  /-- The node of each name. -/
  index : Std.TreeMap String (Fin size)

namespace Graph

def id? (graph : Graph) (name : String) : Option (Fin graph.size) := graph.index[name]?

def node (graph : Graph) (i : Fin graph.size) : Node graph.size := graph.nodes.get i

/-- The node with number `number`, if there are so many. -/
def node? (graph : Graph) (number : Nat) : Option (Node graph.size) := graph.nodes[number]?

def entryAt (entries : Array Entry) (i : Fin entries.size) : Entry := entries[i]

/-- The numbers of the names of `entries`. -/
def indexOf (entries : Array Entry) : Std.TreeMap String (Fin entries.size) :=
  (List.finRange entries.size).foldl (fun index i => index.insert (entryAt entries i).name i) ∅

/-- The node of an entry; a name without a number is passed over. -/
def nodeOf {size : Nat} (index : Std.TreeMap String (Fin size)) (entry : Entry) : Node size :=
  ⟨entry.name, entry.default, entry.positive.filterMap (index[·]?),
    entry.negative.filterMap (index[·]?)⟩

/-- The graph of entries that depend on each other only. -/
def ofEntries (entries : Array Entry) : Graph :=
  let index := indexOf entries
  ⟨entries.size, .ofFn fun i => nodeOf index (entryAt entries i), index⟩

/-- The graph of a table, or the first dependency on a name that the table does not declare. -/
def link (table : Table) : Except Error Graph :=
  match table.unknownDependency? with
  | some (entry, dependency) => .error (.unknownDependency entry dependency)
  | none => .ok (ofEntries table.entries.toArray)

/-- What linking reports. -/
def linkEvents : Except Error Graph → List Event
  | .ok graph => [.linked graph.size]
  | .error _ => []

end Graph

end FeatureFlags
