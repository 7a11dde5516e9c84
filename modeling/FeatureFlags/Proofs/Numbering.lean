import Mathlib
import FeatureFlags.Proofs.ByteOrder
import FeatureFlags.Proofs.Linking

/-!
# Entries as numbered nodes

Linking either finds the first dependency, in the order of the entries and in each entry in the
order of its declaration, on a name that no entry declares (`unknownDependency?_eq_some_iff`), or
numbers the entries in ascending order of their names and turns each dependency into a number
(`Numbers`). It does the one or the other as there is such a dependency or not
(`link_fails_or_numbers`).
-/

namespace FeatureFlags

/-! ## The first unknown dependency -/

namespace Table

/-- All that `entry` depends on is declared. -/
def Knows (table : Table) (entry : Entry) : Prop :=
  ∀ dependency ∈ entry.dependencies, table.contains dependency.name = true

/--
No entry declares what `dependency` names. All dependencies that `entry` lists before it, and all
those of the entries before `entry`, are declared.
-/
def FirstUnknown (table : Table) (entry : Entry) (dependency : Dependency) : Prop :=
  ∃ before after earlier later, table.entries = before ++ entry :: after ∧
    entry.dependencies = earlier ++ dependency :: later ∧
    table.contains dependency.name = false ∧
    (∀ other ∈ earlier, table.contains other.name = true) ∧ ∀ other ∈ before, table.Knows other

variable {table : Table}

theorem unknownDependency?_eq_some_iff {names : String × String} :
    table.unknownDependency? = some names ↔ ∃ entry dependency,
      table.FirstUnknown entry dependency ∧ names = (entry.name, dependency.name) := by
  unfold unknownDependency? FirstUnknown Knows
  simp only [List.findSome?_eq_some_iff, Option.map_eq_some_iff, List.find?_eq_some_iff_append,
    Option.map_eq_none_iff, List.find?_eq_none, Bool.not_not, Bool.not_eq_true', Bool.not_eq_false]
  constructor
  · rintro ⟨before, entry, after, hentries, ⟨dependency, ⟨hunknown, earlier, later, hsplit, hearlier⟩,
      rfl⟩, hbefore⟩
    exact ⟨entry, dependency,
      ⟨before, after, earlier, later, hentries, hsplit, hunknown, hearlier, hbefore⟩, rfl⟩
  · rintro ⟨entry, dependency,
      ⟨before, after, earlier, later, hentries, hsplit, hunknown, hearlier, hbefore⟩, rfl⟩
    exact ⟨before, entry, after, hentries, ⟨dependency, ⟨hunknown, earlier, later, hsplit, hearlier⟩,
      rfl⟩, hbefore⟩

end Table

/-! ## Conditions by their places -/

namespace Node

variable {size : Nat}

theorem condition?_requires (node : Node size) {place : Nat} (h : place < node.requires.length) :
    node.condition? place = some ⟨node.requires[place], true⟩ := by
  unfold condition? conditions
  rw [List.getElem?_append_left (by simpa using h)]
  simp [h]

theorem condition?_conflicts (node : Node size) {place : Nat} (h : place < node.conflicts.length) :
    node.condition? (node.requires.length + place) = some ⟨node.conflicts[place], false⟩ := by
  unfold condition? conditions
  rw [List.getElem?_append_right (by simp)]
  simp [h]

theorem condition?_eq_none_iff (node : Node size) {place : Nat} :
    node.condition? place = none ↔ node.requires.length + node.conflicts.length ≤ place := by
  unfold condition? conditions
  rw [List.getElem?_eq_none_iff, List.length_append, List.length_map, List.length_map]

end Node

/-! ## The numbers of entries -/

namespace Graph

variable {table : Table} {graph : Graph}

/-- The nodes of `graph` are the entries of `table`, numbered in the order of their names. -/
structure Numbers (graph : Graph) (table : Table) : Prop where
  size_eq : graph.size = table.size
  represents : ∀ i : Fin graph.size, ∃ entry, table.entries[i.val]? = some entry ∧
    graph.Represents i entry
  ascending : ∀ i j : Fin graph.size, i < j →
    Text.bytes (graph.node i).name < Text.bytes (graph.node j).name
  id?_iff : ∀ name i, graph.id? name = some i ↔ (graph.node i).name = name
  /-- No condition is on a number that is not that of a node. -/
  inside : ∀ i, ∀ c ∈ (graph.node i).conditions,
    c.node.val < graph.size ∧ graph.node? c.node = some (graph.node c.node)

theorem numbers_of_link (hlink : link table = .ok graph) : graph.Numbers table where
  size_eq := by
    rw [size_of_link hlink, Table.entries, List.length_map, Std.TreeMap.length_toList]
    rfl
  represents := represents_of_link hlink
  ascending := by
    intro i j hij
    obtain ⟨entry, hentry, hi⟩ := represents_of_link hlink i
    obtain ⟨other, hother, hj⟩ := represents_of_link hlink j
    obtain ⟨hlt, rfl⟩ := List.getElem?_eq_some_iff.mp hentry
    obtain ⟨hlt', rfl⟩ := List.getElem?_eq_some_iff.mp hother
    have hnames := List.pairwise_iff_getElem.mp table.entries_ordered _ _ hlt hlt' hij
    rw [hi.name, hj.name]
    exact Text.bytes_lt_bytes (compare_lt_iff_lt.mp hnames)
  id?_iff := fun _ _ => id?_eq_some_iff hlink
  inside := fun _ c _ => ⟨c.node.isLt, Vector.getElem?_eq_getElem c.node.isLt⟩

end Graph

open FeatureFlags.Graph

/--
**Linking fails on the first unknown name, or numbers the entries.** It fails exactly if an entry,
whatever its default, depends on a name that no entry declares, negated or not, and reports the
first such dependency. Else the nodes are the entries in strictly ascending order of the bytes of
their names, with the numbers of what they require and of what they conflict with in the order of
the declaration, and the conditions of a node are the former and then the latter.
-/
theorem link_fails_or_numbers (table : Table) :
    ((∃ error, link table = .error error) ↔ ∃ entry ∈ table.entries,
      ∃ dependency ∈ entry.dependencies, table.contains dependency.name = false) ∧
    (∀ error, link table = .error error → ∃ entry dependency,
      table.FirstUnknown entry dependency ∧
        error = .unknownDependency entry.name dependency.name) ∧
    ∀ graph, link table = .ok graph → graph.Numbers table ∧ ∀ i : Fin graph.size,
      (∀ place (h : place < (graph.node i).requires.length),
        (graph.node i).condition? place = some ⟨(graph.node i).requires[place], true⟩) ∧
      (∀ place (h : place < (graph.node i).conflicts.length),
        (graph.node i).condition? ((graph.node i).requires.length + place) =
          some ⟨(graph.node i).conflicts[place], false⟩) ∧
      ∀ place, (graph.node i).condition? place = none ↔
        (graph.node i).requires.length + (graph.node i).conflicts.length ≤ place := by
  refine ⟨?_, ?_, ?_⟩
  · rw [← not_iff_not]
    have hlinks : (¬ ∃ error, link table = .error error) ↔ table.unknownDependency? = none := by
      unfold link
      cases table.unknownDependency? <;> simp
    rw [hlinks, Table.unknownDependency?_eq_none_iff]
    simp only [not_exists, not_and, Bool.not_eq_false, Table.contains_iff]
  · intro error herror
    unfold link at herror
    split at herror
    · next entry dependency hunknown =>
        obtain ⟨found, first, hfirst, hnames⟩ := Table.unknownDependency?_eq_some_iff.mp hunknown
        obtain ⟨rfl, rfl⟩ := Prod.mk.inj hnames
        exact ⟨found, first, hfirst, (Except.error.inj herror).symm⟩
    · cases herror
  · intro graph hlink
    refine ⟨numbers_of_link hlink, fun i => ⟨?_, ?_, ?_⟩⟩
    · intro place h
      exact Node.condition?_requires _ h
    · intro place h
      exact Node.condition?_conflicts _ h
    · intro place
      exact Node.condition?_eq_none_iff _

/-- `NONE` is not declared either, but `B` comes after `A`. -/
def ghosts : Table :=
  (Table.empty.insert ⟨"B", .yes, [⟨"NONE", false⟩], ⟨⟨"main"⟩, 1⟩⟩).insert
    ⟨"A", .no, [⟨"B", false⟩, ⟨"GHOST", true⟩, ⟨"NONE", false⟩], ⟨⟨"main"⟩, 2⟩⟩

/-- The dependencies of `A` lead forwards, those of `C` backwards. -/
def crossed : Table :=
  ((Table.empty.insert ⟨"C", .no, [⟨"A", false⟩], ⟨⟨"main"⟩, 1⟩⟩).insert
    ⟨"B", .yes, [], ⟨⟨"main"⟩, 2⟩⟩).insert
    ⟨"A", .yes, [⟨"C", true⟩, ⟨"B", false⟩, ⟨"A", true⟩], ⟨⟨"main"⟩, 3⟩⟩

theorem link_fails_or_numbers_ghosts :
    link ghosts = .error (.unknownDependency "A" "GHOST") ∧
    (∃ entry dependency, ghosts.FirstUnknown entry dependency ∧
      entry.name = "A" ∧ dependency.name = "GHOST") ∧
    link crossed = .ok (ofEntries crossed.entries.toArray) ∧
    (ofEntries crossed.entries.toArray).Numbers crossed ∧
    ((ofEntries crossed.entries.toArray).node ⟨0, by decide⟩).condition? 0 =
      some ⟨⟨1, by decide⟩, true⟩ ∧
    ((ofEntries crossed.entries.toArray).node ⟨0, by decide⟩).condition? 1 =
      some ⟨⟨2, by decide⟩, false⟩ ∧
    ((ofEntries crossed.entries.toArray).node ⟨0, by decide⟩).condition? 3 = none := by
  have hghosts : link ghosts = .error (.unknownDependency "A" "GHOST") := by cbv
  have hcrossed : link crossed = .ok (ofEntries crossed.entries.toArray) :=
    link_eq_ok_iff.mpr ⟨by cbv, rfl⟩
  obtain ⟨entry, dependency, hfirst, hnames⟩ :=
    (link_fails_or_numbers ghosts).2.1 _ hghosts
  obtain ⟨hentry, hdependency⟩ := Error.unknownDependency.inj hnames
  obtain ⟨hnumbers, hconditions⟩ := (link_fails_or_numbers crossed).2.2 _ hcrossed
  obtain ⟨hrequires, hconflicts, hnone⟩ := hconditions ⟨0, by decide⟩
  have hone : ((ofEntries crossed.entries.toArray).node ⟨0, by decide⟩).requires =
      [⟨1, by decide⟩] := by cbv
  have htwo : ((ofEntries crossed.entries.toArray).node ⟨0, by decide⟩).conflicts =
      [⟨2, by decide⟩, ⟨0, by decide⟩] := by cbv
  simp only [hone, htwo] at hrequires hconflicts hnone
  exact ⟨hghosts, ⟨entry, dependency, hfirst, hentry.symm, hdependency.symm⟩, hcrossed, hnumbers,
    hrequires 0 (by decide), hconflicts 0 (by decide), (hnone 3).mpr (by decide)⟩

end FeatureFlags
