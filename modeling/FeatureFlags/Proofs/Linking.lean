import FeatureFlags.Graph
import Mathlib.Data.List.FinRange

/-!
# What linking makes of a table

The graph of a table has its entries as nodes, in the order of their names, and every dependency
turned into the number of the entry that it names (`Represents`).
-/

namespace FeatureFlags

namespace Table

/-- The entries stand in strictly ascending order of their names. -/
theorem entries_ordered (table : Table) :
    table.entries.Pairwise fun a b => compare a.name b.name = .lt := by
  unfold entries
  rw [List.pairwise_map]
  exact table.definitions.ordered_keys_toList

theorem nodup_names (table : Table) : (table.entries.map (·.name)).Nodup := by
  rw [List.Nodup, List.pairwise_map]
  refine table.entries_ordered.imp ?_
  intro a b hlt heq
  rw [heq, Std.ReflOrd.compare_self] at hlt
  cases hlt

theorem mem_entries_iff {table : Table} {entry : Entry} :
    entry ∈ table.entries ↔ table.get? entry.name = some entry := by
  unfold entries get?
  simp only [List.mem_map, Prod.exists, Option.map_eq_some_iff]
  constructor
  · rintro ⟨name, definition, hmem, rfl⟩
    exact ⟨definition, Std.TreeMap.mem_toList_iff_getElem?_eq_some.mp hmem, rfl⟩
  · rintro ⟨definition, hdefinition, hentry⟩
    exact ⟨entry.name, definition, Std.TreeMap.mem_toList_iff_getElem?_eq_some.mpr hdefinition,
      hentry⟩

theorem contains_iff {table : Table} {name : String} :
    table.contains name = true ↔ ∃ entry ∈ table.entries, entry.name = name := by
  unfold contains
  rw [Std.TreeMap.contains_eq_isSome_getElem?, Option.isSome_iff_exists]
  constructor
  · rintro ⟨definition, hdefinition⟩
    exact ⟨definition.entry name, mem_entries_iff.mpr (by
      show (table.definitions[name]?).map _ = _
      rw [hdefinition]; rfl), rfl⟩
  · rintro ⟨entry, hentry, rfl⟩
    obtain ⟨definition, hdefinition, -⟩ :=
      Option.map_eq_some_iff.mp (mem_entries_iff.mp hentry)
    exact ⟨definition, hdefinition⟩

/-- Linking finds no fault exactly when every dependency names an entry. -/
theorem unknownDependency?_eq_none_iff {table : Table} :
    table.unknownDependency? = none ↔
      ∀ entry ∈ table.entries, ∀ dependency ∈ entry.dependencies,
        ∃ declared ∈ table.entries, declared.name = dependency.name := by
  simp only [unknownDependency?, List.findSome?_eq_none_iff, Option.map_eq_none_iff,
    List.find?_eq_none, Bool.not_eq_true', Bool.not_eq_false, contains_iff]

end Table

namespace Graph

variable {entries : Array Entry}

/-- The index that a list of nodes with names of their own fills. -/
theorem getElem?_foldl_insert {α : Type*} (name : α → String) (nodes : List α)
    (hnodup : (nodes.map name).Nodup) (index : Std.TreeMap String α) (key : String) (node : α) :
    (nodes.foldl (fun index i => index.insert (name i) i) index)[key]? = some node ↔
      (node ∈ nodes ∧ name node = key) ∨ (key ∉ nodes.map name ∧ index[key]? = some node) := by
  induction nodes generalizing index with
  | nil => simp
  | cons first rest ih =>
      obtain ⟨hfirst, hrest⟩ := List.nodup_cons.mp hnodup
      rw [List.foldl_cons, ih hrest, Std.TreeMap.getElem?_insert]
      simp only [Std.LawfulEqCmp.compare_eq_iff_eq, List.map_cons, List.mem_cons, not_or]
      -- No later node has the name of the first, so that its entry stays.
      by_cases hkey : name first = key
      · subst hkey
        simp only [if_true, Option.some.injEq, not_true, false_and, or_false]
        constructor
        · rintro (⟨hmem, hname⟩ | ⟨-, rfl⟩)
          · exact absurd (List.mem_map.mpr ⟨node, hmem, hname⟩) hfirst
          · exact ⟨.inl rfl, rfl⟩
        · rintro ⟨rfl | hmem, hname⟩
          · exact .inr ⟨hfirst, rfl⟩
          · exact absurd (List.mem_map.mpr ⟨node, hmem, hname⟩) hfirst
      · rw [if_neg hkey]
        constructor
        · rintro (⟨hmem, hname⟩ | ⟨hnew, hindex⟩)
          · exact .inl ⟨.inr hmem, hname⟩
          · exact .inr ⟨⟨Ne.symm hkey, hnew⟩, hindex⟩
        · rintro (⟨rfl | hmem, hname⟩ | ⟨⟨-, hnew⟩, hindex⟩)
          · exact absurd hname hkey
          · exact .inl ⟨hmem, hname⟩
          · exact .inr ⟨hnew, hindex⟩

/-! ## The graph of entries with names of their own -/

theorem node_ofEntries (entries : Array Entry) (i : Fin entries.size) :
    (ofEntries entries).node i = nodeOf (indexOf entries) (entryAt entries i) :=
  Vector.getElem_ofFn i.isLt

theorem getElem?_indexOf (hnodup : (entries.toList.map (·.name)).Nodup) {name : String}
    {i : Fin entries.size} : (indexOf entries)[name]? = some i ↔ (entryAt entries i).name = name := by
  have hnames : (List.finRange entries.size).map (fun i => (entryAt entries i).name) =
      entries.toList.map (·.name) := by
    apply List.ext_getElem
    · simp
    · intro n hn hn'
      simp [entryAt]
  unfold indexOf
  rw [getElem?_foldl_insert (fun i : Fin entries.size => (entryAt entries i).name) _
    (hnames ▸ hnodup)]
  simp [List.mem_finRange]

/-- Names that are all declared survive being turned into numbers and back. -/
theorem map_filterMap_indexOf (hnodup : (entries.toList.map (·.name)).Nodup)
    {names : List String} (hdeclared : ∀ name ∈ names, ∃ entry ∈ entries, entry.name = name) :
    (names.filterMap ((indexOf entries)[·]?)).map (fun i => (entryAt entries i).name) = names := by
  induction names with
  | nil => rfl
  | cons name names ih =>
      obtain ⟨entry, hentry, hname⟩ := hdeclared name List.mem_cons_self
      obtain ⟨i, hi, rfl⟩ := Array.mem_iff_getElem.mp hentry
      have hfound := (getElem?_indexOf hnodup (i := ⟨i, hi⟩)).mpr hname
      rw [List.filterMap_cons_some hfound, List.map_cons,
        ih fun other hother => hdeclared other (List.mem_cons_of_mem _ hother)]
      exact congrArg (· :: names) hname

/-! ## The graph of a table -/

theorem link_eq_ok_iff {table : Table} {graph : Graph} :
    link table = .ok graph ↔
      table.unknownDependency? = none ∧ graph = ofEntries table.entries.toArray := by
  unfold link
  cases hunknown : table.unknownDependency? with
  | some pair => simp
  | none => simp [eq_comm]

/-- The node `i` is the entry `entry`, with numbers for the names it depends on. -/
structure Represents (graph : Graph) (i : Fin graph.size) (entry : Entry) : Prop where
  name : (graph.node i).name = entry.name
  default : (graph.node i).default = entry.default
  requires : (graph.node i).requires.map (fun j => (graph.node j).name) = entry.positive
  conflicts : (graph.node i).conflicts.map (fun j => (graph.node j).name) = entry.negative

variable {table : Table} {graph : Graph}

theorem size_of_link (hlink : link table = .ok graph) : graph.size = table.entries.length := by
  obtain ⟨-, rfl⟩ := link_eq_ok_iff.mp hlink
  exact List.size_toArray

theorem represents_of_link (hlink : link table = .ok graph) (i : Fin graph.size) :
    ∃ entry, table.entries[i.val]? = some entry ∧ graph.Represents i entry := by
  obtain ⟨hknown, rfl⟩ := link_eq_ok_iff.mp hlink
  have hlt : i.val < table.entries.length := i.isLt
  have hdeclared := Table.unknownDependency?_eq_none_iff.mp hknown table.entries[i.val]
    (List.getElem_mem hlt)
  have hnodes : ∀ j : Fin table.entries.toArray.size,
      ((ofEntries table.entries.toArray).node j).name = (entryAt table.entries.toArray j).name := by
    intro j
    rw [node_ofEntries, nodeOf]
  have hround : ∀ names : List String,
      (∀ name ∈ names, ∃ dependency ∈ table.entries[i.val].dependencies,
        dependency.name = name) →
      (names.filterMap ((indexOf table.entries.toArray)[·]?)).map
        (fun j => ((ofEntries table.entries.toArray).node j).name) = names := by
    intro names hnames
    refine (List.map_congr_left fun j _ => hnodes j).trans ?_
    apply map_filterMap_indexOf (by simpa using table.nodup_names)
    intro name hname
    obtain ⟨dependency, hdependency, rfl⟩ := hnames name hname
    obtain ⟨declared, hmem, hname⟩ := hdeclared dependency hdependency
    exact ⟨declared, by simpa using hmem, hname⟩
  have hnode : (ofEntries table.entries.toArray).node i =
      nodeOf (indexOf table.entries.toArray) table.entries[i.val] :=
    node_ofEntries table.entries.toArray i
  refine ⟨table.entries[i.val], List.getElem?_eq_getElem hlt, hnodes i, ?_, ?_, ?_⟩
  · exact congrArg Node.default hnode
  · refine (congrArg (List.map _) (congrArg Node.requires hnode)).trans ?_
    apply hround
    intro name hname
    simp only [Entry.positive, List.mem_map, List.mem_filter] at hname
    obtain ⟨dependency, ⟨hmem, -⟩, hname⟩ := hname
    exact ⟨dependency, hmem, hname⟩
  · refine (congrArg (List.map _) (congrArg Node.conflicts hnode)).trans ?_
    apply hround
    intro name hname
    simp only [Entry.negative, List.mem_map, List.mem_filter] at hname
    obtain ⟨dependency, ⟨hmem, -⟩, hname⟩ := hname
    exact ⟨dependency, hmem, hname⟩

theorem exists_represents (hlink : link table = .ok graph) {entry : Entry}
    (hmem : entry ∈ table.entries) : ∃ i, graph.Represents i entry := by
  obtain ⟨n, hn, hentry⟩ := List.mem_iff_getElem.mp hmem
  have hlt : n < graph.size := (size_of_link hlink).symm ▸ hn
  obtain ⟨other, hother, hrepresents⟩ := represents_of_link hlink ⟨n, hlt⟩
  rw [List.getElem?_eq_getElem hn, Option.some.injEq, hentry] at hother
  subst hother
  exact ⟨⟨n, hlt⟩, hrepresents⟩

theorem id?_eq_some_iff (hlink : link table = .ok graph) {name : String} {i : Fin graph.size} :
    graph.id? name = some i ↔ (graph.node i).name = name := by
  obtain ⟨-, rfl⟩ := link_eq_ok_iff.mp hlink
  have hname := congrArg Node.name (node_ofEntries table.entries.toArray i)
  refine (getElem?_indexOf (by simpa using table.nodup_names)).trans ?_
  exact Eq.congr_left hname.symm

/-- No two nodes have one name. -/
theorem name_injective (hlink : link table = .ok graph) :
    Function.Injective fun i : Fin graph.size => (graph.node i).name := by
  intro i j hname
  have hi := (id?_eq_some_iff hlink).mpr hname
  have hj := (id?_eq_some_iff hlink (i := j)).mpr rfl
  exact Option.some.inj (hi.symm.trans hj)

end Graph

end FeatureFlags
