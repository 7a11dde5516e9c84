import FeatureFlags.Proofs.Linking
import FeatureFlags.Resolution
import Mathlib.Data.List.Sort

/-!
# What entries say

Where an entry was declared is of no account once it is in the table. Tables whose entries say the
same have the same graph, and so the same resolution or the same error (`Table.resolve_congr`). A
graph takes even less of an entry: how its positive and its negative dependencies are mixed is lost
(`Graph.link_eq_ok_congr`). Of the entries put into a table one after the other, the last one of
each name stays (`Table.get?_foldl_insert`).
-/

namespace FeatureFlags

/-- What an entry says, wherever it was declared. -/
def Entry.content (entry : Entry) : String × Toggle × List Dependency :=
  (entry.name, entry.default, entry.dependencies)

/-- An entry with its positive and its negative dependencies each for themselves. -/
structure Listed where
  name : String
  default : Toggle
  positive : List String
  negative : List String
deriving DecidableEq, Repr

def Entry.listed (entry : Entry) : Listed :=
  ⟨entry.name, entry.default, entry.positive, entry.negative⟩

theorem map_listed_congr {entries others : List Entry}
    (h : entries.map Entry.content = others.map Entry.content) :
    entries.map Entry.listed = others.map Entry.listed := by
  have hlisted : Entry.listed = (fun content : String × Toggle × List Dependency =>
      (⟨content.1, content.2.1, content.2.2, default⟩ : Entry).listed) ∘ Entry.content := rfl
  rw [hlisted, ← List.map_map, ← List.map_map, h]

theorem Entry.exists_dependency_iff {entry : Entry} {name : String} :
    (∃ dependency ∈ entry.dependencies, dependency.name = name) ↔
      name ∈ entry.positive ++ entry.negative := by
  unfold positive negative
  rw [List.mem_append, List.mem_map, List.mem_map, ← exists_or]
  refine exists_congr fun dependency => ?_
  cases hnegated : dependency.negated <;> simp [hnegated]

namespace Table

variable {table other : Table}

/-! ## Looking up names -/

theorem name_of_get? {name : String} {entry : Entry} (h : table.get? name = some entry) :
    entry.name = name := by
  obtain ⟨definition, -, rfl⟩ := Option.map_eq_some_iff.mp h
  rfl

theorem get?_eq_some_iff {name : String} {entry : Entry} :
    table.get? name = some entry ↔ entry ∈ table.entries ∧ entry.name = name := by
  rw [mem_entries_iff]
  constructor
  · intro h
    obtain rfl := name_of_get? h
    exact ⟨h, rfl⟩
  · rintro ⟨h, rfl⟩
    exact h

theorem get?_foldl_insert (entries : List Entry) (table : Table) (name : String) :
    (entries.foldl insert table).get? name =
      (entries.findRev? (·.name = name)).or (table.get? name) := by
  induction entries generalizing table with
  | nil => rfl
  | cons entry entries ih =>
      rw [List.foldl_cons, ih, get?_insert, List.findRev?]
      cases entries.findRev? (·.name = name) with
      | some found => rfl
      | none => by_cases h : entry.name = name <;> simp [h]

theorem mem_of_mem_foldl_insert {entries : List Entry} {entry : Entry}
    (h : entry ∈ (entries.foldl insert empty).entries) : entry ∈ entries := by
  have hnone : empty.get? entry.name = none := rfl
  rw [mem_entries_iff, get?_foldl_insert, hnone, Option.or_none,
    List.findRev?_eq_find?_reverse] at h
  exact List.mem_reverse.mp (List.mem_of_find?_eq_some h)

/-- Entries of different names stay in the table, all of them. -/
theorem entries_foldl_insert_perm {entries : List Entry} (h : (entries.map (·.name)).Nodup) :
    (entries.foldl insert empty).entries.Perm entries := by
  rw [List.perm_ext_iff_of_nodup ((nodup_names _).of_map _) (h.of_map _)]
  intro entry
  refine ⟨mem_of_mem_foldl_insert, fun hentry => ?_⟩
  rw [mem_entries_iff, get?_foldl_insert, List.findRev?_eq_find?_reverse]
  have hfound : (entries.reverse.find? (·.name = entry.name)).isSome = true :=
    List.find?_isSome.mpr ⟨entry, List.mem_reverse.mpr hentry, by simp⟩
  obtain ⟨found, hfound⟩ := Option.isSome_iff_exists.mp hfound
  have hmem := List.mem_reverse.mp (List.mem_of_find?_eq_some hfound)
  have hname : found.name = entry.name := by simpa using List.find?_some hfound
  rw [hfound, Option.some_or, List.inj_on_of_nodup_map h hmem hentry hname]

theorem find?_entries (table : Table) (name : String) :
    table.entries.find? (·.name = name) = table.get? name := by
  cases hfound : table.entries.find? (·.name = name) with
  | some entry =>
      have hname : entry.name = name := by simpa using List.find?_some hfound
      exact (get?_eq_some_iff.mpr ⟨List.mem_of_find?_eq_some hfound, hname⟩).symm
  | none =>
      cases hentry : table.get? name with
      | none => rfl
      | some entry =>
          obtain ⟨hmem, hname⟩ := get?_eq_some_iff.mp hentry
          have hother := List.find?_eq_none.mp hfound entry hmem
          rw [decide_eq_true_eq] at hother
          exact absurd hname hother

theorem mem_names_iff {name : String} :
    name ∈ table.entries.map (·.name) ↔ (table.get? name).isSome := by
  rw [Option.isSome_iff_exists, List.mem_map]
  simp only [get?_eq_some_iff]

/-! ## Tables that say the same -/

section Views

variable {α : Type*} {view : Entry → α} (nameOf : α → String)

/-- What is taken of the entries of a table has one order, if the names are taken. -/
theorem map_entries_of_perm (hname : ∀ entry, nameOf (view entry) = entry.name)
    (h : (table.entries.map view).Perm (other.entries.map view)) :
    table.entries.map view = other.entries.map view := by
  have hordered : ∀ t : Table, (t.entries.map view).Pairwise
      fun a b => compare (nameOf a) (nameOf b) = .lt := by
    intro t
    rw [List.pairwise_map]
    simp only [hname]
    exact t.entries_ordered
  apply h.eq_of_pairwise ?_ (hordered table) (hordered other)
  intro a b _ _ hlt hgt
  exact absurd hgt (Std.OrientedCmp.not_lt_of_lt hlt)

/-- Tables of whose entries the same is taken, name by name, list the same. -/
theorem map_entries_congr (h : ∀ name, (table.get? name).map view = (other.get? name).map view) :
    table.entries.map view = other.entries.map view := by
  have hviews : ∀ t : Table, (t.entries.map view).map some =
      (t.entries.map (·.name)).map fun name => (t.get? name).map view := by
    intro t
    rw [List.map_map, List.map_map]
    apply List.map_congr_left
    intro entry hentry
    exact (congrArg (Option.map view) (mem_entries_iff.mp hentry)).symm
  have hnames : table.entries.map (·.name) = other.entries.map (·.name) := by
    apply map_entries_of_perm id fun _ => rfl
    rw [List.perm_ext_iff_of_nodup table.nodup_names other.nodup_names]
    intro name
    have hsome := congrArg Option.isSome (h name)
    rw [Option.isSome_map, Option.isSome_map] at hsome
    rw [mem_names_iff, mem_names_iff, hsome]
  apply List.map_injective_iff.mpr (Option.some_injective α)
  rw [hviews, hviews, hnames]
  simp only [h]

theorem map_get?_congr (hname : ∀ entry, nameOf (view entry) = entry.name)
    (h : table.entries.map view = other.entries.map view) (name : String) :
    (table.get? name).map view = (other.get? name).map view := by
  have hfind : ∀ t : Table, (t.get? name).map view =
      (t.entries.map view).find? (nameOf · = name) := by
    intro t
    rw [List.find?_map, ← t.find?_entries]
    simp only [Function.comp_def, hname]
  rw [hfind, hfind, h]

end Views

theorem map_content_entries_of_perm
    (h : (table.entries.map Entry.content).Perm (other.entries.map Entry.content)) :
    table.entries.map Entry.content = other.entries.map Entry.content :=
  map_entries_of_perm Prod.fst (fun _ => rfl) h

theorem map_content_entries_congr
    (h : ∀ name, (table.get? name).map Entry.content = (other.get? name).map Entry.content) :
    table.entries.map Entry.content = other.entries.map Entry.content :=
  map_entries_congr h

theorem contains_congr
    (h : table.entries.map Entry.content = other.entries.map Entry.content) (name : String) :
    table.contains name = other.contains name := by
  have hnames : ∀ t : Table, t.contains name = true ↔
      name ∈ (t.entries.map Entry.content).map (·.1) := by
    intro t
    rw [contains_iff, List.map_map, List.mem_map]
    rfl
  rw [Bool.eq_iff_iff, hnames, hnames, h]

theorem unknownDependency?_congr
    (h : table.entries.map Entry.content = other.entries.map Entry.content) :
    table.unknownDependency? = other.unknownDependency? := by
  have hcontents : ∀ t : Table, t.unknownDependency? =
      (t.entries.map Entry.content).findSome? fun content =>
        (content.2.2.find? fun dependency => !t.contains dependency.name).map
          fun dependency => (content.1, dependency.name) := by
    intro t
    rw [List.findSome?_map]
    rfl
  rw [hcontents, hcontents, h]
  simp only [contains_congr h]

end Table

namespace Graph

/-! ## Graphs of entries that say the same -/

/-- The graph of `size` entries with numbers of their own. -/
def ofNumbered (size : Nat) (entry : Fin size → Entry) : Graph :=
  let index := (List.finRange size).foldl (fun index i => index.insert (entry i).name i) ∅
  ⟨size, .ofFn fun i => nodeOf index (entry i), index⟩

theorem ofEntries_eq (entries : Array Entry) :
    ofEntries entries = ofNumbered entries.size (entryAt entries) := rfl

theorem nodeOf_congr {size : Nat} {entry other : Entry} (h : entry.listed = other.listed)
    (index : Std.TreeMap String (Fin size)) : nodeOf index entry = nodeOf index other := by
  simp only [Entry.listed, Listed.mk.injEq] at h
  obtain ⟨hname, hdefault, hpositive, hnegative⟩ := h
  unfold nodeOf
  rw [hname, hdefault, hpositive, hnegative]

theorem ofNumbered_congr {size size' : Nat} (hsize : size = size') {entry : Fin size → Entry}
    {entry' : Fin size' → Entry}
    (h : ∀ i, (entry i).listed = (entry' (i.cast hsize)).listed) :
    ofNumbered size entry = ofNumbered size' entry' := by
  subst hsize
  have hnames : ∀ i, (entry i).name = (entry' i).name := by
    intro i
    exact congrArg Listed.name (h i)
  unfold ofNumbered
  simp only [hnames, nodeOf_congr (h _), Fin.cast_eq_self]

theorem ofEntries_congr {entries others : List Entry}
    (h : entries.map Entry.listed = others.map Entry.listed) :
    ofEntries entries.toArray = ofEntries others.toArray := by
  have hsize : entries.length = others.length := by
    simpa using congrArg List.length h
  rw [ofEntries_eq, ofEntries_eq]
  apply ofNumbered_congr hsize
  intro i
  have hi := List.getElem_of_eq h (i := i.val) (by simp)
  simpa [entryAt] using hi

theorem link_congr {table other : Table}
    (h : table.entries.map Entry.content = other.entries.map Entry.content) :
    link table = link other := by
  unfold link
  rw [Table.unknownDependency?_congr h, ofEntries_congr (map_listed_congr h)]

/-- Which fault linking reports depends on the order of the dependencies, but no graph does. -/
theorem link_eq_ok_congr {table other : Table} {graph : Graph}
    (h : table.entries.map Entry.listed = other.entries.map Entry.listed) :
    link table = .ok graph ↔ link other = .ok graph := by
  have hknown : ∀ t : Table, t.unknownDependency? = none ↔
      ∀ row ∈ t.entries.map Entry.listed, ∀ name ∈ row.positive ++ row.negative,
        ∃ declared ∈ t.entries.map Entry.listed, declared.name = name := by
    intro t
    rw [Table.unknownDependency?_eq_none_iff, List.forall_mem_map]
    refine forall₂_congr fun entry _ => ?_
    simp only [Entry.listed, ← Entry.exists_dependency_iff, List.mem_map,
      exists_exists_and_eq_and, forall_exists_index, and_imp, forall_apply_eq_imp_iff₂]
  rw [link_eq_ok_iff, link_eq_ok_iff, hknown, hknown, h, ofEntries_congr h]

end Graph

theorem Table.resolve_congr {table other : Table}
    (h : table.entries.map Entry.content = other.entries.map Entry.content) :
    table.resolve = other.resolve := by
  unfold Table.resolve
  rw [Graph.link_congr h]

end FeatureFlags
