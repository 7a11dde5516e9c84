import FeatureFlags.Proofs.Contents
import FeatureFlags.Proofs.Equations

/-!
# Overridden defaults

Overrides give declared entries other defaults and change nothing else (`entries_applyOverrides`), so
that the graph of the table keeps its nodes and conditions (`link_applyOverrides`). Where nothing is
negated, defaults that are only turned off leave every node with a value, and turn no node on
(`Settles.withDefaults`, `resolve_turned_off`).
-/

namespace FeatureFlags

/-- The entry with the default that `overrides` gives it. -/
def Entry.override (overrides : Overrides) (entry : Entry) : Entry :=
  { entry with default := (overrides.get? entry.name).getD entry.default }

namespace Table

variable {table : Table} {overrides : Overrides}

/-! ## Tables -/

theorem get?_setDefault (table : Table) (name : String) (value : Toggle) (other : String) :
    (table.setDefault name value).get? other =
      (table.get? other).map fun entry =>
        if name = other then { entry with default := value } else entry := by
  unfold setDefault get?
  cases hname : table.definitions[name]? with
  | none =>
      by_cases h : name = other
      · subst h
        simp only [hname, Option.map_none]
      · simp only [if_neg h, Option.map_id']
  | some definition =>
      by_cases h : name = other
      · subst h
        simp [hname, Definition.entry]
      · simp only [Std.TreeMap.getElem?_insert, Std.LawfulEqCmp.compare_eq_iff_eq, if_neg h,
          Option.map_id']

/-- Of several values for one name the last one counts. -/
theorem get?_foldl_setDefault (pairs : List (String × Toggle)) (table : Table) (name : String) :
    (pairs.foldl (fun table (name, value) => table.setDefault name value) table).get? name =
      (table.get? name).map fun entry =>
        { entry with default := ((pairs.findRev? (·.1 = name)).map (·.2)).getD entry.default } := by
  induction pairs generalizing table with
  | nil => simp [List.findRev?]
  | cons pair pairs ih =>
      rw [List.foldl_cons, ih, get?_setDefault, Option.map_map, List.findRev?]
      congr 1
      funext entry
      cases pairs.findRev? (·.1 = name) with
      | some found => by_cases h : pair.1 = name <;> simp [h]
      | none => by_cases h : pair.1 = name <;> simp [h]

end Table

theorem Overrides.mem_toList_iff {overrides : Overrides} {name : String} {value : Toggle} :
    (name, value) ∈ overrides.toList ↔ overrides.get? name = some value :=
  Std.TreeMap.mem_toList_iff_getElem?_eq_some

theorem Overrides.findRev?_toList (overrides : Overrides) (name : String) :
    (overrides.toList.findRev? (·.1 = name)).map (·.2) = overrides.get? name := by
  rw [List.findRev?_eq_find?_reverse]
  cases hfound : overrides.toList.reverse.find? (·.1 = name) with
  | some pair =>
      obtain ⟨found, value⟩ := pair
      obtain rfl : found = name := by simpa using List.find?_some hfound
      exact (mem_toList_iff.mp (List.mem_reverse.mp (List.mem_of_find?_eq_some hfound))).symm
  | none =>
      cases hvalue : overrides.get? name with
      | none => rfl
      | some value =>
          have := List.find?_eq_none.mp hfound _ (List.mem_reverse.mpr (mem_toList_iff.mpr hvalue))
          simp at this

namespace Table

variable {table : Table} {overrides : Overrides}

theorem get?_applyOverrides (table : Table) (overrides : Overrides) (name : String) :
    (table.applyOverrides overrides).get? name =
      (table.get? name).map (Entry.override overrides) := by
  unfold applyOverrides
  rw [get?_foldl_setDefault, overrides.findRev?_toList]
  cases hentry : table.get? name with
  | none => rfl
  | some entry =>
      obtain rfl := name_of_get? hentry
      rfl

/-- The entries stay what they are and where they are, but for their defaults. -/
theorem entries_applyOverrides (table : Table) (overrides : Overrides) :
    (table.applyOverrides overrides).entries = table.entries.map (Entry.override overrides) := by
  have hirrefl : Std.Irrefl fun a b : Entry => compare a.name b.name = .lt :=
    ⟨fun _ => Std.ReflCmp.compare_self.trans_ne (by decide)⟩
  have hantisymm : Std.Antisymm fun a b : Entry => compare a.name b.name = .lt :=
    ⟨fun _ _ hlt hgt => absurd hgt (Std.OrientedCmp.not_lt_of_lt hlt)⟩
  have hordered : (table.entries.map (Entry.override overrides)).Pairwise
      fun a b => compare a.name b.name = .lt := by
    rw [List.pairwise_map]
    exact table.entries_ordered
  apply (entries_ordered _).eq_of_mem_iff hordered
  intro entry
  rw [mem_entries_iff, get?_applyOverrides, Option.map_eq_some_iff, List.mem_map]
  constructor
  · rintro ⟨found, hfound, hentry⟩
    exact ⟨found, (get?_eq_some_iff.mp hfound).1, hentry⟩
  · rintro ⟨found, hfound, rfl⟩
    exact ⟨found, mem_entries_iff.mp hfound, rfl⟩

theorem contains_applyOverrides (table : Table) (overrides : Overrides) (name : String) :
    (table.applyOverrides overrides).contains name = table.contains name := by
  rw [Bool.eq_iff_iff, contains_iff, contains_iff, entries_applyOverrides]
  simp only [List.mem_map, exists_exists_and_eq_and]
  rfl

theorem unknownDependency?_applyOverrides (table : Table) (overrides : Overrides) :
    (table.applyOverrides overrides).unknownDependency? = table.unknownDependency? := by
  unfold unknownDependency?
  simp only [entries_applyOverrides, contains_applyOverrides, List.findSome?_map]
  rfl

end Table

namespace Graph

/-! ## Graphs -/

/-- The graph with other defaults for its nodes. -/
def withDefaults (graph : Graph) (defaults : Fin graph.size → Toggle) : Graph :=
  { graph with nodes := .ofFn fun i => { graph.node i with default := defaults i } }

section WithDefaults

variable (graph : Graph) (defaults : Fin graph.size → Toggle) (i : Fin graph.size)

theorem node_withDefaults :
    (graph.withDefaults defaults).node i = { graph.node i with default := defaults i } :=
  Vector.getElem_ofFn i.isLt

@[simp] theorem name_withDefaults :
    ((graph.withDefaults defaults).node i).name = (graph.node i).name := by
  rw [node_withDefaults]

@[simp] theorem default_withDefaults :
    ((graph.withDefaults defaults).node i).default = defaults i := by
  rw [node_withDefaults]

@[simp] theorem conditions_withDefaults :
    ((graph.withDefaults defaults).node i).conditions = (graph.node i).conditions := by
  rw [node_withDefaults]
  rfl

end WithDefaults

/-- The default of each node, as `overrides` has it. -/
def overridden (graph : Graph) (overrides : Overrides) (i : Fin graph.size) : Toggle :=
  (overrides.get? (graph.node i).name).getD (graph.node i).default

theorem ofNumbered_override {size : Nat} (entry : Fin size → Entry) (overrides : Overrides) :
    ofNumbered size (fun i => (entry i).override overrides) =
      (ofNumbered size entry).withDefaults ((ofNumbered size entry).overridden overrides) := by
  -- Names are not overridden, so that both graphs have one index.
  have hnode : ∀ i : Fin size,
      nodeOf (ofNumbered size entry).index ((entry i).override overrides) =
        { (ofNumbered size entry).node i with
          default := (ofNumbered size entry).overridden overrides i } := by
    intro i
    have hentry : (ofNumbered size entry).node i =
        nodeOf (ofNumbered size entry).index (entry i) := Vector.getElem_ofFn i.isLt
    unfold overridden
    rw [hentry]
    rfl
  have hnodes := funext hnode
  exact congrArg (fun nodes => Graph.mk size (.ofFn nodes) (ofNumbered size entry).index) hnodes

/-- Defaults may be overridden before linking or after it. -/
theorem link_applyOverrides (table : Table) (overrides : Overrides) :
    link (table.applyOverrides overrides) =
      (link table).map fun graph => graph.withDefaults (graph.overridden overrides) := by
  unfold link
  rw [Table.unknownDependency?_applyOverrides, Table.entries_applyOverrides]
  cases table.unknownDependency? with
  | some pair => rfl
  | none =>
      have hsize : (table.entries.map (Entry.override overrides)).toArray.size =
          table.entries.toArray.size := by simp
      have hsame : ofEntries (table.entries.map (Entry.override overrides)).toArray =
          ofNumbered table.entries.toArray.size
            fun i => (entryAt table.entries.toArray i).override overrides :=
        ofNumbered_congr hsize fun i => by simp [entryAt]
      exact congrArg Except.ok (hsame.trans (ofNumbered_override _ overrides))

/-! ## Derivations -/

variable {graph : Graph} {node : Fin graph.size}

/-- Conditions on settled nodes all hold, or the first that does not settles the node as off. -/
theorem settles_conditions {checked rest : List (Condition graph.size)}
    (hyes : (graph.node node).default = .yes)
    (hsplit : (graph.node node).conditions = checked ++ rest)
    (hsettled : ∀ c ∈ checked, ∃ value, graph.Settles c.node value) :
    (∀ c ∈ checked, graph.Settles c.node c.wanted) ∨ graph.Settles node false := by
  induction checked using List.reverseRecOn generalizing rest with
  | nil => exact .inl (List.forall_mem_nil _)
  | append_singleton checked condition ih =>
      rw [List.append_assoc] at hsplit
      obtain ⟨hchecked, hcondition⟩ := List.forall_mem_append.mp hsettled
      rcases ih hsplit hchecked with hmet | hoff
      · obtain ⟨value, hvalue⟩ := hcondition condition (List.mem_singleton_self _)
        by_cases hwanted : value = condition.wanted
        · refine .inl (List.forall_mem_append.mpr ⟨hmet, ?_⟩)
          rw [List.forall_mem_singleton]
          exact hwanted ▸ hvalue
        · rw [Bool.eq_not_of_ne hwanted] at hvalue
          exact .inr (.unmet hyes hsplit hmet hvalue)
      · exact .inr hoff

variable {defaults : Fin graph.size → Toggle}

/-- The same with other defaults, of which that of the node may be `no`. -/
theorem settles_conditions_withDefaults {checked rest : List (Condition graph.size)}
    (hsplit : (graph.node node).conditions = checked ++ rest)
    (hsettled : ∀ c ∈ checked, ∃ value, (graph.withDefaults defaults).Settles c.node value) :
    (defaults node = .yes ∧
        ∀ c ∈ checked, (graph.withDefaults defaults).Settles c.node c.wanted) ∨
      (graph.withDefaults defaults).Settles node false := by
  cases hdefault : defaults node with
  | no => exact .inr (.off ((default_withDefaults ..).trans hdefault))
  | yes =>
      have hyes := (default_withDefaults graph defaults node).trans hdefault
      have hconditions := (conditions_withDefaults graph defaults node).trans hsplit
      exact (settles_conditions hyes hconditions hsettled).imp_left fun hmet => ⟨rfl, hmet⟩

/--
Without negation, turning defaults off leaves each settled node with a value, which is not on if it
was off before.
-/
theorem Settles.withDefaults {value : Bool} (h : graph.Settles node value)
    (hpositive : ∀ i, ∀ c ∈ (graph.node i).conditions, c.wanted = true)
    (hlowered : ∀ i, defaults i = .yes → (graph.node i).default = .yes) :
    ∃ other, (graph.withDefaults defaults).Settles node other ∧ (other = true → value = true) := by
  -- The derivation says which conditions can be checked again: those up to where it stopped.
  induction h with
  | @off node hno =>
      have hdefault : defaults node = .no := by
        cases hdefault : defaults node with
        | no => rfl
        | yes => cases hno.symm.trans (hlowered node hdefault)
      exact ⟨false, .off ((default_withDefaults ..).trans hdefault), id⟩
  | @unmet node met rest condition hyes hsplit hmet hunmet ihmet ihunmet =>
      obtain ⟨found, hfound, hoff⟩ := ihunmet
      have hsettled : ∀ c ∈ met ++ [condition],
          ∃ value, (graph.withDefaults defaults).Settles c.node value := by
        intro c hc
        rcases List.mem_append.mp hc with hc | hc
        · obtain ⟨other, hother, -⟩ := ihmet c hc
          exact ⟨other, hother⟩
        · rw [List.mem_singleton.mp hc]
          exact ⟨found, hfound⟩
      have hchecked : (graph.node node).conditions = met ++ [condition] ++ rest := by
        rw [hsplit, List.append_assoc]
        rfl
      rcases settles_conditions_withDefaults hchecked hsettled with ⟨-, hall⟩ | hnode
      · -- A condition that did not hold is on a node that was off, and stays off.
        have hwanted := hpositive node condition (hsplit ▸ List.mem_append_cons_self)
        have hon := hall condition (List.mem_append_right _ (List.mem_singleton_self _))
        rw [hwanted] at hon hoff
        cases hoff (hfound.unique hon)
      · exact ⟨false, hnode, id⟩
  | @on node hyes hmet ihmet =>
      have hsettled : ∀ c ∈ (graph.node node).conditions,
          ∃ value, (graph.withDefaults defaults).Settles c.node value := by
        intro c hc
        obtain ⟨other, hother, -⟩ := ihmet c hc
        exact ⟨other, hother⟩
      rcases settles_conditions_withDefaults (List.append_nil _).symm hsettled with
        ⟨hdefault, hall⟩ | hoff
      · refine ⟨true, .on ((default_withDefaults ..).trans hdefault) ?_, id⟩
        rw [conditions_withDefaults]
        exact hall
      · exact ⟨false, hoff, fun _ => rfl⟩

/-- The graph of a table in which nothing is negated has nodes that must be on only. -/
theorem wanted_of_positive {table : Table} (hlink : link table = .ok graph)
    (hpositive : ∀ entry ∈ table.entries, ∀ dependency ∈ entry.dependencies,
      dependency.negated = false) :
    ∀ i, ∀ c ∈ (graph.node i).conditions, c.wanted = true := by
  intro i c hc
  obtain ⟨entry, hentry, hrepresents⟩ := represents_of_link hlink i
  have hnegative : entry.negative = [] := by
    unfold Entry.negative
    rw [List.map_eq_nil_iff, List.filter_eq_nil_iff]
    intro dependency hdependency
    simp [hpositive entry (List.mem_of_getElem? hentry) dependency hdependency]
  have hconflicts : (graph.node i).conflicts = [] :=
    List.map_eq_nil_iff.mp (hrepresents.conflicts.trans hnegative)
  rw [Node.conditions, hconflicts, List.map_nil, List.append_nil, List.mem_map] at hc
  obtain ⟨_, -, rfl⟩ := hc
  rfl

end Graph

/-! ## Resolutions -/

open FeatureFlags.Graph Evaluator

/-- A table is resolved if each node of its graph has a value. -/
theorem Table.resolve_of_settles {table : Table} {graph : Graph} (hlink : link table = .ok graph)
    {names : Fin graph.size → String} {values : Fin graph.size → Bool}
    (hnames : ∀ i, (graph.node i).name = names i) (hsettles : ∀ i, graph.Settles i (values i)) :
    table.resolve = .ok ⟨Array.ofFn fun i => (names i, values i)⟩ := by
  obtain rfl : (fun i => (graph.node i).name) = names := funext hnames
  unfold Table.resolve
  simp only [hlink]
  exact resolution_eq_ok (resting_new graph) fun i => reference_eq_ok_iff.mpr (hsettles i)

theorem Resolution.enabled_ofFn {size : Nat} (names : Fin size → String)
    (values : Fin size → Bool) :
    (⟨Array.ofFn fun i => (names i, values i)⟩ : Resolution).enabled =
      ((List.finRange size).filter values).map names := by
  unfold enabled
  rw [Array.toList_ofFn, List.ofFn_eq_map, List.filter_map, List.map_map]
  rfl

/--
**Turning defaults off turns nothing on.** A table that is resolved and in which nothing is negated
is resolved with any of its defaults overridden by `no`: no cycle comes up. The names that are on
then were on before.
-/
theorem resolve_turned_off {table : Table} {before : Resolution} {overrides : Overrides}
    (hpositive : ∀ entry ∈ table.entries, ∀ dependency ∈ entry.dependencies,
      dependency.negated = false)
    (hresolve : table.resolve = .ok before)
    (hno : ∀ name value, overrides.get? name = some value → value = .no) :
    ∃ after, (table.applyOverrides overrides).resolve = .ok after ∧
      after.enabled.Sublist before.enabled := by
  obtain ⟨graph, hlink, values, hsettles, rfl⟩ := Table.resolve_eq_ok hresolve
  have hlowered : ∀ i, graph.overridden overrides i = .yes → (graph.node i).default = .yes := by
    intro i hyes
    unfold overridden at hyes
    cases hvalue : overrides.get? (graph.node i).name with
    | none => rwa [hvalue] at hyes
    | some value =>
        obtain rfl := hno _ value hvalue
        rw [hvalue] at hyes
        cases hyes
  choose others hothers hon using fun i =>
    (hsettles i).withDefaults (wanted_of_positive hlink hpositive) hlowered
  have hlink' : link (table.applyOverrides overrides) =
      .ok (graph.withDefaults (graph.overridden overrides)) := by
    rw [link_applyOverrides, hlink]
    rfl
  have hafter : (table.applyOverrides overrides).resolve =
      .ok ⟨Array.ofFn fun i : Fin graph.size => ((graph.node i).name, others i)⟩ :=
    Table.resolve_of_settles hlink' (name_withDefaults graph _) hothers
  refine ⟨_, hafter, ?_⟩
  rw [Resolution.enabled_ofFn, Resolution.enabled_ofFn]
  exact (List.monotone_filter_right _ hon).map _

/-- `APP` needs `NET`, which needs `CORE`; `LOOP` never gets to its condition on itself. -/
def layers : Table :=
  (((Table.empty.insert ⟨"APP", .yes, [⟨"NET", false⟩], ⟨⟨"main"⟩, 1⟩⟩).insert
    ⟨"NET", .yes, [⟨"CORE", false⟩], ⟨⟨"main"⟩, 2⟩⟩).insert
    ⟨"CORE", .yes, [], ⟨⟨"main"⟩, 3⟩⟩).insert
    ⟨"LOOP", .yes, [⟨"OFF", false⟩, ⟨"LOOP", false⟩], ⟨⟨"main"⟩, 4⟩⟩ |>.insert
    ⟨"OFF", .no, [], ⟨⟨"main"⟩, 5⟩⟩

/-- The second name is not declared. -/
def netOff : Overrides := .ofList [("NET", .no), ("GHOST", .no)]

theorem resolve_turned_off_layers :
    layers.resolve = .ok ⟨#[("APP", true), ("CORE", true), ("LOOP", false), ("NET", true),
      ("OFF", false)]⟩ ∧
    (layers.applyOverrides netOff).resolve = .ok ⟨#[("APP", false), ("CORE", true),
      ("LOOP", false), ("NET", false), ("OFF", false)]⟩ ∧
    ["CORE"].Sublist ["APP", "CORE", "NET"] := by
  have hresolve : layers.resolve = .ok ⟨#[("APP", true), ("CORE", true), ("LOOP", false),
      ("NET", true), ("OFF", false)]⟩ := by cbv
  have hafter : (layers.applyOverrides netOff).resolve = .ok ⟨#[("APP", false), ("CORE", true),
      ("LOOP", false), ("NET", false), ("OFF", false)]⟩ := by cbv
  have hpositive : ∀ entry ∈ layers.entries, ∀ dependency ∈ entry.dependencies,
      dependency.negated = false := by
    have hall : (layers.entries.all fun entry => entry.dependencies.all (! ·.negated)) = true := by
      cbv
    simpa using hall
  have hno : ∀ name value, netOff.get? name = some value → value = .no := by
    intro name value hvalue
    have hmem : (name, value) ∈ netOff.toList :=
      Std.TreeMap.mem_toList_iff_getElem?_eq_some.mpr hvalue
    have hlist : netOff.toList = [("GHOST", .no), ("NET", .no)] := by cbv
    rw [hlist] at hmem
    simp only [List.mem_cons, Prod.mk.injEq, List.not_mem_nil, or_false] at hmem
    rcases hmem with ⟨-, rfl⟩ | ⟨-, rfl⟩ <;> rfl
  obtain ⟨after, hresolved, hsublist⟩ := resolve_turned_off hpositive hresolve hno
  obtain rfl := Except.ok.inj (hresolved.symm.trans hafter)
  exact ⟨hresolve, hafter, hsublist⟩

end FeatureFlags
