import FeatureFlags.Proofs.Histories
import FeatureFlags.Proofs.Linking

/-!
# The equations of a table

Read as equations, the declarations of a table say of every entry that it is on exactly when its
default is `yes`, all it requires is on and all it conflicts with is off. Evaluating stops at the
first condition that fails and need not walk every cycle of a graph, and still a value that it
gives is the value in every solution (`Settles.eq_of_solves`). A resolution is a solution, and the
only one (`resolution_only_solution`).
-/

namespace FeatureFlags

/-! ## Solutions on names and on nodes -/

/-- `values` gives every entry of the table the value that its declaration asks for. -/
def Table.Solves (table : Table) (values : String → Bool) : Prop :=
  ∀ entry ∈ table.entries, values entry.name = true ↔
    entry.default = .yes ∧ (∀ name ∈ entry.positive, values name = true) ∧
      ∀ name ∈ entry.negative, values name = false

namespace Graph

variable {graph : Graph}

/-- `values` gives every node the value that all of its conditions together ask for. -/
def Solves (graph : Graph) (values : Fin graph.size → Bool) : Prop :=
  ∀ i, values i = true ↔ (graph.node i).default = .yes ∧
    ∀ c ∈ (graph.node i).conditions, values c.node = c.wanted

theorem forall_conditions_iff {size : Nat} (node : Node size) (values : Fin size → Bool) :
    (∀ c ∈ node.conditions, values c.node = c.wanted) ↔
      (∀ i ∈ node.requires, values i = true) ∧ ∀ i ∈ node.conflicts, values i = false := by
  simp only [Node.conditions, List.mem_append, List.mem_map]
  constructor
  · intro h
    constructor
    · intro i hi
      exact h ⟨i, true⟩ (.inl ⟨i, hi, rfl⟩)
    · intro i hi
      exact h ⟨i, false⟩ (.inr ⟨i, hi, rfl⟩)
  · rintro ⟨hrequires, hconflicts⟩ c (⟨i, hi, rfl⟩ | ⟨i, hi, rfl⟩)
    · exact hrequires i hi
    · exact hconflicts i hi

/-- The equation of a node is that of the entry which it represents. -/
theorem Represents.equation_iff {i : Fin graph.size} {entry : Entry}
    (h : graph.Represents i entry) (values : String → Bool) :
    ((graph.node i).default = .yes ∧
        ∀ c ∈ (graph.node i).conditions, values (graph.node c.node).name = c.wanted) ↔
      entry.default = .yes ∧ (∀ name ∈ entry.positive, values name = true) ∧
        ∀ name ∈ entry.negative, values name = false := by
  rw [forall_conditions_iff _ fun j => values (graph.node j).name, h.default, ← h.requires,
    ← h.conflicts, List.forall_mem_map, List.forall_mem_map]

theorem solves_iff {table : Table} (hlink : link table = .ok graph) (values : String → Bool) :
    table.Solves values ↔ graph.Solves fun i => values (graph.node i).name := by
  constructor
  · intro h i
    obtain ⟨entry, hentry, hrepresents⟩ := represents_of_link hlink i
    show values (graph.node i).name = true ↔ _
    rw [hrepresents.equation_iff values, hrepresents.name]
    exact h entry (List.mem_of_getElem? hentry)
  · intro h entry hmem
    obtain ⟨i, hrepresents⟩ := exists_represents hlink hmem
    rw [← hrepresents.equation_iff values, ← hrepresents.name]
    exact h i

/-- Values of nodes are values of names. -/
theorem exists_named {table : Table} (hlink : link table = .ok graph)
    (values : Fin graph.size → Bool) :
    ∃ named : String → Bool, ∀ i, named (graph.node i).name = values i := by
  refine ⟨fun name => ((graph.id? name).map values).getD false, ?_⟩
  intro i
  have hid := (id?_eq_some_iff hlink (i := i)).mpr rfl
  show ((graph.id? (graph.node i).name).map values).getD false = values i
  rw [hid]
  rfl

theorem toList_ofFn_of_link {table : Table} (hlink : link table = .ok graph)
    (values : String → Bool) :
    (Array.ofFn fun i => ((graph.node i).name, values (graph.node i).name)).toList =
      table.entries.map fun entry => (entry.name, values entry.name) := by
  apply List.ext_getElem
  · simp [size_of_link hlink]
  · intro n hn hn'
    have hlt : n < graph.size := by simpa using hn
    have hlt' : n < table.entries.length := by simpa using hn'
    obtain ⟨entry, hentry, hrepresents⟩ := represents_of_link hlink ⟨n, hlt⟩
    rw [List.getElem?_eq_getElem hlt', Option.some.injEq] at hentry
    subst hentry
    rw [Array.getElem_toList, Array.getElem_ofFn, List.getElem_map, hrepresents.name]

/-! ## Evaluation against solutions -/

/-- A value that evaluating gives is the value in every solution. -/
theorem Settles.eq_of_solves {node : Fin graph.size} {value : Bool}
    (h : graph.Settles node value) {values : Fin graph.size → Bool}
    (hsolves : graph.Solves values) : values node = value := by
  induction h with
  | @off node hno =>
      rw [Bool.eq_false_iff]
      intro htrue
      obtain ⟨hyes, -⟩ := (hsolves node).mp htrue
      cases hno.symm.trans hyes
  | @unmet node met rest condition hyes hsplit hmet hunmet ihmet ihunmet =>
      -- The conditions in `rest` may be on a cycle: the unmet one is enough.
      rw [Bool.eq_false_iff]
      intro htrue
      obtain ⟨-, hall⟩ := (hsolves node).mp htrue
      have hwanted := hall condition (hsplit ▸ List.mem_append_cons_self)
      rw [ihunmet] at hwanted
      simp at hwanted
  | @on node hyes hmet ihmet => exact (hsolves node).mpr ⟨hyes, ihmet⟩

/-- The values of all nodes, if each has one, are a solution. -/
theorem solves_of_settles {values : Fin graph.size → Bool}
    (h : ∀ i, graph.Settles i (values i)) : graph.Solves values := by
  intro i
  constructor
  · intro htrue
    have hsettles := h i
    rw [htrue] at hsettles
    cases hsettles with
    | on hyes hmet =>
        refine ⟨hyes, ?_⟩
        intro c hc
        exact (h c.node).unique (hmet c hc)
  · rintro ⟨hyes, hmet⟩
    apply (h i).unique
    apply Settles.on hyes
    intro c hc
    rw [← hmet c hc]
    exact h c.node

end Graph

/-! ## The resolution of a table -/

open FeatureFlags.Graph Evaluator

theorem Table.resolve_eq_ok {table : Table} {resolution : Resolution}
    (h : table.resolve = .ok resolution) :
    ∃ graph, link table = .ok graph ∧ ∃ values : Fin graph.size → Bool,
      (∀ i, graph.Settles i (values i)) ∧
        resolution = ⟨Array.ofFn fun i => ((graph.node i).name, values i)⟩ := by
  unfold Table.resolve at h
  cases hlink : link table with
  | error error => simp [hlink] at h
  | ok graph =>
      simp only [hlink] at h
      refine ⟨graph, rfl, ?_⟩
      rcases resolution_cases (resting_new graph) with ⟨values, hvalues, hall⟩ | ⟨_, _, _, _, hall⟩
      · refine ⟨values, ?_, Except.ok.inj (h.symm.trans hall)⟩
        intro i
        exact reference_eq_ok_iff.mp (hvalues i)
      · exact absurd (h.symm.trans hall) (by simp)

/--
**A resolution is the only solution of its table.** It lists the entries in order, each with its
value in a solution, from which no other solution differs on an entry. And whenever a single
entry is given a value, after any calls and also on a graph with cycles, every solution gives it
that value.
-/
theorem resolution_only_solution (table : Table) :
    (∀ resolution, table.resolve = .ok resolution →
      ∃ values, table.Solves values ∧
        resolution.values.toList = table.entries.map (fun entry => (entry.name, values entry.name)) ∧
        ∀ other, table.Solves other →
          ∀ entry ∈ table.entries, other entry.name = values entry.name) ∧
    ∀ graph calls name value, link table = .ok graph →
      ((afterCalls graph calls).valueOf? name).1 = some (.ok value) →
        ∀ other, table.Solves other → other name = value := by
  constructor
  · intro resolution hresolve
    obtain ⟨graph, hlink, values, hsettles, rfl⟩ := Table.resolve_eq_ok hresolve
    obtain ⟨named, hnamed⟩ := exists_named hlink values
    refine ⟨named, ?_, ?_, ?_⟩
    · rw [solves_iff hlink]
      simp only [hnamed]
      exact solves_of_settles hsettles
    · simp only [← hnamed]
      exact toList_ofFn_of_link hlink named
    · intro other hother entry hmem
      obtain ⟨i, hrepresents⟩ := exists_represents hlink hmem
      rw [← hrepresents.name, hnamed]
      exact (hsettles i).eq_of_solves ((solves_iff hlink other).mp hother)
  · intro graph calls name value hlink hanswer other hother
    rw [(valueOf?_spec (resting_afterCalls graph calls) name).1] at hanswer
    obtain ⟨node, hnode, hvalue⟩ := Option.map_eq_some_iff.mp hanswer
    rw [← (id?_eq_some_iff hlink).mp hnode]
    exact (reference_eq_ok_iff.mp hvalue).eq_of_solves ((solves_iff hlink other).mp hother)

/-- `B` waits for `A`, which is off whatever `B` is; `C` is on without `B`. -/
def cutCycle : Table :=
  ((Table.empty.insert ⟨"A", .no, [⟨"B", false⟩], ⟨⟨"main"⟩, 1⟩⟩).insert
    ⟨"B", .yes, [⟨"A", false⟩], ⟨⟨"main"⟩, 2⟩⟩).insert
    ⟨"C", .yes, [⟨"B", true⟩], ⟨⟨"main"⟩, 3⟩⟩

theorem resolution_only_solution_cutCycle :
    cutCycle.resolve = .ok ⟨#[("A", false), ("B", false), ("C", true)]⟩ ∧
    (∃ values, cutCycle.Solves values ∧
      [("A", false), ("B", false), ("C", true)] =
        cutCycle.entries.map (fun entry => (entry.name, values entry.name)) ∧
      ∀ other, cutCycle.Solves other →
        ∀ entry ∈ cutCycle.entries, other entry.name = values entry.name) ∧
    ∀ other, cutCycle.Solves other → other "C" = true := by
  have hresolve : cutCycle.resolve = .ok ⟨#[("A", false), ("B", false), ("C", true)]⟩ := by cbv
  have hlink : link cutCycle = .ok (ofEntries cutCycle.entries.toArray) :=
    link_eq_ok_iff.mpr ⟨by cbv, rfl⟩
  have hanswer : ((afterCalls (ofEntries cutCycle.entries.toArray) [.all]).valueOf? "C").1 =
      some (.ok true) := by
    have hid : (ofEntries cutCycle.entries.toArray).id? "C" = some ⟨2, by decide⟩ := rfl
    rw [(valueOf?_spec (resting_afterCalls _ _) "C").1, hid]
    exact congrArg some (by cbv)
  refine ⟨hresolve, (resolution_only_solution cutCycle).1 _ hresolve, ?_⟩
  exact (resolution_only_solution cutCycle).2 _ [.all] "C" true hlink hanswer

end FeatureFlags
