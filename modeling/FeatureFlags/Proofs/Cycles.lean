import FeatureFlags.Proofs.Histories
import FeatureFlags.Proofs.Linking

/-!
# Cycles of demands

A node demands another when it really comes to check a condition on it: its default is `yes`, and
all conditions before that one hold. Evaluating fails exactly when demands lead from the node to a
cycle of demands, and the error names such a cycle (`fails_iff_demands_cycle`). A cycle behind a
condition that fails, and two ways to one node, are no errors.
-/

namespace FeatureFlags

open Relation

namespace Graph

variable {graph : Graph}

/-! ## Demands -/

/--
`graph.Demands node next`: the default of `node` is `yes`, one of its conditions is on `next`, and
a new evaluator finds all conditions before that one to hold.
-/
def Demands (graph : Graph) (node next : Fin graph.size) : Prop :=
  (graph.node node).default = .yes ∧
    ∃ met condition rest, (graph.node node).conditions = met ++ condition :: rest ∧
      condition.node = next ∧
      ∀ c ∈ met, ((Evaluator.new graph).value c.node).1 = .ok c.wanted

/-- The default of `node` is `yes`, and one of its conditions is on `next`. -/
def DependsOn (graph : Graph) (node next : Fin graph.size) : Prop :=
  (graph.node node).default = .yes ∧ ∃ c ∈ (graph.node node).conditions, c.node = next

/-- What a node demands is what it asks for: a new evaluator finds a value if there is one. -/
theorem demands_eq_asks (graph : Graph) : graph.Demands = graph.Asks := by
  ext node next
  have hvalue : ∀ c : Condition graph.size,
      ((Evaluator.new graph).value c.node).1 = .ok c.wanted ↔ graph.Settles c.node c.wanted := by
    intro c
    rw [(Evaluator.value_spec (Evaluator.resting_new graph) c.node).1]
    exact reference_eq_ok_iff
  simp only [Demands, Asks, hvalue]

theorem Asks.dependsOn {node next : Fin graph.size} (h : graph.Asks node next) :
    graph.DependsOn node next := by
  obtain ⟨hyes, met, c, rest, hsplit, hnode, -⟩ := h
  exact ⟨hyes, c, hsplit ▸ List.mem_append_cons_self, hnode⟩

/-! ## Paths that return -/

variable {path : List (Fin graph.size)} {back : Fin graph.size}

/-- Each node of a returning path asks, through others, for the node that it returns to. -/
theorem Returns.transGen_asks (h : graph.Returns path back) :
    ∀ p ∈ path, TransGen graph.Asks p back := by
  rcases path.eq_nil_or_concat' with rfl | ⟨init, last, rfl⟩
  · intro p hp
    cases hp
  · have hasks : graph.Asks last back := (List.isChain_cons_cons.mp h.isChain_from).1
    exact transGen_asks_of_isChain h.isChain_upTo hasks

/-- The cycle begins and ends with the node returned to, and between has the nodes after it. -/
theorem Returns.exists_cycleOf_eq (h : graph.Returns path back) :
    ∃ before after, path = before ++ back :: after ∧
      cycleOf path back = back :: (after ++ [back]) := by
  obtain ⟨before, after, rfl⟩ := List.append_of_mem h.mem
  refine ⟨before, after, rfl, ?_⟩
  have hbefore : ∀ p ∈ before, decide (p ≠ back) = true := by
    intro p hp
    have := (List.nodup_append.mp h.nodup).2.2 p hp back List.mem_cons_self
    exact decide_eq_true this
  rw [cycleOf, List.dropWhile_append_of_pos hbefore, List.dropWhile_cons_of_neg (by simp)]
  rfl

/-- A closed walk along demands that repeats no name but the first, which is the last. -/
structure DemandsCycle (graph : Graph) (cycle : List (Fin graph.size)) : Prop where
  two_le_length : 2 ≤ cycle.length
  closed : cycle.head? = cycle.getLast?
  nodup : (cycle.map fun i => (graph.node i).name).dropLast.Nodup
  demands : cycle.IsChain graph.Demands

theorem Returns.demandsCycle (h : graph.Returns path back)
    (hinjective : Function.Injective fun i : Fin graph.size => (graph.node i).name) :
    graph.DemandsCycle (cycleOf path back) := by
  obtain ⟨before, after, rfl, hcycle⟩ := h.exists_cycleOf_eq
  rw [hcycle]
  have hnodup := (List.nodup_append.mp h.nodup).2.1
  constructor
  · simp
  · rw [← List.cons_append, List.getLast?_concat]
    rfl
  · rw [← List.map_dropLast, ← List.cons_append, List.dropLast_concat]
    exact hnodup.map hinjective
  · rw [demands_eq_asks]
    exact h.isChain_from

/-! ## Failing calls -/

theorem exists_reference_eq_error_iff (root : Fin graph.size) :
    (∃ chain, graph.reference root = .error (.circularDependency chain)) ↔
      ∃ node, ReflTransGen graph.Asks root node ∧ TransGen graph.Asks node node := by
  have hanswers := graph.answers_valueAlong root
  unfold reference
  constructor
  · rintro ⟨chain, hchain⟩
    cases hvalue : graph.valueAlong [] root with
    | ok value => simp [hvalue] at hchain
    | error cycle =>
        rw [hvalue] at hanswers
        cases hanswers with
        | @returned path back hreturns =>
            exact ⟨back, (hreturns.transGen_asks root List.mem_cons_self).to_reflTransGen,
              hreturns.transGen_asks back hreturns.mem⟩
  · rintro ⟨node, hway, hcycle⟩
    cases hvalue : graph.valueAlong [] root with
    | ok value =>
        rw [hvalue] at hanswers
        cases hanswers with
        | settled hsettles =>
            -- A value of the root would settle all that it leads to, the cycle too.
            obtain ⟨_, hnode⟩ := hsettles.exists_of_reflTransGen hway
            exact absurd hcycle hnode.not_transGen_asks
    | error cycle => exact ⟨_, rfl⟩

theorem exists_demandsCycle_of_reference {table : Table} (hlink : link table = .ok graph)
    {root : Fin graph.size} {error : Error} (herror : graph.reference root = .error error) :
    ∃ cycle, graph.DemandsCycle cycle ∧ error = Evaluator.cycleError cycle := by
  have hanswers := graph.answers_valueAlong root
  unfold reference at herror
  cases hvalue : graph.valueAlong [] root with
  | ok value => simp [hvalue] at herror
  | error cycle =>
      rw [hvalue] at herror hanswers
      cases hanswers with
      | returned hreturns =>
          exact ⟨_, hreturns.demandsCycle (name_injective hlink), (Except.error.inj herror).symm⟩

/-- Without a cycle of dependencies among the nodes whose default is `yes`, all have values. -/
theorem exists_reference_eq_ok (hacyclic : ∀ node, ¬ TransGen graph.DependsOn node node)
    (root : Fin graph.size) : ∃ value, graph.reference root = .ok value := by
  cases hreference : graph.reference root with
  | ok value => exact ⟨value, rfl⟩
  | error error =>
      have hchain : ∃ chain, graph.reference root = .error (.circularDependency chain) := by
        unfold reference at hreference ⊢
        cases hvalue : graph.valueAlong [] root with
        | ok value => simp [hvalue] at hreference
        | error cycle => exact ⟨_, rfl⟩
      obtain ⟨node, -, hcycle⟩ := (exists_reference_eq_error_iff root).mp hchain
      exact absurd (TransGen.mono (fun _ _ hasks => hasks.dependsOn) _ _ hcycle) (hacyclic node)

end Graph

open FeatureFlags.Graph Evaluator

/--
**Evaluating fails exactly on cycles of demands.** After any calls, asking for `root` fails if and
only if demands lead from it to a node that demands itself through others. The error names such a
cycle. And if the nodes whose default is `yes` have no cycle of dependencies, no call ever fails.
-/
theorem fails_iff_demands_cycle {table : Table} {graph : Graph}
    (hlink : link table = .ok graph) (calls : List Call) :
    (∀ root, (∃ chain,
        ((afterCalls graph calls).value root).1 = .error (.circularDependency chain)) ↔
      ∃ node, ReflTransGen graph.Demands root node ∧ TransGen graph.Demands node node) ∧
    (∀ root error, ((afterCalls graph calls).value root).1 = .error error →
      ∃ cycle, graph.DemandsCycle cycle ∧
        error = .circularDependency (cycle.map fun i => (graph.node i).name)) ∧
    ((∀ node, ¬ TransGen graph.DependsOn node node) → ∀ error,
      (∀ number, ((afterCalls graph calls).valueAt? number).1 ≠ some (.error error)) ∧
      (∀ name, ((afterCalls graph calls).valueOf? name).1 ≠ some (.error error)) ∧
      (afterCalls graph calls).resolution.1 ≠ .error error) := by
  have hresting := resting_afterCalls graph calls
  refine ⟨?_, ?_, ?_⟩
  · intro root
    rw [(value_spec hresting root).1, demands_eq_asks]
    exact exists_reference_eq_error_iff root
  · intro root error herror
    rw [(value_spec hresting root).1] at herror
    exact exists_demandsCycle_of_reference hlink herror
  · intro hacyclic error
    refine ⟨?_, ?_, ?_⟩
    · intro number
      rw [(valueAt?_spec hresting number).1]
      split
      · next hlt =>
          obtain ⟨value, hvalue⟩ := exists_reference_eq_ok hacyclic ⟨number, hlt⟩
          simp [hvalue]
      · simp
    · intro name herror
      rw [(valueOf?_spec hresting name).1] at herror
      obtain ⟨node, -, hnode⟩ := Option.map_eq_some_iff.mp herror
      obtain ⟨value, hvalue⟩ := exists_reference_eq_ok hacyclic node
      cases hvalue.symm.trans hnode
    · choose values hvalues using exists_reference_eq_ok hacyclic
      rw [resolution_eq_ok hresting hvalues]
      simp

/-- `A` asks for `B`, which is on a cycle with `C`; `D` does not get to its condition on `B`. -/
def ring : Table :=
  (((Table.empty.insert ⟨"A", .yes, [⟨"B", false⟩], ⟨⟨"main"⟩, 1⟩⟩).insert
    ⟨"B", .yes, [⟨"C", false⟩], ⟨⟨"main"⟩, 2⟩⟩).insert
    ⟨"C", .yes, [⟨"B", false⟩], ⟨⟨"main"⟩, 3⟩⟩).insert
    ⟨"D", .no, [⟨"B", false⟩], ⟨⟨"main"⟩, 4⟩⟩

theorem fails_iff_demands_cycle_ring :
    link ring = .ok (ofEntries ring.entries.toArray) ∧
    ((afterCalls (ofEntries ring.entries.toArray) [.valueOf "D", .all]).value ⟨0, by decide⟩).1 =
      .error (.circularDependency ["B", "C", "B"]) ∧
    ∃ node, ReflTransGen (ofEntries ring.entries.toArray).Demands ⟨0, by decide⟩ node ∧
      TransGen (ofEntries ring.entries.toArray).Demands node node := by
  have hlink : link ring = .ok (ofEntries ring.entries.toArray) :=
    link_eq_ok_iff.mpr ⟨by cbv, rfl⟩
  have hfails : ((afterCalls (ofEntries ring.entries.toArray) [.valueOf "D", .all]).value
      ⟨0, by decide⟩).1 = .error (.circularDependency ["B", "C", "B"]) := by
    rw [(value_spec (resting_afterCalls _ _) _).1]
    cbv
  exact ⟨hlink, hfails, ((fails_iff_demands_cycle hlink _).1 _).mp ⟨_, hfails⟩⟩

end FeatureFlags
