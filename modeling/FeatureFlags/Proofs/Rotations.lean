import FeatureFlags.Proofs.Cycles

/-!
# A cycle from each of its nodes

An error names a cycle from the node that the path came back to. Which conditions a node asks for
does not depend on the path, so that an evaluation that begins at another node of the cycle is led
round the same nodes (`Returns.rotate`) and ends with the same cycle, begun there
(`cycle_from_each_member`).
-/

namespace FeatureFlags

open FeatureFlags.Evaluator

namespace Graph

variable {graph : Graph}

/-! ## Turning a closed path -/

/-- What is left of a returning path without the way to the node that it returns to. -/
theorem Returns.closed {before after : List (Fin graph.size)} {back : Fin graph.size}
    (h : graph.Returns (before ++ back :: after) back) : graph.Returns (back :: after) back where
  nodup := (List.nodup_append.mp h.nodup).2.1
  mem := List.mem_cons_self
  asks := h.isChain_from

/-- A path that returns to its first node may begin at any of its nodes. -/
theorem Returns.rotate {path before after : List (Fin graph.size)} {back node : Fin graph.size}
    (h : graph.Returns (back :: path) back) (hsplit : back :: path = before ++ node :: after) :
    graph.Returns (node :: (after ++ before)) node where
  nodup := by
    have hperm : (before ++ node :: after).Perm (node :: after ++ before) := List.perm_append_comm
    exact hperm.nodup_iff.mp (hsplit ▸ h.nodup)
  mem := List.mem_cons_self
  asks := by
    have hasks := h.asks
    rw [hsplit] at hasks
    cases before with
    | nil =>
        obtain ⟨rfl, rfl⟩ := List.cons.inj hsplit
        rwa [List.append_nil]
    | cons first before =>
        obtain ⟨rfl, -⟩ := List.cons.inj hsplit
        -- The two parts of the way round meet at `back`.
        have hfrom : (node :: after ++ [back]).IsChain graph.Asks := by
          rw [List.append_assoc] at hasks
          exact hasks.right_of_append
        have hupTo : ([back] ++ (before ++ [node])).IsChain graph.Asks := by
          rw [List.append_assoc, List.cons_append, List.cons_append, List.append_cons] at hasks
          exact hasks.left_of_append
        have hround := hfrom.append_overlap hupTo (List.cons_ne_nil _ _)
        simpa using hround

/-! ## The answer of a closed path -/

theorem Returns.reference_eq {path : List (Fin graph.size)} {node : Fin graph.size}
    (h : graph.Returns (node :: path) node) :
    graph.reference node = .error (cycleError (node :: (path ++ [node]))) := by
  have hanswer := (Answers.returned h).eq_valueAlong
  have hcycle : cycleOf (node :: path) node = node :: (path ++ [node]) := by
    rw [cycleOf, List.dropWhile_cons_of_neg (by simp), List.cons_append]
  rw [hcycle] at hanswer
  unfold reference
  rw [← hanswer]

/-- A failing evaluation has found a path that returns to its first node. -/
theorem exists_returns_of_reference {root : Fin graph.size} {error : Error}
    (h : graph.reference root = .error error) :
    ∃ back path, graph.Returns (back :: path) back ∧
      error = cycleError (back :: (path ++ [back])) := by
  have hanswers := graph.answers_valueAlong root
  unfold reference at h
  cases hvalue : graph.valueAlong [] root with
  | ok value => simp [hvalue] at h
  | error cycle =>
      rw [hvalue] at h hanswers
      cases hanswers with
      | @returned path back hreturns =>
          obtain ⟨before, after, hpath, hcycle⟩ := hreturns.exists_cycleOf_eq
          rw [hpath] at hreturns
          exact ⟨back, after, hreturns.closed, by rw [← hcycle]; exact (Except.error.inj h).symm⟩

end Graph

open FeatureFlags.Graph

/--
**A cycle is found from each of its members.** If evaluating some node fails, the error names a
cycle that comes back to its first member. Asked for any member of it, by name or by number and
after any calls, an evaluator of the same graph fails too, and names the same cycle from that
member on.
-/
theorem cycle_from_each_member {table : Table} {graph : Graph} (hlink : link table = .ok graph)
    {calls : List Call} {root : Fin graph.size} {chain : List String}
    (hfails : ((afterCalls graph calls).value root).1 = .error (.circularDependency chain)) :
    ∃ first others, chain = first :: (others ++ [first]) ∧
      ∀ before member after, first :: others = before ++ member :: after →
        ∃ node, graph.id? member = some node ∧ ∀ later,
          ((afterCalls graph later).valueOf? member).1 = some (.error
            (.circularDependency (member :: (after ++ before ++ [member])))) ∧
          ((afterCalls graph later).valueAt? node).1 = some (.error
            (.circularDependency (member :: (after ++ before ++ [member])))) := by
  rw [(value_spec (resting_afterCalls graph calls) root).1] at hfails
  obtain ⟨back, path, hreturns, herror⟩ := exists_returns_of_reference hfails
  refine ⟨(graph.node back).name, path.map fun i => (graph.node i).name, ?_, ?_⟩
  · simpa [cycleError] using herror
  · intro before member after hsplit
    rw [← List.map_cons (f := fun i => (graph.node i).name), List.map_eq_append_iff] at hsplit
    obtain ⟨front, tail, hpath, rfl, htail⟩ := hsplit
    obtain ⟨node, rest, rfl, rfl, rfl⟩ := List.map_eq_cons_iff.mp htail
    have hid := (id?_eq_some_iff hlink (i := node)).mpr rfl
    have hreference := (hreturns.rotate hpath).reference_eq
    have hnames : cycleError (node :: (rest ++ front ++ [node])) = .circularDependency
        ((graph.node node).name :: (rest.map (fun i => (graph.node i).name) ++
          front.map (fun i => (graph.node i).name) ++ [(graph.node node).name])) := by
      simp [cycleError]
    rw [hnames] at hreference
    refine ⟨node, hid, fun later => ⟨?_, ?_⟩⟩
    · rw [(valueOf?_spec (resting_afterCalls graph later) _).1, hid, Option.map_some, hreference]
    · rw [(valueAt?_spec (resting_afterCalls graph later) _).1, dif_pos node.isLt, hreference]

/-- `TOP` leads to a ring of `A`, `B` and `C`, each of which has a condition that holds before. -/
def spokes : Table :=
  ((((Table.empty.insert ⟨"TOP", .yes, [⟨"A", false⟩], ⟨⟨"main"⟩, 1⟩⟩).insert
    ⟨"A", .yes, [⟨"ON", false⟩, ⟨"B", false⟩], ⟨⟨"main"⟩, 2⟩⟩).insert
    ⟨"B", .yes, [⟨"C", true⟩, ⟨"ON", false⟩], ⟨⟨"main"⟩, 3⟩⟩).insert
    ⟨"C", .yes, [⟨"ON", false⟩, ⟨"A", false⟩], ⟨⟨"main"⟩, 4⟩⟩).insert
    ⟨"ON", .yes, [], ⟨⟨"main"⟩, 5⟩⟩

theorem cycle_from_each_member_spokes :
    link spokes = .ok (ofEntries spokes.entries.toArray) ∧
    ((afterCalls (ofEntries spokes.entries.toArray) [.all]).value ⟨4, by decide⟩).1 =
      .error (.circularDependency ["A", "B", "C", "A"]) ∧
    ((afterCalls (ofEntries spokes.entries.toArray) []).valueOf? "B").1 =
      some (.error (.circularDependency ["B", "C", "A", "B"])) ∧
    ((afterCalls (ofEntries spokes.entries.toArray) [.valueOf "TOP", .all]).valueOf? "C").1 =
      some (.error (.circularDependency ["C", "A", "B", "C"])) := by
  have hlink : link spokes = .ok (ofEntries spokes.entries.toArray) :=
    link_eq_ok_iff.mpr ⟨by cbv, rfl⟩
  have hfails : ((afterCalls (ofEntries spokes.entries.toArray) [.all]).value
      ⟨4, by decide⟩).1 = .error (.circularDependency ["A", "B", "C", "A"]) := by
    rw [(value_spec (resting_afterCalls _ _) _).1]
    cbv
  obtain ⟨first, others, hchain, hmembers⟩ := cycle_from_each_member hlink hfails
  obtain ⟨rfl, hothers⟩ := List.cons.inj hchain
  obtain rfl : others = ["B", "C"] := (List.append_cancel_right hothers).symm
  obtain ⟨_, -, hB⟩ := hmembers ["A"] "B" ["C"] rfl
  obtain ⟨_, -, hC⟩ := hmembers ["A", "B"] "C" [] rfl
  exact ⟨hlink, hfails, (hB []).1, (hC [.valueOf "TOP", .all]).1⟩

end FeatureFlags
