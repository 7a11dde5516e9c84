import FeatureFlags.Proofs.Settling
import Mathlib.Data.List.Chain

/-!
# Evaluation along a path

The plain way to work out a node: go through its conditions in order, each one from the start
again, with the nodes that led here as the only memory. It is what a visit with its marks is
measured against. `valueAlong_of_settles` is its one law on success, and `valueAlong_of_asks`
carries a cycle outwards by one node.
-/

namespace FeatureFlags.Graph

open Relation

variable {graph : Graph}

/-- How many nodes are not on `path`. -/
def offPath (graph : Graph) (path : List (Fin graph.size)) : Nat :=
  ((List.finRange graph.size).filter (· ∉ path)).length

theorem offPath_append_lt {path : List (Fin graph.size)} {node : Fin graph.size}
    (h : node ∉ path) : graph.offPath (path ++ [node]) < graph.offPath path := by
  have hstep : (List.finRange graph.size).filter (· ∉ path ++ [node]) =
      ((List.finRange graph.size).filter (· ∉ path)).filter (· ≠ node) := by
    rw [List.filter_filter]
    apply List.filter_congr
    intro other _
    simp [and_comm]
  unfold offPath
  rw [hstep]
  refine List.length_filter_lt_length_iff_exists.mpr ⟨node, ?_, by simp⟩
  exact List.mem_filter.mpr ⟨List.mem_finRange node, by simpa using h⟩

mutual
/--
The value of `node` at the end of `path`, or the cycle that is met first: the path from the node
met again, and that node.
-/
def valueAlong (graph : Graph) (path : List (Fin graph.size)) (node : Fin graph.size) :
    Except (List (Fin graph.size)) Bool :=
  if _h : node ∈ path then .error (path.dropWhile (· ≠ node) ++ [node])
  else if (graph.node node).default = .no then .ok false
  else graph.checkAlong (path ++ [node]) (graph.node node).conditions
termination_by (graph.offPath path, 0)
decreasing_by exact Prod.Lex.left _ _ (offPath_append_lt _h)

/-- Whether the conditions of the last node of `path` hold, up to the first that does not. -/
def checkAlong (graph : Graph) (path : List (Fin graph.size)) :
    List (Condition graph.size) → Except (List (Fin graph.size)) Bool
  | [] => .ok true
  | condition :: rest =>
    match graph.valueAlong path condition.node with
    | .error cycle => .error cycle
    | .ok value => if value = condition.wanted then graph.checkAlong path rest else .ok false
termination_by conditions => (graph.offPath path, conditions.length)
end

/-- What evaluating `root` from an empty path answers. -/
def reference (graph : Graph) (root : Fin graph.size) : Except Error Bool :=
  match graph.valueAlong [] root with
  | .ok value => .ok value
  | .error cycle => .error (Evaluator.cycleError cycle)

/-! ## The path evaluator and derivations -/

theorem valueAlong_of_mem {path : List (Fin graph.size)} {node : Fin graph.size}
    (h : node ∈ path) :
    graph.valueAlong path node = .error (path.dropWhile (· ≠ node) ++ [node]) := by
  rw [valueAlong, dif_pos h]

theorem valueAlong_of_off {path : List (Fin graph.size)} {node : Fin graph.size}
    (h : node ∉ path) (hno : (graph.node node).default = .no) :
    graph.valueAlong path node = .ok false := by
  rw [valueAlong, dif_neg h, if_pos hno]

theorem valueAlong_of_yes {path : List (Fin graph.size)} {node : Fin graph.size}
    (h : node ∉ path) (hyes : (graph.node node).default = .yes) :
    graph.valueAlong path node =
      graph.checkAlong (path ++ [node]) (graph.node node).conditions := by
  rw [valueAlong, dif_neg h, if_neg (by rw [hyes]; decide)]

theorem checkAlong_append {path : List (Fin graph.size)} {met : List (Condition graph.size)}
    (rest : List (Condition graph.size))
    (hmet : ∀ c ∈ met, graph.valueAlong path c.node = .ok c.wanted) :
    graph.checkAlong path (met ++ rest) = graph.checkAlong path rest := by
  induction met with
  | nil => rfl
  | cons c met ih =>
      rw [List.cons_append, checkAlong, hmet c List.mem_cons_self]
      simpa using ih fun d hd => hmet d (List.mem_cons_of_mem c hd)

/-- A settled node has its value along every path that it does not lead back to. -/
theorem valueAlong_of_settles {path : List (Fin graph.size)} {node : Fin graph.size}
    {value : Bool} (h : graph.Settles node value)
    (hfree : ∀ p ∈ path, ¬ ReflTransGen graph.Asks node p) :
    graph.valueAlong path node = .ok value := by
  have hnew : ∀ {path : List (Fin graph.size)} {node : Fin graph.size},
      (∀ p ∈ path, ¬ ReflTransGen graph.Asks node p) → node ∉ path := by
    intro path node hfree hmem
    exact hfree node hmem .refl
  induction h generalizing path with
  | @off node hno => exact valueAlong_of_off (hnew hfree) hno
  | @unmet node met rest condition hyes hsplit hmet hunmet ihmet ihunmet =>
      rw [valueAlong_of_yes (hnew hfree) hyes, hsplit]
      have hvalues : ∀ c ∈ met, graph.valueAlong (path ++ [node]) c.node = .ok c.wanted := by
        intro c hc
        have hasks := Asks.of_mem hyes hsplit hmet hc
        exact ihmet c hc ((hmet c hc).not_reflTransGen_snoc hasks hfree)
      have hasks : graph.Asks node condition.node :=
        ⟨hyes, met, condition, rest, hsplit, rfl, hmet⟩
      rw [checkAlong_append _ hvalues, checkAlong,
        ihunmet (hunmet.not_reflTransGen_snoc hasks hfree)]
      simp
  | @on node hyes hmet ihmet =>
      rw [valueAlong_of_yes (hnew hfree) hyes]
      have hvalues : ∀ c ∈ (graph.node node).conditions,
          graph.valueAlong (path ++ [node]) c.node = .ok c.wanted := by
        intro c hc
        have hasks := Asks.of_mem hyes (List.append_nil _).symm hmet hc
        exact ihmet c hc ((hmet c hc).not_reflTransGen_snoc hasks hfree)
      have hall := checkAlong_append [] hvalues
      rw [List.append_nil, checkAlong] at hall
      exact hall

/-! ## The path evaluator and cycles -/

theorem transGen_asks_of_isChain {path : List (Fin graph.size)} {node next : Fin graph.size}
    (hchain : (path ++ [node]).IsChain graph.Asks) (hasks : graph.Asks node next) :
    ∀ p ∈ path ++ [node], TransGen graph.Asks p next := by
  intro p hp
  rcases List.mem_append.mp hp with hp | hp
  · have hway : ReflTransGen graph.Asks p node :=
      hchain.backwards_concat_induction (fun q => ReflTransGen graph.Asks q node) path
        (fun _ _ hstep hrest => .head hstep hrest) .refl p hp
    exact TransGen.trans_right hway (.single hasks)
  · rw [List.mem_singleton.mp hp]
    exact .single hasks

/-- A cycle met at what the last node of a path asks for is met at that node. -/
theorem valueAlong_of_asks {path : List (Fin graph.size)} {node next : Fin graph.size}
    {cycle : List (Fin graph.size)} (hchain : (path ++ [node]).IsChain graph.Asks)
    (hnew : node ∉ path) (hasks : graph.Asks node next)
    (herror : graph.valueAlong (path ++ [node]) next = .error cycle) :
    graph.valueAlong path node = .error cycle := by
  obtain ⟨hyes, met, condition, rest, hsplit, rfl, hmet⟩ := hasks
  have hvalues : ∀ c ∈ met, graph.valueAlong (path ++ [node]) c.node = .ok c.wanted := by
    intro c hc
    have hasks := Asks.of_mem hyes hsplit hmet hc
    apply valueAlong_of_settles (hmet c hc)
    intro p hp
    exact (hmet c hc).not_reflTransGen_of_transGen (transGen_asks_of_isChain hchain hasks p hp)
  rw [valueAlong_of_yes hnew hyes, hsplit, checkAlong_append _ hvalues, checkAlong, herror]

/-- A path on which each node asks for the next, and the last for one on the path. -/
structure Returns (graph : Graph) (path : List (Fin graph.size)) (back : Fin graph.size) :
    Prop where
  nodup : path.Nodup
  mem : back ∈ path
  asks : (path ++ [back]).IsChain graph.Asks

/-- The cycle that a returning path closes. -/
def cycleOf (path : List (Fin graph.size)) (back : Fin graph.size) : List (Fin graph.size) :=
  path.dropWhile (· ≠ back) ++ [back]

namespace Returns

variable {before after : List (Fin graph.size)} {node back : Fin graph.size}
  (h : graph.Returns (before ++ node :: after) back)
include h

theorem notMem_before : node ∉ before := by
  intro hmem
  exact (List.nodup_append.mp h.nodup).2.2 node hmem node List.mem_cons_self rfl

theorem isChain_from : (node :: (after ++ [back])).IsChain graph.Asks := by
  have hasks := h.asks
  rw [List.append_assoc] at hasks
  exact hasks.right_of_append

theorem isChain_upTo : (before ++ [node]).IsChain graph.Asks := by
  have hasks := h.asks
  rw [List.append_assoc, List.cons_append, List.append_cons] at hasks
  exact hasks.left_of_append

end Returns

/-- The path evaluator finds the cycle of a returning path from every node on it. -/
theorem Returns.valueAlong_eq {before after : List (Fin graph.size)}
    {node back : Fin graph.size} (h : graph.Returns (before ++ node :: after) back) :
    graph.valueAlong before node = .error (cycleOf (before ++ node :: after) back) := by
  induction after generalizing before node with
  | nil =>
      have hasks : graph.Asks node back := (List.isChain_cons_cons.mp h.isChain_from).1
      exact valueAlong_of_asks h.isChain_upTo h.notMem_before hasks (valueAlong_of_mem h.mem)
  | cons next after ih =>
      have hasks : graph.Asks node next := (List.isChain_cons_cons.mp h.isChain_from).1
      have hsplit : before ++ node :: next :: after = (before ++ [node]) ++ next :: after :=
        List.append_cons before node (next :: after)
      have herror := ih (hsplit ▸ h)
      rw [← hsplit] at herror
      exact valueAlong_of_asks h.isChain_upTo h.notMem_before hasks herror

/-- How evaluating `root` ends: a derivation of its value, or a path from it that returns. -/
inductive Answers (graph : Graph) (root : Fin graph.size) :
    Except (List (Fin graph.size)) Bool → Prop where
  | settled {value : Bool} (h : graph.Settles root value) : Answers graph root (.ok value)
  | returned {path : List (Fin graph.size)} {back : Fin graph.size}
      (h : graph.Returns (root :: path) back) :
      Answers graph root (.error (cycleOf (root :: path) back))

/-- Whatever finds a derivation or a returning path answers as the path evaluator does. -/
theorem Answers.eq_valueAlong {root : Fin graph.size}
    {answer : Except (List (Fin graph.size)) Bool} (h : graph.Answers root answer) :
    answer = graph.valueAlong [] root := by
  cases h with
  | settled h => exact (valueAlong_of_settles h (by simp)).symm
  | @returned path back h =>
      have hfound := Returns.valueAlong_eq (show graph.Returns ([] ++ root :: path) back from h)
      exact hfound.symm

end FeatureFlags.Graph
