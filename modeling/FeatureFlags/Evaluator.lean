import FeatureFlags.Graph

/-!
# Evaluation

A node is on when its default is `yes` and each of its conditions holds. Conditions are checked in
order, and the first that fails settles the node as off, whatever the others are. A node that needs
its own value is a circular dependency.

A visit follows conditions depth first with a path of its own, so that a long chain of
dependencies takes no deep recursion, and it marks each node with the value found, so that no node
is worked out twice. `Visit.run` ends because each step has fewer unseen nodes, or as many and
less left to check on the path (`Visit.step_lt`).
-/

namespace FeatureFlags

/-- What is known about a node. -/
inductive Mark where
  | unseen
  /-- The node is on the path of the visit. -/
  | pending
  | settled (value : Bool)
deriving DecidableEq, Repr

def Mark.isUnseen : Mark → Bool
  | unseen => true
  | _ => false

/-- A node on the path, with the conditions that are still to be checked. -/
structure Frame (size : Nat) where
  node : Fin size
  remaining : List (Condition size)

/-- A visit under way: the path from its innermost node outwards. -/
structure Visit (graph : Graph) where
  marks : Vector Mark graph.size
  top : Frame graph.size
  below : List (Frame graph.size)

inductive Progress (graph : Graph) where
  | running (visit : Visit graph)
  /-- The root of the visit has the value `value`. -/
  | finished (value : Bool) (marks : Vector Mark graph.size)
  /-- The path came back to a node on it: the nodes from there on, and that node again. -/
  | cycle (chain : List (Fin graph.size)) (marks : Vector Mark graph.size)

namespace Visit

variable {graph : Graph}

def path (visit : Visit graph) : List (Fin graph.size) :=
  (visit.below.map (·.node)).reverse ++ [visit.top.node]

def start (marks : Vector Mark graph.size) (root : Fin graph.size) : Visit graph :=
  ⟨marks.set root .pending, ⟨root, (graph.node root).conditions⟩, []⟩

/-- The innermost node has the value `value`; the visit goes on with the node that asked. -/
def settle (visit : Visit graph) (value : Bool) : Progress graph :=
  let marks := visit.marks.set visit.top.node (.settled value)
  match visit.below with
  | [] => .finished value marks
  | asking :: below => .running ⟨marks, asking, below⟩

/-- The condition just checked holds; `remaining` are to be checked after it. -/
def advance (visit : Visit graph) (remaining : List (Condition graph.size)) : Visit graph :=
  { visit with top := { visit.top with remaining } }

/-- The visit goes on inwards, with `node`. -/
def descend (visit : Visit graph) (node : Fin graph.size) : Visit graph :=
  ⟨visit.marks.set node .pending, ⟨node, (graph.node node).conditions⟩,
    visit.top :: visit.below⟩

/-- The marks with every node of `path` unseen again. -/
def forget (marks : Vector Mark graph.size) (path : List (Fin graph.size)) :
    Vector Mark graph.size :=
  path.foldl (fun marks (i : Fin graph.size) => marks.set i .unseen) marks

/-- The path came back to `node`. -/
def close (visit : Visit graph) (node : Fin graph.size) : Progress graph :=
  .cycle (visit.path.dropWhile (· ≠ node) ++ [node]) (forget visit.marks visit.path)

def step (visit : Visit graph) : Progress graph :=
  if (graph.node visit.top.node).default = .no then visit.settle false
  else
    match visit.top.remaining with
    | [] => visit.settle true
    | condition :: remaining =>
      match visit.marks.get condition.node with
      | .settled value =>
        if value = condition.wanted then .running (visit.advance remaining)
        else visit.settle false
      | .pending => visit.close condition.node
      | .unseen => .running (visit.descend condition.node)

def unseen (visit : Visit graph) : Nat := visit.marks.countP (·.isUnseen)

/-- How much is left to do on the path: each node and each condition to be checked counts. -/
def work (visit : Visit graph) : Nat :=
  (visit.top :: visit.below).foldr (fun frame work => frame.remaining.length + 1 + work) 0

/-- The measure of a visit falls from `visit` to `next`. -/
def Shrinks (visit next : Visit graph) : Prop :=
  next.unseen < visit.unseen ∨ next.unseen ≤ visit.unseen ∧ next.work < visit.work

theorem countP_set_le (marks : Vector Mark graph.size) (i : Fin graph.size) {mark : Mark}
    (h : mark.isUnseen = false) :
    (marks.set i mark).countP (·.isUnseen) ≤ marks.countP (·.isUnseen) := by
  rw [Vector.countP_set]
  simp [h]

theorem countP_set_lt (marks : Vector Mark graph.size) (i : Fin graph.size) {mark : Mark}
    (h : mark.isUnseen = false) (hi : marks.get i = .unseen) :
    (marks.set i mark).countP (·.isUnseen) < marks.countP (·.isUnseen) := by
  have hpos : 0 < marks.countP (·.isUnseen) :=
    Vector.countP_pos_iff.mpr ⟨.unseen, hi ▸ Vector.getElem_mem i.isLt, rfl⟩
  have hi' : marks[i.val].isUnseen = true := congrArg Mark.isUnseen hi
  rw [Vector.countP_set, if_pos hi', h, if_neg Bool.false_ne_true]
  omega

theorem shrinks_of_settle {visit next : Visit graph} {value : Bool}
    (h : visit.settle value = .running next) : visit.Shrinks next := by
  unfold settle at h
  split at h
  · cases h
  · next asking below hbelow =>
    cases h
    refine .inr ⟨countP_set_le _ _ rfl, ?_⟩
    simp [work, hbelow]

theorem shrinks_advance {visit : Visit graph} {condition : Condition graph.size}
    {remaining : List (Condition graph.size)}
    (h : visit.top.remaining = condition :: remaining) : visit.Shrinks (visit.advance remaining) := by
  refine .inr ⟨Nat.le_refl _, ?_⟩
  simp [work, advance, h]

theorem shrinks_descend {visit : Visit graph} {node : Fin graph.size}
    (h : visit.marks.get node = .unseen) : visit.Shrinks (visit.descend node) :=
  .inl (countP_set_lt _ _ rfl h)

/-- A step that does not end the visit leaves fewer unseen nodes, or as many and less work. -/
theorem shrinks_of_step {visit next : Visit graph} (h : visit.step = .running next) :
    visit.Shrinks next := by
  unfold step at h
  split at h
  · exact shrinks_of_settle h
  · split at h
    · exact shrinks_of_settle h
    · next condition remaining hremaining =>
      split at h
      · split at h
        · cases h
          exact shrinks_advance hremaining
        · exact shrinks_of_settle h
      · cases h
      · next hunseen =>
        cases h
        exact shrinks_descend hunseen

/-- What a visit ends with: the value of its root or a cycle, and the marks it leaves. -/
def run (visit : Visit graph) :
    Except (List (Fin graph.size)) Bool × Vector Mark graph.size :=
  match _hstep : visit.step with
  | .running next => next.run
  | .finished value marks => (.ok value, marks)
  | .cycle chain marks => (.error chain, marks)
termination_by (visit.unseen, visit.work)
decreasing_by
  rcases shrinks_of_step ‹_› with h | ⟨h, h'⟩
  · exact Prod.Lex.left _ _ h
  · rcases Nat.lt_or_eq_of_le h with h | h
    · exact Prod.Lex.left _ _ h
    · rw [h]
      exact Prod.Lex.right _ h'

end Visit

/-- Answers for the nodes of a graph, with what earlier answers found. -/
structure Evaluator (graph : Graph) where
  marks : Vector Mark graph.size

namespace Evaluator

variable {graph : Graph}

def new (graph : Graph) : Evaluator graph := ⟨.replicate graph.size .unseen⟩

def cycleError (chain : List (Fin graph.size)) : Error :=
  .circularDependency (chain.map fun i => (graph.node i).name)

/-- The value of a node, and the evaluator that knows what was found on the way. -/
def value (evaluator : Evaluator graph) (root : Fin graph.size) :
    Except Error Bool × Evaluator graph :=
  match evaluator.marks.get root with
  | .settled value => (.ok value, evaluator)
  | _ =>
    match (Visit.start evaluator.marks root).run with
    | (.ok value, marks) => (.ok value, ⟨marks⟩)
    | (.error chain, marks) => (.error (cycleError chain), ⟨marks⟩)

def valueAt? (evaluator : Evaluator graph) (number : Nat) :
    Option (Except Error Bool) × Evaluator graph :=
  if h : number < graph.size then
    match evaluator.value ⟨number, h⟩ with
    | (answer, evaluator) => (some answer, evaluator)
  else (none, evaluator)

def valueOf? (evaluator : Evaluator graph) (name : String) :
    Option (Except Error Bool) × Evaluator graph :=
  match graph.id? name with
  | some node =>
    match evaluator.value node with
    | (answer, evaluator) => (some answer, evaluator)
  | none => (none, evaluator)

/-- The values of `nodes` in order, after those `found` before; the first error ends it. -/
def valuesFrom (found : Array (String × Bool)) :
    List (Fin graph.size) → Evaluator graph →
      Except Error (Array (String × Bool)) × Evaluator graph
  | [], evaluator => (.ok found, evaluator)
  | node :: nodes, evaluator =>
    match evaluator.value node with
    | (.ok value, evaluator) =>
      valuesFrom (found.push ((graph.node node).name, value)) nodes evaluator
    | (.error error, evaluator) => (.error error, evaluator)

/-- The name and the value of every node in ascending order of names. -/
def values (evaluator : Evaluator graph) :
    Except Error (Array (String × Bool)) × Evaluator graph :=
  valuesFrom #[] (List.finRange graph.size) evaluator

end Evaluator

end FeatureFlags
