import FeatureFlags.Resolution
import FeatureFlags.Proofs.Visiting

/-!
# Answers after any history

An evaluator is asked for nodes by number or by name, or for all of them, as often as one likes,
and each call leaves its marks for the next. The marks stay at rest (`resting_afterCalls`), so
that every answer is the one that the path evaluator gives, which remembers nothing
(`calls_eq_reference`).
-/

namespace FeatureFlags

open FeatureFlags.Graph

variable {graph : Graph}

/-! ## The path evaluator always answers -/

theorem Evaluator.get_marks_new (graph : Graph) (i : Fin graph.size) :
    (Evaluator.new graph).marks.get i = .unseen :=
  Vector.getElem_replicate i.isLt

theorem Evaluator.resting_new (graph : Graph) : RestingMarks (Evaluator.new graph).marks := by
  constructor
  · intro i value hi
    rw [get_marks_new] at hi
    cases hi
  · intro i hi
    rw [get_marks_new] at hi
    cases hi

/-- Every node has a derivation or a path that returns: a visit from no marks finds one. -/
theorem Graph.answers_valueAlong (graph : Graph) (root : Fin graph.size) :
    graph.Answers root (graph.valueAlong [] root) := by
  have hrun := (Visit.valid_start (Evaluator.resting_new graph) root).run_spec.1
  rw [← hrun.eq_valueAlong]
  exact hrun

theorem Graph.reference_eq_ok_iff {root : Fin graph.size} {value : Bool} :
    graph.reference root = .ok value ↔ graph.Settles root value := by
  have hanswers := graph.answers_valueAlong root
  unfold reference
  constructor
  · intro h
    cases hvalue : graph.valueAlong [] root with
    | error cycle => simp [hvalue] at h
    | ok other =>
        rw [hvalue] at h hanswers
        cases h
        cases hanswers with
        | settled hsettles => exact hsettles
  · intro h
    rw [valueAlong_of_settles h (by simp)]

/-! ## Single calls -/

/-- One call on an evaluator. -/
inductive Call where
  | valueAt (number : Nat)
  | valueOf (name : String)
  | all
deriving DecidableEq, Repr

namespace Evaluator

/-- The evaluator that a call leaves, whether it gave a value or a cycle. -/
def afterCall (evaluator : Evaluator graph) : Call → Evaluator graph
  | .valueAt number => (evaluator.valueAt? number).2
  | .valueOf name => (evaluator.valueOf? name).2
  | .all => evaluator.resolution.2

/-- The evaluator after a history of calls. -/
def afterCalls (graph : Graph) (calls : List Call) : Evaluator graph :=
  calls.foldl afterCall (new graph)

theorem afterCalls_snoc (calls : List Call) (call : Call) :
    afterCalls graph (calls ++ [call]) = (afterCalls graph calls).afterCall call := by
  unfold afterCalls
  rw [List.foldl_append]
  rfl

/-- A single answer is that of the path evaluator, and the marks are at rest again. -/
theorem value_spec {evaluator : Evaluator graph} (h : RestingMarks evaluator.marks)
    (root : Fin graph.size) :
    (evaluator.value root).1 = graph.reference root ∧
      RestingMarks (evaluator.value root).2.marks := by
  cases hmark : evaluator.marks.get root with
  | settled found =>
      have hvalue : evaluator.value root = (.ok found, evaluator) := by
        simp only [value, hmark]
      rw [hvalue]
      exact ⟨(reference_eq_ok_iff.mpr (h.sound root found hmark)).symm, h⟩
  | pending => exact absurd hmark (h.not_pending root)
  | unseen =>
      obtain ⟨hanswers, hresting⟩ := (Visit.valid_start h root).run_spec
      have hanswer := hanswers.eq_valueAlong
      cases hrun : (Visit.start evaluator.marks root).run with
      | mk answer marks =>
          rw [hrun] at hanswer hresting
          simp only [value, hmark, hrun, reference, ← hanswer]
          cases answer with
          | ok found => exact ⟨rfl, hresting⟩
          | error cycle => exact ⟨rfl, hresting⟩

theorem valueAt?_spec {evaluator : Evaluator graph} (h : RestingMarks evaluator.marks)
    (number : Nat) :
    (evaluator.valueAt? number).1 =
        (if hlt : number < graph.size then some (graph.reference ⟨number, hlt⟩) else none) ∧
      RestingMarks (evaluator.valueAt? number).2.marks := by
  unfold valueAt?
  split
  · next hlt =>
      obtain ⟨hanswer, hresting⟩ := value_spec h ⟨number, hlt⟩
      exact ⟨congrArg some hanswer, hresting⟩
  · exact ⟨rfl, h⟩

theorem valueOf?_spec {evaluator : Evaluator graph} (h : RestingMarks evaluator.marks)
    (name : String) :
    (evaluator.valueOf? name).1 = (graph.id? name).map graph.reference ∧
      RestingMarks (evaluator.valueOf? name).2.marks := by
  unfold valueOf?
  split
  · next node hnode =>
      obtain ⟨hanswer, hresting⟩ := value_spec h node
      exact ⟨by rw [hnode]; exact congrArg some hanswer, hresting⟩
  · next hnone => exact ⟨by rw [hnone]; rfl, h⟩

/-! ## All nodes at once -/

theorem resting_valuesFrom {evaluator : Evaluator graph} (h : RestingMarks evaluator.marks)
    (found : Array (String × Bool)) (nodes : List (Fin graph.size)) :
    RestingMarks (valuesFrom found nodes evaluator).2.marks := by
  induction nodes generalizing found evaluator with
  | nil => exact h
  | cons node nodes ih =>
      have hresting := (value_spec h node).2
      rw [valuesFrom]
      cases hvalue : evaluator.value node with
      | mk answer next =>
          rw [hvalue] at hresting
          cases answer with
          | ok value => exact ih hresting _
          | error error => exact hresting

/-- As long as the path evaluator gives values, they are collected in order. -/
theorem valuesFrom_append {evaluator : Evaluator graph} (h : RestingMarks evaluator.marks)
    (found : Array (String × Bool)) (values : Fin graph.size → Bool)
    (before after : List (Fin graph.size))
    (hvalues : ∀ i ∈ before, graph.reference i = .ok (values i)) :
    ∃ next : Evaluator graph, RestingMarks next.marks ∧
      valuesFrom found (before ++ after) evaluator =
        valuesFrom (found ++ before.map fun i => ((graph.node i).name, values i)) after next := by
  induction before generalizing found evaluator with
  | nil => exact ⟨evaluator, h, by simp⟩
  | cons node before ih =>
      obtain ⟨hanswer, hresting⟩ := value_spec h node
      rw [hvalues node List.mem_cons_self] at hanswer
      obtain ⟨next, hnext, hrest⟩ := ih hresting
        (found.push ((graph.node node).name, values node))
        fun i hi => hvalues i (List.mem_cons_of_mem _ hi)
      refine ⟨next, hnext, ?_⟩
      rw [List.cons_append, valuesFrom]
      cases hvalue : evaluator.value node with
      | mk answer other =>
          rw [hvalue] at hanswer hrest
          cases hanswer
          refine hrest.trans ?_
          simp

theorem resolution_fst (evaluator : Evaluator graph) :
    evaluator.resolution.1 = evaluator.values.1.map Resolution.mk := by
  unfold resolution
  cases evaluator.values with
  | mk answer next => cases answer <;> rfl

theorem resolution_snd (evaluator : Evaluator graph) :
    evaluator.resolution.2 = evaluator.values.2 := by
  unfold resolution
  cases evaluator.values with
  | mk answer next => cases answer <;> rfl

theorem resting_afterCall {evaluator : Evaluator graph} (h : RestingMarks evaluator.marks)
    (call : Call) : RestingMarks (evaluator.afterCall call).marks := by
  cases call with
  | valueAt number => exact (valueAt?_spec h number).2
  | valueOf name => exact (valueOf?_spec h name).2
  | all =>
      rw [afterCall, resolution_snd]
      exact resting_valuesFrom h _ _

theorem resting_afterCalls (graph : Graph) (calls : List Call) :
    RestingMarks (afterCalls graph calls).marks := by
  induction calls using List.reverseRecOn with
  | nil => exact resting_new graph
  | append_singleton calls call ih =>
      rw [afterCalls_snoc]
      exact resting_afterCall ih call

/-- All values, if the path evaluator gives every one. -/
theorem resolution_eq_ok {evaluator : Evaluator graph} (h : RestingMarks evaluator.marks)
    {values : Fin graph.size → Bool} (hvalues : ∀ i, graph.reference i = .ok (values i)) :
    evaluator.resolution.1 =
      .ok ⟨Array.ofFn fun i => ((graph.node i).name, values i)⟩ := by
  obtain ⟨next, -, hfrom⟩ := valuesFrom_append h #[] values (List.finRange graph.size) []
    fun i _ => hvalues i
  rw [List.append_nil] at hfrom
  rw [resolution_fst, Evaluator.values, hfrom, valuesFrom]
  simp only [Except.map, Except.ok.injEq, Resolution.mk.injEq]
  apply Array.toList_inj.mp
  simp [List.ofFn_eq_map]

/-- The error of the first node, in order of numbers, for which the path evaluator fails. -/
theorem resolution_eq_error {evaluator : Evaluator graph} (h : RestingMarks evaluator.marks)
    {node : Fin graph.size} {error : Error} (herror : graph.reference node = .error error)
    (hbefore : ∀ i < node, ∃ value, graph.reference i = .ok value) :
    evaluator.resolution.1 = .error error := by
  obtain ⟨before, after, hsplit⟩ := List.append_of_mem (List.mem_finRange node)
  have hlt : ∀ i ∈ before, i < node := by
    intro i hi
    have hsorted := List.pairwise_lt_finRange graph.size
    rw [hsplit] at hsorted
    exact (List.pairwise_append.mp hsorted).2.2 i hi node List.mem_cons_self
  choose! values hvalues using hbefore
  obtain ⟨next, hnext, hfrom⟩ := valuesFrom_append h #[] values before (node :: after)
    fun i hi => hvalues i (hlt i hi)
  rw [resolution_fst, Evaluator.values, hsplit, hfrom, valuesFrom]
  have hanswer := (value_spec hnext node).1
  rw [herror] at hanswer
  cases hvalue : next.value node with
  | mk answer last =>
      rw [hvalue] at hanswer
      cases hanswer
      rfl

/-- All values in order if there is one for every node, else the error of the first without. -/
theorem resolution_cases {evaluator : Evaluator graph} (h : RestingMarks evaluator.marks) :
    (∃ values : Fin graph.size → Bool, (∀ i, graph.reference i = .ok (values i)) ∧
        evaluator.resolution.1 = .ok ⟨Array.ofFn fun i => ((graph.node i).name, values i)⟩) ∨
      ∃ node error, graph.reference node = .error error ∧
        (∀ i < node, ∃ value, graph.reference i = .ok value) ∧
        evaluator.resolution.1 = .error error := by
  by_cases hall : ∀ i, ∃ value, graph.reference i = .ok value
  · choose values hvalues using hall
    exact .inl ⟨values, hvalues, resolution_eq_ok h hvalues⟩
  · -- Of the nodes that fail, the one with the least number gives the error.
    right
    obtain ⟨node, hnode, hleast⟩ := WellFounded.has_min (wellFounded_lt (α := Fin graph.size))
      {i | ¬ ∃ value, graph.reference i = .ok value} (not_forall.mp hall)
    have hbefore : ∀ i < node, ∃ value, graph.reference i = .ok value := by
      intro i hi
      by_contra hfails
      exact hleast i hfails hi
    cases herror : graph.reference node with
    | ok value => exact absurd ⟨value, herror⟩ hnode
    | error error =>
        exact ⟨node, error, herror, hbefore, resolution_eq_error h herror hbefore⟩

/--
**No call depends on the calls before it.** After any history, failed calls included, an evaluator
answers for a number or a name what the path evaluator gives from an empty path; asked for all
nodes it gives all their values in order, or the error of the first node that has one.
-/
theorem calls_eq_reference (graph : Graph) (calls : List Call) :
    (∀ number, ((afterCalls graph calls).valueAt? number).1 =
      if h : number < graph.size then some (graph.reference ⟨number, h⟩) else none) ∧
    (∀ name, ((afterCalls graph calls).valueOf? name).1 =
      (graph.id? name).map graph.reference) ∧
    ((∃ values : Fin graph.size → Bool, (∀ i, graph.reference i = .ok (values i)) ∧
        (afterCalls graph calls).resolution.1 =
          .ok ⟨Array.ofFn fun i => ((graph.node i).name, values i)⟩) ∨
      ∃ node error, graph.reference node = .error error ∧
        (∀ i < node, ∃ value, graph.reference i = .ok value) ∧
        (afterCalls graph calls).resolution.1 = .error error) := by
  have hresting := resting_afterCalls graph calls
  refine ⟨?_, ?_, ?_⟩
  · intro number
    exact (valueAt?_spec hresting number).1
  · intro name
    exact (valueOf?_spec hresting name).1
  · exact resolution_cases hresting

end Evaluator

end FeatureFlags
