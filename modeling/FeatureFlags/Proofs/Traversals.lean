import FeatureFlags.Proofs.Histories
import FeatureFlags.Proofs.Linking

/-!
# Traversals move by move

A visit that goes on puts a node on its path, passes a condition of its innermost node, or takes
that node off the path. Marks and places keep a record of the moves made so far (`Recorded`), and
no move is made again: a node that has been on the path is not unseen, and the place on it only
goes up. So a visit makes each move at most once, a number of them that is linear in the size of
the graph however many ways lead through it, and then it ends (`visit_ends_without_repeating`).
-/

namespace FeatureFlags

open FeatureFlags.Graph

/-- What a step of a visit does if it does not end the visit. -/
inductive Move (size : Nat) where
  /-- `node` is put on the path. -/
  | enter (node : Fin size)
  /-- The condition at `place` among those of `node` is found to hold. -/
  | pass (node : Fin size) (place : Nat)
  /-- `node` is taken off the path. -/
  | leave (node : Fin size)
deriving DecidableEq, Repr

/-- The node that a move is about. -/
def Move.node {size : Nat} : Move size → Fin size
  | enter node => node
  | pass node _ => node
  | leave node => node

variable {graph : Graph}

namespace Visit

/-- The place of the next condition of a frame among all those of its node. -/
def placeOf (frame : Frame graph.size) : Nat :=
  (graph.node frame.node).conditions.length - frame.remaining.length

/-- The move from `visit` to `next`. -/
inductive Moves (visit : Visit graph) : Move graph.size → Visit graph → Prop
  | enter {condition : Condition graph.size} {rest : List (Condition graph.size)}
      (hremaining : visit.top.remaining = condition :: rest)
      (hmark : visit.marks.get condition.node = .unseen) :
      Moves visit (.enter condition.node) (visit.descend condition.node)
  | pass {condition : Condition graph.size} {rest : List (Condition graph.size)}
      (hremaining : visit.top.remaining = condition :: rest)
      (hmark : visit.marks.get condition.node = .settled condition.wanted) :
      Moves visit (.pass visit.top.node (placeOf visit.top)) (visit.advance rest)
  | leave {value : Bool} {asking : Frame graph.size} {below : List (Frame graph.size)}
      (hbelow : visit.below = asking :: below) :
      Moves visit (.leave visit.top.node)
        ⟨visit.marks.set visit.top.node (.settled value) visit.top.node.isLt, asking, below⟩

theorem exists_moves_of_settle {visit next : Visit graph} {value : Bool}
    (h : visit.settle value = .running next) : ∃ move, visit.Moves move next := by
  unfold settle at h
  split at h
  · cases h
  · next asking below hbelow =>
      cases h
      exact ⟨_, .leave hbelow⟩

/-- Every step that does not end the visit is a move. -/
theorem exists_moves_of_step {visit next : Visit graph} (h : visit.step = .running next) :
    ∃ move, visit.Moves move next := by
  unfold step at h
  split at h
  · exact exists_moves_of_settle h
  · split at h
    · exact exists_moves_of_settle h
    · next condition rest hremaining =>
        split at h
        · next value hmark =>
            split at h
            · next hvalue =>
                cases h
                exact ⟨_, .pass hremaining (hvalue ▸ hmark)⟩
            · exact exists_moves_of_settle h
        · cases h
        · next hmark =>
            cases h
            exact ⟨_, .enter hremaining hmark⟩

/--
A visit of `root` that began with `marks` is at `visit` after `moves`. The first of them puts the
root on the path, and there is one for each step after that.
-/
inductive Traversal (marks : Vector Mark graph.size) (root : Fin graph.size) :
    List (Move graph.size) → Visit graph → Prop
  | start : Traversal marks root [.enter root] (start marks root)
  | step {moves : List (Move graph.size)} {visit : Visit graph} {move : Move graph.size}
      {next : Visit graph} (h : Traversal marks root moves visit)
      (hstep : visit.step = .running next) (hmove : visit.Moves move next) :
      Traversal marks root (moves ++ [move]) next

/-! ## Places -/

theorem placeOf_eq {frame : Frame graph.size} {met : List (Condition graph.size)}
    (hsplit : (graph.node frame.node).conditions = met ++ frame.remaining) :
    placeOf frame = met.length := by
  unfold placeOf
  rw [hsplit, List.length_append, Nat.add_sub_cancel_right]

/-- The place of a condition that is still to be checked, and the place after it. -/
theorem Checked.placeOf_advance {marks : Vector Mark graph.size} {frame : Frame graph.size}
    (h : Checked marks frame) {condition : Condition graph.size}
    {rest : List (Condition graph.size)} (hremaining : frame.remaining = condition :: rest) :
    placeOf frame < (graph.node frame.node).conditions.length ∧
      placeOf { frame with remaining := rest } = placeOf frame + 1 := by
  obtain ⟨met, hsplit, -⟩ := h
  rw [placeOf_eq hsplit]
  rw [hremaining] at hsplit
  constructor
  · rw [hsplit, List.length_append, List.length_cons]
    omega
  · have hafter : (graph.node frame.node).conditions = (met ++ [condition]) ++ rest := by
      rw [hsplit, List.append_assoc, List.singleton_append]
    have hplace : placeOf { frame with remaining := rest } = (met ++ [condition]).length :=
      placeOf_eq hafter
    rw [hplace, List.length_append, List.length_singleton]

/-! ## The record of the moves -/

/-- What marks and places tell of the moves that led to a visit. -/
structure Recorded (moves : List (Move graph.size)) (visit : Visit graph) : Prop where
  nodup : moves.Nodup
  /-- A move leaves a mark on its node. -/
  touched : ∀ move ∈ moves, visit.marks.get move.node ≠ .unseen
  /-- What is passed on the path is before the next condition. -/
  passed : ∀ frame ∈ visit.frames, ∀ place, .pass frame.node place ∈ moves → place < placeOf frame
  left : ∀ node, .leave node ∈ moves → visit.marks.get node ≠ .pending
  /-- Only conditions that there are have been passed. -/
  inside : ∀ node place, .pass node place ∈ moves → place < (graph.node node).conditions.length

theorem recorded_start (marks : Vector Mark graph.size) (root : Fin graph.size) :
    Recorded [.enter root] (start marks root) where
  nodup := List.nodup_singleton _
  touched := by
    intro move hmove
    rw [List.mem_singleton.mp hmove]
    simp [start, get_set_mark, Move.node]
  passed := by simp
  left := by simp
  inside := by simp

namespace Recorded

variable {root : Fin graph.size} {visit : Visit graph} {moves : List (Move graph.size)}

theorem nodup_snoc (h : Recorded moves visit) {move : Move graph.size} (hnew : move ∉ moves) :
    (moves ++ [move]).Nodup := by
  rw [List.nodup_append]
  refine ⟨h.nodup, List.nodup_singleton _, ?_⟩
  rintro other hother _ hmove rfl
  exact hnew (List.mem_singleton.mp hmove ▸ hother)

/-- A node that is unseen has not been moved to, nor anything passed on it. -/
theorem notMem_of_unseen (h : Recorded moves visit) {move : Move graph.size}
    (hunseen : visit.marks.get move.node = .unseen) : move ∉ moves := by
  intro hmove
  exact h.touched move hmove hunseen

/-- A new mark on the node of one more move. -/
theorem touched_snoc (h : Recorded moves visit) (last : Move graph.size) {mark : Mark}
    (hmark : mark ≠ .unseen) : ∀ move ∈ moves ++ [last],
      (visit.marks.set last.node mark last.node.isLt).get move.node ≠ .unseen := by
  intro move hmove
  rw [get_set_mark]
  split
  · exact hmark
  · next hother =>
      rcases List.mem_append.mp hmove with hmove | hmove
      · exact h.touched move hmove
      · rw [List.mem_singleton.mp hmove] at hother
        exact absurd rfl hother

theorem enter (h : Recorded moves visit) {node : Fin graph.size}
    (hmark : visit.marks.get node = .unseen) :
    Recorded (moves ++ [.enter node]) (visit.descend node) where
  nodup := h.nodup_snoc (h.notMem_of_unseen hmark)
  touched := h.touched_snoc (.enter node) Mark.noConfusion
  passed := by
    intro frame hframe place hpass
    have hpass : Move.pass frame.node place ∈ moves := by simpa using hpass
    rcases List.mem_cons.mp hframe with rfl | hbelow
    · exact absurd hpass (h.notMem_of_unseen hmark)
    · exact h.passed frame hbelow place hpass
  left := by
    intro other hleave
    have hleave : Move.leave other ∈ moves := by simpa using hleave
    simp only [descend, get_set_mark]
    split
    · next heq =>
        subst heq
        exact absurd hleave (h.notMem_of_unseen hmark)
    · exact h.left other hleave
  inside := by
    intro other place hpass
    exact h.inside other place (by simpa using hpass)

/-- The innermost node is on the path once: no frame below is its own. -/
theorem ne_top_of_mem_below (hvalid : visit.Valid root) {frame : Frame graph.size}
    (hframe : frame ∈ visit.below) : frame.node ≠ visit.top.node := by
  have hnodup := hvalid.nodup
  rw [path_eq, List.nodup_reverse, frames, List.map_cons, List.nodup_cons] at hnodup
  intro heq
  exact hnodup.1 (heq ▸ List.mem_map_of_mem hframe)

theorem pass (h : Recorded moves visit) (hvalid : visit.Valid root)
    {condition : Condition graph.size} {rest : List (Condition graph.size)}
    (hremaining : visit.top.remaining = condition :: rest) :
    Recorded (moves ++ [.pass visit.top.node (placeOf visit.top)]) (visit.advance rest) := by
  obtain ⟨hlt, hnext⟩ := (hvalid.checked visit.top List.mem_cons_self).placeOf_advance hremaining
  constructor
  · apply h.nodup_snoc
    intro hpass
    exact Nat.lt_irrefl _ (h.passed visit.top List.mem_cons_self _ hpass)
  · intro move hmove
    rcases List.mem_append.mp hmove with hmove | hmove
    · exact h.touched move hmove
    · rw [List.mem_singleton.mp hmove]
      simp [Visit.advance, Move.node, hvalid.top_pending]
  · intro frame hframe place hpass
    rcases List.mem_cons.mp hframe with rfl | hbelow
    · have hplace : placeOf (visit.advance rest).top = placeOf visit.top + 1 := hnext
      rw [hplace, Nat.lt_succ_iff]
      rcases List.mem_append.mp hpass with hpass | hpass
      · exact (h.passed visit.top List.mem_cons_self place hpass).le
      · cases List.mem_singleton.mp hpass
        exact Nat.le_refl _
    · have hne := ne_top_of_mem_below hvalid hbelow
      have hpass : Move.pass frame.node place ∈ moves := by simpa [hne] using hpass
      exact h.passed frame (List.mem_cons_of_mem _ hbelow) place hpass
  · intro node hleave
    exact h.left node (by simpa using hleave)
  · intro node place hpass
    rcases List.mem_append.mp hpass with hpass | hpass
    · exact h.inside node place hpass
    · cases List.mem_singleton.mp hpass
      exact hlt

theorem leave (h : Recorded moves visit) (hvalid : visit.Valid root) (value : Bool)
    {asking : Frame graph.size} {below : List (Frame graph.size)}
    (hbelow : visit.below = asking :: below) :
    Recorded (moves ++ [.leave visit.top.node])
      ⟨visit.marks.set visit.top.node (.settled value) visit.top.node.isLt, asking, below⟩ where
  nodup := by
    apply h.nodup_snoc
    intro hleave
    exact h.left visit.top.node hleave hvalid.top_pending
  touched := h.touched_snoc (.leave visit.top.node) Mark.noConfusion
  passed := by
    intro frame hframe place hpass
    have hmem : frame ∈ visit.frames := by
      rw [frames, hbelow]
      exact List.mem_cons_of_mem _ hframe
    exact h.passed frame hmem place (by simpa using hpass)
  left := by
    intro node hleave
    simp only [get_set_mark]
    split
    · exact Mark.noConfusion
    · next hne =>
        rcases List.mem_append.mp hleave with hleave | hleave
        · exact h.left node hleave
        · cases List.mem_singleton.mp hleave
          exact absurd rfl hne
  inside := by
    intro node place hpass
    exact h.inside node place (by simpa using hpass)

/-- One move keeps the record. -/
theorem move (h : Recorded moves visit) (hvalid : visit.Valid root) {move : Move graph.size}
    {next : Visit graph} (hmove : visit.Moves move next) : Recorded (moves ++ [move]) next := by
  cases hmove with
  | enter _ hmark => exact h.enter hmark
  | pass hremaining _ => exact h.pass hvalid hremaining
  | leave hbelow => exact h.leave hvalid _ hbelow

end Recorded

/-! ## Whole traversals -/

namespace Traversal

variable {marks : Vector Mark graph.size} {root : Fin graph.size}
  {moves : List (Move graph.size)} {visit : Visit graph}

theorem valid (hresting : RestingMarks marks) (h : Traversal marks root moves visit) :
    visit.Valid root := by
  induction h with
  | start => exact valid_start hresting root
  | step _ hstep _ ih =>
      have hkeeps := ih.keeps_step
      rw [hstep] at hkeeps
      exact hkeeps

theorem recorded (hresting : RestingMarks marks) (h : Traversal marks root moves visit) :
    Recorded moves visit := by
  induction h with
  | start => exact recorded_start marks root
  | step h _ hmove ih => exact ih.move (h.valid hresting) hmove

end Traversal

/-- All moves that there can be in the graph: two for each node, and one for each condition. -/
def allMoves (graph : Graph) : List (Move graph.size) :=
  (List.finRange graph.size).map .enter ++ (List.finRange graph.size).map .leave ++
    (List.finRange graph.size).flatMap fun i =>
      (List.range (graph.node i).conditions.length).map (.pass i)

end Visit

/-- How many conditions the nodes of the graph have. -/
def Graph.conditionCount (graph : Graph) : Nat :=
  ((List.finRange graph.size).map fun i => (graph.node i).conditions.length).sum

namespace Visit

theorem length_allMoves (graph : Graph) :
    (allMoves graph).length = 2 * graph.size + graph.conditionCount := by
  simp [allMoves, conditionCount, List.length_flatMap, Nat.two_mul, Nat.add_assoc]

theorem Recorded.length_le {moves : List (Move graph.size)} {visit : Visit graph}
    (h : Recorded moves visit) : moves.length ≤ 2 * graph.size + graph.conditionCount := by
  have hall : moves ⊆ allMoves graph := by
    intro move hmove
    cases move with
    | enter node => simp [allMoves]
    | leave node => simp [allMoves]
    | pass node place => simp [allMoves, h.inside node place hmove]
  rw [← length_allMoves]
  exact (h.nodup.subperm hall).length_le

end Visit

/-- What a step that ends a visit ends it with. -/
def Progress.outcome? :
    Progress graph → Option (Except (List (Fin graph.size)) Bool × Vector Mark graph.size)
  | running _ => none
  | finished value marks => some (.ok value, marks)
  | cycle chain marks => some (.error chain, marks)

namespace Visit

/-- From wherever it is, a traversal comes to an end, and with what the whole run gives. -/
theorem Traversal.exists_ending {marks : Vector Mark graph.size} {root : Fin graph.size}
    {moves : List (Move graph.size)} {visit : Visit graph}
    (h : Traversal marks root moves visit) :
    ∃ moves' last, Traversal marks root moves' last ∧ last.step.outcome? = some visit.run := by
  fun_induction run visit generalizing moves with
  | case1 visit next hstep ih =>
      obtain ⟨move, hmove⟩ := exists_moves_of_step hstep
      exact ih (h.step hstep hmove)
  | case2 visit value after hstep => exact ⟨moves, visit, h, by rw [hstep]; rfl⟩
  | case3 visit chain after hstep => exact ⟨moves, visit, h, by rw [hstep]; rfl⟩

end Visit

/-! ## Values stay -/

def Progress.marks : Progress graph → Vector Mark graph.size
  | running visit => visit.marks
  | finished _ marks => marks
  | cycle _ marks => marks

namespace Visit

variable {root : Fin graph.size} {visit : Visit graph}

theorem marks_settle (visit : Visit graph) (value : Bool) :
    (visit.settle value).marks =
      visit.marks.set visit.top.node (.settled value) visit.top.node.isLt := by
  unfold settle
  cases visit.below <;> rfl

theorem Valid.settled_settle (h : visit.Valid root) (found : Bool) {i : Fin graph.size}
    {value : Bool} (hi : visit.marks.get i = .settled value) :
    (visit.settle found).marks.get i = .settled value := by
  rw [marks_settle]
  apply keeps_settled _ _ i value hi
  intro other
  rw [h.top_pending]
  exact Mark.noConfusion

/-- A step changes no value: it settles a node that has none, and forgets only such nodes. -/
theorem Valid.settled_step (h : visit.Valid root) {i : Fin graph.size} {value : Bool}
    (hi : visit.marks.get i = .settled value) : visit.step.marks.get i = .settled value := by
  unfold step
  split
  · exact h.settled_settle false hi
  · split
    · exact h.settled_settle true hi
    · next condition rest hremaining =>
        split
        · split
          · exact hi
          · exact h.settled_settle false hi
        · have hnot : i ∉ visit.path := by
            rw [← h.pending_iff, hi]
            exact Mark.noConfusion
          refine (get_forget visit.path visit.marks i).trans ?_
          rw [if_neg hnot, hi]
        · next hmark =>
            apply keeps_settled .pending _ i value hi
            intro other
            rw [hmark]
            exact Mark.noConfusion

theorem Valid.settled_run (h : visit.Valid root) {i : Fin graph.size} {value : Bool}
    (hi : visit.marks.get i = .settled value) : visit.run.2.get i = .settled value := by
  fun_induction run visit with
  | case1 visit next hstep ih =>
      have hkeeps := h.keeps_step
      have hvalue := h.settled_step hi
      rw [hstep] at hkeeps hvalue
      exact ih hkeeps hvalue
  | case2 visit found after hstep =>
      have hvalue := h.settled_step hi
      rw [hstep] at hvalue
      exact hvalue
  | case3 visit chain after hstep =>
      have hvalue := h.settled_step hi
      rw [hstep] at hvalue
      exact hvalue

end Visit

/-! ## Visits one after the other -/

namespace Evaluator

/-- The evaluator after it was asked for some nodes in turn, as a call for all of them does. -/
def through (evaluator : Evaluator graph) (nodes : List (Fin graph.size)) : Evaluator graph :=
  nodes.foldl (fun evaluator node => (evaluator.value node).2) evaluator

theorem resting_through {evaluator : Evaluator graph} (h : RestingMarks evaluator.marks)
    (nodes : List (Fin graph.size)) : RestingMarks (evaluator.through nodes).marks := by
  induction nodes generalizing evaluator with
  | nil => exact h
  | cons node nodes ih => exact ih (value_spec h node).2

section Calls

variable {evaluator : Evaluator graph}

theorem value_of_settled {root : Fin graph.size} {value : Bool}
    (hroot : evaluator.marks.get root = .settled value) :
    evaluator.value root = (.ok value, evaluator) := by
  simp only [Evaluator.value, hroot]

/-- A call for a node without a value is a visit. -/
theorem value_of_unsettled {root : Fin graph.size}
    (hroot : ∀ value, evaluator.marks.get root ≠ .settled value) :
    evaluator.value root =
      ((Visit.start evaluator.marks root).run.1.mapError cycleError,
        ⟨(Visit.start evaluator.marks root).run.2⟩) := by
  unfold value
  split
  · next value hmark => exact absurd hmark (hroot value)
  · split
    · next value marks hrun => rw [hrun]; rfl
    · next chain marks hrun => rw [hrun]; rfl

theorem settled_value (h : RestingMarks evaluator.marks) (root : Fin graph.size)
    {i : Fin graph.size} {value : Bool} (hi : evaluator.marks.get i = .settled value) :
    (evaluator.value root).2.marks.get i = .settled value := by
  by_cases hroot : ∃ found, evaluator.marks.get root = .settled found
  · obtain ⟨found, hfound⟩ := hroot
    rw [value_of_settled hfound]
    exact hi
  · rw [value_of_unsettled (not_exists.mp hroot)]
    apply (Visit.valid_start h root).settled_run
    exact Visit.keeps_settled .pending (not_exists.mp hroot) i value hi

theorem settled_through (h : RestingMarks evaluator.marks) (nodes : List (Fin graph.size))
    {i : Fin graph.size} {value : Bool} (hi : evaluator.marks.get i = .settled value) :
    (evaluator.through nodes).marks.get i = .settled value := by
  induction nodes generalizing evaluator with
  | nil => exact hi
  | cons node nodes ih => exact ih (value_spec h node).2 (settled_value h node hi)

/-- A call for all nodes asks for one after the other, up to the first that fails. -/
theorem exists_through_valuesFrom (found : Array (String × Bool)) (nodes : List (Fin graph.size))
    (evaluator : Evaluator graph) :
    ∃ asked, (valuesFrom found nodes evaluator).2 = evaluator.through asked := by
  induction nodes generalizing found evaluator with
  | nil => exact ⟨[], rfl⟩
  | cons node nodes ih =>
      rw [valuesFrom]
      cases hvalue : evaluator.value node with
      | mk answer next =>
          have hnext : next = (evaluator.value node).2 := by rw [hvalue]
          cases answer with
          | ok value =>
              obtain ⟨asked, hasked⟩ := ih (found.push ((graph.node node).name, value)) next
              exact ⟨node :: asked, hasked.trans (by rw [hnext]; rfl)⟩
          | error error => exact ⟨[node], hnext⟩

/-- Every call asks for some nodes in turn. -/
theorem exists_through_afterCall (evaluator : Evaluator graph) (call : Call) :
    ∃ asked, evaluator.afterCall call = evaluator.through asked := by
  cases call with
  | valueAt number =>
      rw [afterCall, valueAt?]
      split
      · next hlt => exact ⟨[⟨number, hlt⟩], rfl⟩
      · exact ⟨[], rfl⟩
  | valueOf name =>
      rw [afterCall, valueOf?]
      split
      · next node _ => exact ⟨[node], rfl⟩
      · exact ⟨[], rfl⟩
  | all =>
      rw [afterCall, resolution_snd]
      exact exists_through_valuesFrom _ _ evaluator

end Calls

/--
**A visit ends, and makes no move twice.** After any calls, failed ones included, and whatever
nodes a call for all has gone through, a visit of any node puts no node on its path twice and
passes no condition of a node twice. So it makes no more moves than the graph has conditions and
twice its nodes, however many ways lead from the root. And it does end, with what the call for a
node without a value gives.
-/
theorem visit_ends_without_repeating (graph : Graph) (calls : List Call)
    (asked : List (Fin graph.size)) (root : Fin graph.size) :
    (∀ moves visit,
      Visit.Traversal ((afterCalls graph calls).through asked).marks root moves visit →
        moves.Nodup ∧ moves.length ≤ 2 * graph.size + graph.conditionCount) ∧
    ∃ moves last answer marks,
      Visit.Traversal ((afterCalls graph calls).through asked).marks root moves last ∧
      last.step.outcome? = some (answer, marks) ∧
      ((∀ value, ((afterCalls graph calls).through asked).marks.get root ≠ .settled value) →
        ((afterCalls graph calls).through asked).value root =
          (answer.mapError cycleError, ⟨marks⟩)) := by
  have hresting := resting_through (resting_afterCalls graph calls) asked
  constructor
  · intro moves visit htraversal
    have hrecorded := htraversal.recorded hresting
    exact ⟨hrecorded.nodup, hrecorded.length_le⟩
  · obtain ⟨moves, last, hlast, houtcome⟩ := Visit.Traversal.start.exists_ending
    exact ⟨moves, last, _, _, hlast, houtcome, value_of_unsettled⟩

/-- Two ways lead from `A` to `D`; `F`, which is off, would lead back to `A`. -/
def rungs : Table :=
  (((((Table.empty.insert ⟨"A", .yes, [⟨"B", false⟩, ⟨"C", false⟩], ⟨⟨"main"⟩, 1⟩⟩).insert
    ⟨"B", .yes, [⟨"D", false⟩], ⟨⟨"main"⟩, 2⟩⟩).insert
    ⟨"C", .yes, [⟨"D", false⟩], ⟨⟨"main"⟩, 3⟩⟩).insert
    ⟨"D", .yes, [⟨"E", false⟩, ⟨"F", true⟩], ⟨⟨"main"⟩, 4⟩⟩).insert
    ⟨"E", .yes, [], ⟨⟨"main"⟩, 5⟩⟩).insert
    ⟨"F", .no, [⟨"A", false⟩], ⟨⟨"main"⟩, 6⟩⟩

def rungsGraph : Graph := ofEntries rungs.entries.toArray

/-- The nodes on the first way down, from `A` over `B` to `D`. -/
def rungsWay : Visit rungsGraph :=
  ((Visit.start (new rungsGraph).marks ⟨0, by decide⟩).descend ⟨1, by decide⟩).descend
    ⟨3, by decide⟩

theorem traversal_rungs :
    Visit.Traversal (new rungsGraph).marks ⟨0, by decide⟩
      [.enter ⟨0, by decide⟩, .enter ⟨1, by decide⟩, .enter ⟨3, by decide⟩] rungsWay := by
  have hfirst : Visit.Traversal (new rungsGraph).marks ⟨0, by decide⟩
      [.enter ⟨0, by decide⟩, .enter ⟨1, by decide⟩]
      ((Visit.start (new rungsGraph).marks ⟨0, by decide⟩).descend ⟨1, by decide⟩) :=
    .step .start rfl (@Visit.Moves.enter _ _ ⟨⟨1, by decide⟩, true⟩ _ rfl rfl)
  exact .step hfirst rfl (@Visit.Moves.enter _ _ ⟨⟨3, by decide⟩, true⟩ _ rfl rfl)

theorem visit_ends_without_repeating_rungs :
    link rungs = .ok rungsGraph ∧
    Visit.Traversal ((afterCalls rungsGraph []).through []).marks ⟨0, by decide⟩
      [.enter ⟨0, by decide⟩, .enter ⟨1, by decide⟩, .enter ⟨3, by decide⟩] rungsWay ∧
    3 ≤ 2 * rungsGraph.size + rungsGraph.conditionCount ∧
    ∃ moves last, Visit.Traversal
      ((afterCalls rungsGraph [.valueOf "F", .valueAt 9]).through [⟨4, by decide⟩]).marks
      ⟨0, by decide⟩ moves last ∧ moves.Nodup ∧ moves.length ≤ 19 := by
  have hlink : link rungs = .ok rungsGraph := link_eq_ok_iff.mpr ⟨by cbv, rfl⟩
  have hbound : 2 * rungsGraph.size + rungsGraph.conditionCount = 19 := by cbv
  have hway := (visit_ends_without_repeating rungsGraph [] [] _).1 _ _ traversal_rungs
  obtain ⟨hall, moves, last, _, _, hlast, -⟩ := visit_ends_without_repeating rungsGraph
    [.valueOf "F", .valueAt 9] [⟨4, by decide⟩] ⟨0, by decide⟩
  obtain ⟨hnodup, hlength⟩ := hall moves last hlast
  exact ⟨hlink, traversal_rungs, hway.2, moves, last, hlast, hnodup, hbound ▸ hlength⟩

end Evaluator

end FeatureFlags
