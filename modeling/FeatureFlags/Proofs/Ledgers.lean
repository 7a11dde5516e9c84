import FeatureFlags.Proofs.Traversals

/-!
# The ledger of an evaluation

An evaluation can be kept in tables by number: a value for each node that has one, a flag for each
node on the path, and the path, with a place among the conditions of each node on it. Nothing in
such a ledger keeps the tables together but what is written into them, and a number or a place may
be one that is not there. A visit keeps them together, turn by turn (`Ledger.inStep_within`,
`Ledger.turn?_within`): every number that it looks up is there, and the answers are those of the
evaluator (`ledger_stays_in_step`).
-/

namespace FeatureFlags

open FeatureFlags.Graph

/-- A node on the path, by its number, and the place of its next condition. -/
structure Stop where
  node : Nat
  next : Nat
deriving DecidableEq, Repr

/-- The tables of an evaluation. The path is kept from its innermost node outwards. -/
structure Ledger where
  values : Array (Option Bool)
  onPath : Array Bool
  path : List Stop
deriving DecidableEq, Repr

/-- What a turn of an evaluation leads to. -/
inductive Turn where
  | going (ledger : Ledger)
  | finished (value : Bool) (ledger : Ledger)
  | failed (chain : List String) (ledger : Ledger)
deriving DecidableEq, Repr

def Turn.ledger : Turn → Ledger
  | going ledger => ledger
  | finished _ ledger => ledger
  | failed _ ledger => ledger

namespace Ledger

/-! ## Turns by number

There is no result where a number is looked up or written to that is not there, and none where a
cycle is closed at a node that is not on the path.
-/

def put? {α : Type} (entries : Array α) (number : Nat) (entry : α) : Option (Array α) :=
  if h : number < entries.size then some (entries.set number entry h) else none

/-- The numbers on the path, from the root inwards. -/
def trail (ledger : Ledger) : List Nat := (ledger.path.map (·.node)).reverse

def enter? (ledger : Ledger) (node : Nat) : Option Ledger :=
  (put? ledger.onPath node true).map fun onPath =>
    { ledger with onPath, path := ⟨node, 0⟩ :: ledger.path }

/-- The innermost node, `stop`, has the value `value`; `rest` is the path without it. -/
def settle? (ledger : Ledger) (stop : Stop) (rest : List Stop) (value : Bool) : Option Turn :=
  (put? ledger.onPath stop.node false).bind fun onPath =>
    (put? ledger.values stop.node (some value)).map fun values =>
      match rest with
      | [] => .finished value ⟨values, onPath, []⟩
      | _ :: _ => .going ⟨values, onPath, rest⟩

/-- Takes every node off the path. -/
def unwind? (ledger : Ledger) : Option Ledger :=
  (ledger.trail.foldlM (fun onPath node => put? onPath node false) ledger.onPath).map fun onPath =>
    ⟨ledger.values, onPath, []⟩

/-- The names from the first place of `node` on the path, and its name again. -/
def chain? (graph : Graph) (ledger : Ledger) (node : Nat) : Option (List String) :=
  (ledger.trail.findIdx? (· = node)).bind fun start =>
    (ledger.trail.drop start ++ [node]).mapM fun number => (graph.node? number).map (·.name)

/-- Checks the next condition of the innermost node, `stop`. -/
def check? (graph : Graph) (ledger : Ledger) (stop : Stop) (rest : List Stop) (node : Nat)
    (wanted : Bool) : Option Turn :=
  (ledger.values[node]?).bind fun
    | some value =>
      if value = wanted then
        some (.going { ledger with path := ⟨stop.node, stop.next + 1⟩ :: rest })
      else ledger.settle? stop rest false
    | none =>
      (ledger.onPath[node]?).bind fun
        | true => (ledger.chain? graph node).bind fun chain => ledger.unwind?.map (.failed chain)
        | false => (ledger.enter? node).map .going

def turn? (graph : Graph) (ledger : Ledger) : Option Turn :=
  match ledger.path with
  | [] => none
  | stop :: rest =>
    (graph.node? stop.node).bind fun node =>
      if node.default = .no then ledger.settle? stop rest false
      else
        match node.condition? stop.next with
        | none => ledger.settle? stop rest true
        | some condition => ledger.check? graph stop rest condition.node condition.wanted

/-- A call for the node with number `root`. -/
def begin? (ledger : Ledger) (root : Nat) : Option Turn :=
  (ledger.values[root]?).bind fun
    | some value => some (.finished value ledger)
    | none => (ledger.enter? root).map .going

/-- One turn after the other. -/
inductive Follows (graph : Graph) : Turn → Turn → Prop
  | turn {ledger : Ledger} {turn : Turn} (h : ledger.turn? graph = some turn) :
      Follows graph (.going ledger) turn

end Ledger

/-! ## The ledger of a visit -/

def Mark.value? : Mark → Option Bool
  | settled value => some value
  | _ => none

def Mark.isPending : Mark → Bool
  | pending => true
  | _ => false

variable {graph : Graph}

namespace Ledger

def ofMarks (marks : Vector Mark graph.size) (path : List Stop) : Ledger :=
  ⟨(marks.map Mark.value?).toArray, (marks.map Mark.isPending).toArray, path⟩

def stopOf (frame : Frame graph.size) : Stop := ⟨frame.node, Visit.placeOf frame⟩

/-- The ledger in the midst of a visit. -/
def within (visit : Visit graph) : Ledger := ofMarks visit.marks (visit.frames.map stopOf)

/-- The ledger between two calls. -/
def between (evaluator : Evaluator graph) : Ledger := ofMarks evaluator.marks []

end Ledger

/-- The turn of a step. -/
def Turn.ofProgress : Progress graph → Turn
  | .running next => .going (Ledger.within next)
  | .finished value marks => .finished value (Ledger.between ⟨marks⟩)
  | .cycle chain marks =>
    .failed (chain.map fun i => (graph.node i).name) (Ledger.between ⟨marks⟩)

namespace Ledger

variable {marks : Vector Mark graph.size} {i : Fin graph.size} {mark : Mark} {path : List Stop}

/-! ### Tables of marks -/

theorem getElem?_toArray_map {α : Type} (f : Mark → α) (marks : Vector Mark graph.size)
    (i : Fin graph.size) : (marks.map f).toArray[i.val]? = some (f (marks.get i)) := by
  rw [Vector.getElem?_toArray, Vector.getElem?_eq_getElem i.isLt, Vector.getElem_map]
  rfl

theorem put?_toArray_map {α : Type} (f : Mark → α) (marks : Vector Mark graph.size)
    (i : Fin graph.size) (mark : Mark) :
    put? (marks.map f).toArray i (f mark) = some ((marks.set i mark i.isLt).map f).toArray := by
  have hlt : i.val < (marks.map f).toArray.size := by simp
  rw [put?, dif_pos hlt, Vector.map_set]
  rfl

/-- A new mark that says the same about a node changes no table. -/
theorem map_set_of_eq {α : Type} {f : Mark → α} (h : f (marks.get i) = f mark) :
    (marks.set i mark i.isLt).map f = marks.map f := by
  ext j hj : 1
  rw [Vector.getElem_map, Vector.getElem_map, Vector.getElem_set]
  split
  · next heq =>
      subst heq
      exact h.symm
  · rfl

theorem trail_within (visit : Visit graph) : (within visit).trail = visit.path.map Fin.val := by
  rw [Visit.path_eq, List.map_reverse, List.map_map]
  unfold trail within ofMarks
  rw [List.map_map]
  rfl

/-! ### One lemma for each change -/

theorem enter?_ofMarks (hmark : (marks.get i).value? = none) :
    (ofMarks marks path).enter? i =
      some (ofMarks (marks.set i .pending i.isLt) (⟨i, 0⟩ :: path)) := by
  have hvalues : (marks.set i .pending i.isLt).map Mark.value? = marks.map Mark.value? :=
    map_set_of_eq hmark
  have hput := put?_toArray_map Mark.isPending marks i .pending
  unfold enter? ofMarks
  rw [hvalues]
  exact congrArg (Option.map _) hput

theorem settle?_ofMarks (next : Nat) (rest : List Stop) (value : Bool) :
    (ofMarks marks path).settle? ⟨i, next⟩ rest value =
      some (match rest with
        | [] => .finished value (ofMarks (marks.set i (.settled value) i.isLt) [])
        | _ :: _ => .going (ofMarks (marks.set i (.settled value) i.isLt) rest)) := by
  have honPath : put? (ofMarks marks path).onPath i false = _ :=
    put?_toArray_map Mark.isPending marks i (.settled value)
  have hvalues : put? (ofMarks marks path).values i (some value) = _ :=
    put?_toArray_map Mark.value? marks i (.settled value)
  unfold settle?
  rw [honPath, Option.bind_some, hvalues, Option.map_some]
  cases rest <;> rfl

/-- Taking nodes off the path clears their flags. -/
theorem foldlM_put? (nodes : List (Fin graph.size)) (marks : Vector Mark graph.size) :
    (nodes.map Fin.val).foldlM (fun onPath node => put? onPath node false)
        (marks.map Mark.isPending).toArray =
      some ((Visit.forget marks nodes).map Mark.isPending).toArray := by
  induction nodes generalizing marks with
  | nil => rfl
  | cons node nodes ih =>
      have hput : put? (marks.map Mark.isPending).toArray node.val false = _ :=
        put?_toArray_map Mark.isPending marks node .unseen
      rw [List.map_cons, List.foldlM_cons, hput]
      exact ih (marks.set node .unseen node.isLt)

/-- Nodes without a value have none after they are forgotten. -/
theorem map_forget {nodes : List (Fin graph.size)}
    (h : ∀ node ∈ nodes, (marks.get node).value? = none) :
    (Visit.forget marks nodes).map Mark.value? = marks.map Mark.value? := by
  ext j hj : 1
  rw [Vector.getElem_map, Vector.getElem_map]
  have hget := Visit.get_forget nodes marks ⟨j, hj⟩
  split at hget
  · next hmem => exact (congrArg Mark.value? hget).trans (h _ hmem).symm
  · exact congrArg Mark.value? hget

theorem unwind?_ofMarks {nodes : List (Fin graph.size)}
    (htrail : (ofMarks marks path).trail = nodes.map Fin.val)
    (h : ∀ node ∈ nodes, (marks.get node).value? = none) :
    (ofMarks marks path).unwind? = some (ofMarks (Visit.forget marks nodes) []) := by
  have hflags : (nodes.map Fin.val).foldlM (fun onPath node => put? onPath node false)
      (ofMarks marks path).onPath = _ := foldlM_put? nodes marks
  unfold unwind?
  rw [htrail, hflags]
  unfold ofMarks
  rw [map_forget h]
  rfl

theorem node?_val (graph : Graph) (i : Fin graph.size) :
    graph.node? i = some (graph.node i) := by
  unfold node?
  rw [Vector.getElem?_eq_getElem i.isLt]
  rfl

theorem chain?_eq {ledger : Ledger} {nodes : List (Fin graph.size)} {node : Fin graph.size}
    (htrail : ledger.trail = nodes.map Fin.val) (hmem : node ∈ nodes) :
    ledger.chain? graph node =
      some ((nodes.dropWhile (· ≠ node) ++ [node]).map fun i => (graph.node i).name) := by
  have hplace : (nodes.map Fin.val).findIdx? (· = node.val) =
      some (nodes.findIdx (· = node)) := by
    have hsame : (fun number => decide (number = node.val)) ∘ Fin.val =
        fun i : Fin graph.size => decide (i = node) := by
      ext i
      simp [Fin.ext_iff]
    rw [List.findIdx?_map, hsame]
    exact List.findIdx?_eq_some_of_exists ⟨node, hmem, by simp⟩
  have hrest : nodes.drop (nodes.findIdx (· = node)) = nodes.dropWhile (· ≠ node) := by
    rw [List.dropWhile_eq_drop_findIdx_not]
    simp
  have hnames : ∀ chain : List (Fin graph.size),
      (chain.map Fin.val).mapM (fun number => (graph.node? number).map (·.name)) =
        some (chain.map fun i => (graph.node i).name) := by
    intro chain
    induction chain with
    | nil => rfl
    | cons i chain ih =>
        rw [List.map_cons, List.mapM_cons, ih, node?_val]
        rfl
  unfold chain?
  rw [htrail, hplace, Option.bind_some, ← List.map_drop, hrest, ← hnames, List.map_append]
  rfl

/-! ## Turn by turn -/

section Visiting

variable {root : Fin graph.size} {visit : Visit graph}

/-- The ledger after a node is settled. -/
theorem settle?_within (visit : Visit graph) (value : Bool) :
    (within visit).settle? (stopOf visit.top) (visit.below.map stopOf) value =
      some (Turn.ofProgress (visit.settle value)) := by
  unfold within stopOf
  rw [settle?_ofMarks]
  unfold Visit.settle
  cases visit.below <;> rfl

/-- The conditions from the place of a frame on are those that remain. -/
theorem condition?_placeOf {marks : Vector Mark graph.size} {frame : Frame graph.size}
    (h : Visit.Checked marks frame) :
    (graph.node frame.node).condition? (Visit.placeOf frame) = frame.remaining.head? := by
  obtain ⟨met, hsplit, -⟩ := h
  unfold Node.condition?
  rw [Visit.placeOf_eq hsplit, hsplit, List.getElem?_append_right (Nat.le_refl _), Nat.sub_self,
    List.head?_eq_getElem?]

theorem within_advance (h : visit.Valid root) {condition : Condition graph.size}
    {rest : List (Condition graph.size)} (hremaining : visit.top.remaining = condition :: rest) :
    within (visit.advance rest) =
      { within visit with
        path := ⟨visit.top.node, Visit.placeOf visit.top + 1⟩ :: visit.below.map stopOf } := by
  rw [← ((h.checked visit.top List.mem_cons_self).placeOf_advance hremaining).2]
  rfl

theorem within_descend (visit : Visit graph) (node : Fin graph.size) :
    within (visit.descend node) =
      ofMarks (visit.marks.set node .pending node.isLt)
        (⟨node, 0⟩ :: visit.frames.map stopOf) := by
  have hplace : Visit.placeOf (visit.descend node).top = 0 := Nat.sub_self _
  rw [← hplace]
  rfl

theorem check?_within (h : visit.Valid root)
    (hyes : (graph.node visit.top.node).default ≠ .no) {condition : Condition graph.size}
    {rest : List (Condition graph.size)} (hremaining : visit.top.remaining = condition :: rest) :
    (within visit).check? graph (stopOf visit.top) (visit.below.map stopOf) condition.node
        condition.wanted = some (Turn.ofProgress visit.step) := by
  have hvalues : (within visit).values[condition.node.val]? = _ :=
    getElem?_toArray_map Mark.value? visit.marks condition.node
  have honPath : (within visit).onPath[condition.node.val]? = _ :=
    getElem?_toArray_map Mark.isPending visit.marks condition.node
  unfold check?
  rw [hvalues, honPath]
  cases hmark : visit.marks.get condition.node with
  | settled value =>
      simp only [Mark.value?, Option.bind_some]
      by_cases hvalue : value = condition.wanted
      · have hstep : visit.step = .running (visit.advance rest) := by
          simp only [Visit.step, if_neg hyes, hremaining, hmark, if_pos hvalue]
        rw [if_pos hvalue, hstep, Turn.ofProgress, within_advance h hremaining]
        rfl
      · have hstep : visit.step = visit.settle false := by
          simp only [Visit.step, if_neg hyes, hremaining, hmark, if_neg hvalue]
        rw [if_neg hvalue, hstep, settle?_within]
  | pending =>
      have hstep : visit.step = visit.close condition.node := by
        simp only [Visit.step, if_neg hyes, hremaining, hmark]
      have hunwind : (within visit).unwind? = _ :=
        unwind?_ofMarks (trail_within visit) fun node hnode => by
          rw [(h.pending_iff node).mpr hnode]
          rfl
      simp only [Mark.value?, Mark.isPending, Option.bind_some]
      rw [chain?_eq (trail_within visit) ((h.pending_iff condition.node).mp hmark), hunwind, hstep]
      rfl
  | unseen =>
      have hstep : visit.step = .running (visit.descend condition.node) := by
        simp only [Visit.step, if_neg hyes, hremaining, hmark]
      have henter : (within visit).enter? condition.node = _ :=
        enter?_ofMarks (by rw [hmark]; rfl)
      simp only [Mark.value?, Mark.isPending, Option.bind_some]
      rw [henter, hstep, Turn.ofProgress, within_descend]
      rfl

/-- Each turn of the ledger of a visit is a step of the visit. -/
theorem turn?_within (h : visit.Valid root) :
    (within visit).turn? graph = some (Turn.ofProgress visit.step) := by
  have hnode : graph.node? (stopOf visit.top).node = _ := node?_val graph visit.top.node
  have hcondition : (graph.node visit.top.node).condition? (stopOf visit.top).next = _ :=
    condition?_placeOf (h.checked visit.top List.mem_cons_self)
  have hturn : (within visit).turn? graph =
      (graph.node? (stopOf visit.top).node).bind fun node =>
        if node.default = .no then
          (within visit).settle? (stopOf visit.top) (visit.below.map stopOf) false
        else
          match node.condition? (stopOf visit.top).next with
          | none => (within visit).settle? (stopOf visit.top) (visit.below.map stopOf) true
          | some condition => (within visit).check? graph (stopOf visit.top)
              (visit.below.map stopOf) condition.node condition.wanted := rfl
  rw [hturn, hnode, Option.bind_some, hcondition]
  by_cases hno : (graph.node visit.top.node).default = .no
  · rw [if_pos hno, settle?_within]
    unfold Visit.step
    rw [if_pos hno]
  · rw [if_neg hno]
    cases hremaining : visit.top.remaining with
    | nil =>
        simp only [List.head?_nil]
        rw [settle?_within]
        unfold Visit.step
        rw [if_neg hno, hremaining]
    | cons condition rest => exact check?_within h hno hremaining

end Visiting

/-! ## What the tables say together -/

/-- How the tables belong together in the midst of a call. -/
structure InStep (graph : Graph) (ledger : Ledger) : Prop where
  size_values : ledger.values.size = graph.size
  size_onPath : ledger.onPath.size = graph.size
  nodup : ledger.trail.Nodup
  onPath_iff : ∀ number, ledger.onPath[number]? = some true ↔ number ∈ ledger.trail
  valueless : ∀ number ∈ ledger.trail, ledger.values[number]? = some none
  /-- The conditions before the next one of a node on the path hold. -/
  passed : ∀ stop ∈ ledger.path, ∃ node, graph.node? stop.node = some node ∧
    ∀ place < stop.next, ∃ condition, node.condition? place = some condition ∧
      ledger.values[condition.node.val]? = some (some condition.wanted)
  /-- Each node on the path waits for the one inside it. -/
  awaited : ledger.path.IsChain fun inner outer => ∃ node condition,
    graph.node? outer.node = some node ∧ node.condition? outer.next = some condition ∧
      condition.node.val = inner.node

/-- How the tables are between two calls. -/
structure AtRest (graph : Graph) (ledger : Ledger) : Prop where
  size_values : ledger.values.size = graph.size
  onPath_eq : ledger.onPath = .replicate graph.size false
  path_eq : ledger.path = []

/-- What has a value in `ledger` has the same value in `later`. -/
def Keeps (ledger later : Ledger) : Prop :=
  ∀ (number : Nat) (value : Bool), ledger.values[number]? = some (some value) →
    later.values[number]? = some (some value)

theorem mem_trail_within_iff {visit : Visit graph} {i : Fin graph.size} :
    i.val ∈ (within visit).trail ↔ i ∈ visit.path := by
  rw [trail_within, List.mem_map_of_injective Fin.val_injective]

theorem inStep_within {root : Fin graph.size} {visit : Visit graph} (h : visit.Valid root) :
    (within visit).InStep graph where
  size_values := by simp [within, ofMarks]
  size_onPath := by simp [within, ofMarks]
  nodup := by
    rw [trail_within]
    exact h.nodup.map Fin.val_injective
  onPath_iff := by
    intro number
    by_cases hlt : number < graph.size
    · have hflag : (within visit).onPath[number]? = _ :=
        getElem?_toArray_map Mark.isPending visit.marks ⟨number, hlt⟩
      have hpending : (visit.marks.get ⟨number, hlt⟩).isPending = true ↔
          visit.marks.get ⟨number, hlt⟩ = .pending := by
        cases visit.marks.get ⟨number, hlt⟩ <;> simp [Mark.isPending]
      rw [hflag, Option.some.injEq, hpending, h.pending_iff, ← mem_trail_within_iff]
    · have hnone : (within visit).onPath[number]? = none := by
        simp [within, ofMarks, Nat.le_of_not_lt hlt]
      rw [hnone, trail_within]
      refine iff_of_false (by simp) ?_
      intro hmem
      obtain ⟨i, -, rfl⟩ := List.mem_map.mp hmem
      exact hlt i.isLt
  valueless := by
    intro number hnumber
    rw [trail_within] at hnumber
    obtain ⟨i, hi, rfl⟩ := List.mem_map.mp hnumber
    refine (getElem?_toArray_map Mark.value? visit.marks i).trans ?_
    rw [(h.pending_iff i).mpr hi]
    rfl
  passed := by
    intro stop hstop
    obtain ⟨frame, hframe, rfl⟩ := List.mem_map.mp hstop
    obtain ⟨met, hsplit, hmet⟩ := h.checked frame hframe
    refine ⟨graph.node frame.node, node?_val graph frame.node, ?_⟩
    intro place hplace
    have hlt : place < met.length := (Visit.placeOf_eq hsplit) ▸ hplace
    refine ⟨met[place], ?_, ?_⟩
    · rw [Node.condition?, hsplit, List.getElem?_append_left hlt, List.getElem?_eq_getElem hlt]
    · refine (getElem?_toArray_map Mark.value? visit.marks _).trans ?_
      rw [hmet _ (List.getElem_mem hlt)]
      rfl
  awaited := by
    rw [within, ofMarks, List.isChain_map]
    apply h.awaits.imp_of_mem_imp
    intro inner outer _ houter hawaits
    obtain ⟨-, condition, rest, hremaining, hnode⟩ := hawaits
    refine ⟨graph.node outer.node, condition, node?_val graph outer.node, ?_, by rw [hnode]; rfl⟩
    have hnext : (graph.node outer.node).condition? (stopOf outer).next = _ :=
      condition?_placeOf (h.checked outer houter)
    rw [hnext, hremaining, List.head?_cons]

theorem atRest_between {evaluator : Evaluator graph} (h : RestingMarks evaluator.marks) :
    (between evaluator).AtRest graph where
  size_values := by simp [between, ofMarks]
  onPath_eq := by
    apply Array.ext
    · simp [between, ofMarks]
    · intro number hnumber hlt
      have hsize : number < graph.size := by simpa using hlt
      have hnot := h.not_pending ⟨number, hsize⟩
      have hflag : (evaluator.marks.get ⟨number, hsize⟩).isPending = false := by
        cases hmark : evaluator.marks.get ⟨number, hsize⟩ with
        | pending => exact absurd hmark hnot
        | unseen => rfl
        | settled value => rfl
      simp only [between, ofMarks, Vector.getElem_toArray, Vector.getElem_map,
        Array.getElem_replicate]
      exact hflag
  path_eq := rfl

/-! ## Values stay -/

theorem keeps_ofMarks {marks' : Vector Mark graph.size} {path' : List Stop}
    (h : ∀ (i : Fin graph.size) (value : Bool), marks.get i = .settled value →
      marks'.get i = .settled value) :
    (ofMarks marks path).Keeps (ofMarks marks' path') := by
  intro number value hvalue
  by_cases hlt : number < graph.size
  · have hbefore : (ofMarks marks path).values[number]? = _ :=
      getElem?_toArray_map Mark.value? marks ⟨number, hlt⟩
    have hafter : (ofMarks marks' path').values[number]? = _ :=
      getElem?_toArray_map Mark.value? marks' ⟨number, hlt⟩
    rw [hbefore, Option.some.injEq] at hvalue
    have hmark : marks.get ⟨number, hlt⟩ = .settled value := by
      cases hget : marks.get ⟨number, hlt⟩ <;> simp_all [Mark.value?]
    rw [hafter, h _ value hmark]
    rfl
  · have hnone : (ofMarks marks path).values[number]? = none := by
      simp [ofMarks, Nat.le_of_not_lt hlt]
    rw [hnone] at hvalue
    cases hvalue

end Ledger

/-! ## Whole calls -/

/-- The answer of a call, and the evaluator that it leaves, as a turn that ends the call. -/
inductive Turn.Answers : Turn → Except Error Bool × Evaluator graph → Prop
  | finished {value : Bool} {next : Evaluator graph} :
      Answers (.finished value (Ledger.between next)) (.ok value, next)
  | failed {chain : List String} {next : Evaluator graph} :
      Answers (.failed chain (Ledger.between next)) (.error (.circularDependency chain), next)

namespace Ledger

open Relation Evaluator

variable {evaluator : Evaluator graph} {root : Fin graph.size} {visit : Visit graph}

theorem begin?_between_of_settled {value : Bool}
    (hroot : evaluator.marks.get root = .settled value) :
    (between evaluator).begin? root = some (.finished value (between evaluator)) := by
  have hvalue : (between evaluator).values[root.val]? = _ :=
    getElem?_toArray_map Mark.value? evaluator.marks root
  unfold begin?
  rw [hvalue, hroot]
  rfl

theorem begin?_between_of_unsettled
    (hroot : ∀ value, evaluator.marks.get root ≠ .settled value) :
    (between evaluator).begin? root =
      some (.going (within (Visit.start evaluator.marks root))) := by
  have hnone : (evaluator.marks.get root).value? = none := by
    cases hmark : evaluator.marks.get root with
    | settled value => exact absurd hmark (hroot value)
    | unseen => rfl
    | pending => rfl
  have hvalue : (between evaluator).values[root.val]? = _ :=
    getElem?_toArray_map Mark.value? evaluator.marks root
  have henter : (between evaluator).enter? root = _ := enter?_ofMarks hnone
  have hplace : Visit.placeOf (Visit.start evaluator.marks root).top = 0 := Nat.sub_self _
  unfold begin?
  rw [hvalue, hnone, Option.bind_some, henter, ← hplace]
  rfl

theorem keeps_turn (h : visit.Valid root) :
    (within visit).Keeps (Turn.ofProgress visit.step).ledger := by
  have hkeeps : ∀ path, (within visit).Keeps (ofMarks visit.step.marks path) := by
    intro path
    apply keeps_ofMarks
    intro i value hi
    exact h.settled_step hi
  cases hstep : visit.step with
  | running next =>
      rw [hstep] at hkeeps
      exact hkeeps (next.frames.map stopOf)
  | finished value marks =>
      rw [hstep] at hkeeps
      exact hkeeps []
  | cycle chain marks =>
      rw [hstep] at hkeeps
      exact hkeeps []

/-- The turns of a call are the moves of a visit. -/
theorem follows_of_traversal (hresting : RestingMarks evaluator.marks)
    {moves : List (Move graph.size)}
    (h : Visit.Traversal evaluator.marks root moves visit) :
    ReflTransGen (Follows graph) (.going (within (Visit.start evaluator.marks root)))
      (.going (within visit)) := by
  induction h with
  | start => exact .refl
  | step h hstep _ ih =>
      have hturn := turn?_within (h.valid hresting)
      rw [hstep] at hturn
      exact ih.tail (.turn hturn)

theorem exists_traversal_of_follows (hresting : RestingMarks evaluator.marks) {turn : Turn}
    (h : ReflTransGen (Follows graph) (.going (within (Visit.start evaluator.marks root))) turn)
    {ledger : Ledger} (hturn : turn = .going ledger) :
    ∃ moves visit, Visit.Traversal evaluator.marks root moves visit ∧ ledger = within visit := by
  induction h generalizing ledger with
  | refl =>
      cases hturn
      exact ⟨_, _, .start, rfl⟩
  | tail _ hfollows ih =>
      subst hturn
      cases hfollows with
      | turn hgoing =>
          obtain ⟨moves, visit, htraversal, rfl⟩ := ih rfl
          rw [turn?_within (htraversal.valid hresting), Option.some.injEq] at hgoing
          cases hstep : visit.step with
          | running next =>
              rw [hstep] at hgoing
              cases hgoing
              obtain ⟨move, hmove⟩ := Visit.exists_moves_of_step hstep
              exact ⟨_, next, htraversal.step hstep hmove, rfl⟩
          | finished value marks =>
              rw [hstep] at hgoing
              cases hgoing
          | cycle chain marks =>
              rw [hstep] at hgoing
              cases hgoing

/-- A visit ends with the turn that gives the answer of the evaluator. -/
theorem exists_answer_of_unsettled (hresting : RestingMarks evaluator.marks)
    (hroot : ∀ value, evaluator.marks.get root ≠ .settled value) :
    ∃ last, ReflTransGen (Follows graph) (.going (within (Visit.start evaluator.marks root))) last ∧
      last.Answers (evaluator.value root) := by
  have hstart : Visit.Traversal evaluator.marks root [.enter root]
    (Visit.start evaluator.marks root) := .start
  obtain ⟨moves, visit, htraversal, houtcome⟩ := hstart.exists_ending
  have hlast := (follows_of_traversal hresting htraversal).tail
    (.turn (turn?_within (htraversal.valid hresting)))
  refine ⟨_, hlast, ?_⟩
  rw [value_of_unsettled hroot]
  cases hstep : visit.step with
  | running next =>
      rw [hstep] at houtcome
      cases houtcome
  | finished value marks =>
      rw [hstep] at houtcome
      rw [← Option.some.inj houtcome]
      exact .finished
  | cycle chain marks =>
      rw [hstep] at houtcome
      rw [← Option.some.inj houtcome]
      exact .failed

/-- A call for `root` that begins with the turn `first`, as it goes on in the tables. -/
structure CallInStep (evaluator : Evaluator graph) (root : Fin graph.size) (first : Turn) :
    Prop where
  begins : (between evaluator).begin? root = some first
  keeps_first : (between evaluator).Keeps first.ledger
  /-- At every turn the tables are those of a visit, and there is a next turn. -/
  going : ∀ ledger, ReflTransGen (Follows graph) first (.going ledger) →
    ledger.InStep graph ∧
    (∃ moves visit, Visit.Traversal evaluator.marks root moves visit ∧ ledger = within visit) ∧
    ∃ turn, ledger.turn? graph = some turn ∧ ledger.Keeps turn.ledger
  answers : ∃ last, ReflTransGen (Follows graph) first last ∧ last.Answers (evaluator.value root)

theorem callInStep_of_settled {value : Bool}
    (hroot : evaluator.marks.get root = .settled value) :
    CallInStep evaluator root (.finished value (between evaluator)) where
  begins := begin?_between_of_settled hroot
  keeps_first := fun _ _ hvalue => hvalue
  going := by
    intro ledger hledger
    rcases hledger.cases_head with heq | ⟨_, hfollows, -⟩
    · cases heq
    · cases hfollows
  answers := by
    rw [value_of_settled hroot]
    exact ⟨_, .refl, .finished⟩

theorem callInStep_of_unsettled (hresting : RestingMarks evaluator.marks)
    (hroot : ∀ value, evaluator.marks.get root ≠ .settled value) :
    CallInStep evaluator root (.going (within (Visit.start evaluator.marks root))) where
  begins := begin?_between_of_unsettled hroot
  keeps_first := by
    apply keeps_ofMarks
    exact Visit.keeps_settled .pending hroot
  going := by
    intro ledger hledger
    obtain ⟨moves, visit, htraversal, rfl⟩ := exists_traversal_of_follows hresting hledger rfl
    have hvalid := htraversal.valid hresting
    exact ⟨inStep_within hvalid, ⟨moves, visit, htraversal, rfl⟩, _, turn?_within hvalid,
      keeps_turn hvalid⟩
  answers := exists_answer_of_unsettled hresting hroot

theorem exists_callInStep (hresting : RestingMarks evaluator.marks) (root : Fin graph.size) :
    ∃ first, CallInStep evaluator root first := by
  by_cases hroot : ∃ value, evaluator.marks.get root = .settled value
  · obtain ⟨value, hvalue⟩ := hroot
    exact ⟨_, callInStep_of_settled hvalue⟩
  · exact ⟨_, callInStep_of_unsettled hresting (not_exists.mp hroot)⟩

/-- No call changes a value. -/
theorem keeps_afterCall (hresting : RestingMarks evaluator.marks) (call : Call) :
    (between evaluator).Keeps (between (evaluator.afterCall call)) := by
  obtain ⟨asked, hasked⟩ := exists_through_afterCall evaluator call
  rw [hasked]
  apply keeps_ofMarks
  intro i value hi
  exact settled_through hresting asked hi

/--
**The tables of an evaluation stay in step.** After any calls, failed ones included, and whatever
nodes a call for all has gone through, the path is empty, no node is flagged as on it, and no later
call changes a value. A call for a node begins, and goes on turn by turn up to the answer of the
evaluator. At each turn the nodes on the path are distinct, are the flagged ones and have no value;
what is before the next condition of each holds; each waits for the next. And each turn leads to
another, which changes no value: no number is looked up that is not there.
-/
theorem ledger_stays_in_step (graph : Graph) (calls : List Call)
    (asked : List (Fin graph.size)) :
    (between ((afterCalls graph calls).through asked)).AtRest graph ∧
    (∀ call, (between ((afterCalls graph calls).through asked)).Keeps
      (between (((afterCalls graph calls).through asked).afterCall call))) ∧
    ∀ root, ∃ first, CallInStep ((afterCalls graph calls).through asked) root first := by
  have hresting := resting_through (resting_afterCalls graph calls) asked
  exact ⟨atRest_between hresting, keeps_afterCall hresting, exists_callInStep hresting⟩

/-- A call for `A` has come over `B` to `D`, whose first condition holds: `E` is on. -/
def rungsLedger : Ledger :=
  ⟨#[none, none, none, none, some true, none], #[true, true, false, true, false, false],
    [⟨3, 1⟩, ⟨1, 0⟩, ⟨0, 0⟩]⟩

theorem follows_rungs :
    ReflTransGen (Follows rungsGraph)
      (.going ⟨.replicate 6 none, #[true, false, false, false, false, false], [⟨0, 0⟩]⟩)
      (.going rungsLedger) := by
  refine .head (.turn rfl) ?_
  refine .head (.turn rfl) ?_
  refine .head (.turn rfl) ?_
  refine .head (.turn rfl) ?_
  exact .single (.turn rfl)

theorem ledger_stays_in_step_rungs :
    (between ((afterCalls rungsGraph []).through [])).begin? 0 =
      some (.going ⟨.replicate 6 none, #[true, false, false, false, false, false], [⟨0, 0⟩]⟩) ∧
    rungsLedger.InStep rungsGraph ∧ ∃ turn, rungsLedger.turn? rungsGraph = some turn := by
  have hbegins : (between ((afterCalls rungsGraph []).through [])).begin? 0 =
      some (.going ⟨.replicate 6 none, #[true, false, false, false, false, false], [⟨0, 0⟩]⟩) := by
    cbv
  obtain ⟨-, -, hcalls⟩ := ledger_stays_in_step rungsGraph [] []
  obtain ⟨first, hcall⟩ := hcalls ⟨0, by decide⟩
  have hfirst : first = .going ⟨.replicate 6 none, _, _⟩ :=
    Option.some.inj (hcall.begins.symm.trans hbegins)
  subst hfirst
  obtain ⟨hinStep, -, turn, hturn, -⟩ := hcall.going rungsLedger follows_rungs
  exact ⟨hbegins, hinStep, turn, hturn⟩

end Ledger

end FeatureFlags
