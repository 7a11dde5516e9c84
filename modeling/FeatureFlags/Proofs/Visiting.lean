import Mathlib
import FeatureFlags.Proofs.Reference

/-!
# The invariant of a visit

A visit keeps four things in step: the marks, the path, the conditions left at each node of the
path, and what each node of the path waits for. `Visit.Valid` says how, each kind of step keeps it
(`Valid.advance`, `Valid.descend`, `Valid.settle`), and what it gives at the end of a run is the
answer of the path evaluator (`Valid.run_spec`), whatever was marked before.
-/

namespace FeatureFlags

open FeatureFlags.Graph Relation

variable {graph : Graph}

/-! ## Marks -/

/-- A mark that holds a value holds the value of its node. -/
def SoundMarks (marks : Vector Mark graph.size) : Prop :=
  ∀ (i : Fin graph.size) (value : Bool), marks.get i = .settled value → graph.Settles i value

/-- Marks between two visits: sound, and no node is on a path. -/
structure RestingMarks (marks : Vector Mark graph.size) : Prop where
  sound : SoundMarks marks
  not_pending : ∀ i : Fin graph.size, marks.get i ≠ .pending

namespace Visit

theorem get_set_mark (marks : Vector Mark graph.size) (i j : Fin graph.size) (mark : Mark) :
    (marks.set i mark i.isLt).get j = if i = j then mark else marks.get j := by
  simp only [Fin.ext_iff]
  exact Vector.getElem_set i.isLt j.isLt

theorem get_forget (path : List (Fin graph.size)) (marks : Vector Mark graph.size)
    (j : Fin graph.size) : (forget marks path).get j = if j ∈ path then .unseen else marks.get j := by
  induction path generalizing marks with
  | nil => simp [forget]
  | cons i path ih =>
      have hstep : forget marks (i :: path) = forget (marks.set i .unseen) path := rfl
      rw [hstep, ih, get_set_mark]
      by_cases hj : j ∈ path
      · simp [hj]
      · by_cases hi : i = j
        · simp [hi]
        · simp [hj, hi, Ne.symm hi]

/-! ## Frames -/

/-- The conditions of the frame's node before the remaining ones hold, as far as is marked. -/
def Checked (marks : Vector Mark graph.size) (frame : Frame graph.size) : Prop :=
  ∃ met, (graph.node frame.node).conditions = met ++ frame.remaining ∧
    ∀ c ∈ met, marks.get c.node = .settled c.wanted

/-- The next condition of the frame is on `node`. -/
def Awaits (frame : Frame graph.size) (node : Fin graph.size) : Prop :=
  (graph.node frame.node).default = .yes ∧
    ∃ condition rest, frame.remaining = condition :: rest ∧ condition.node = node

theorem Checked.asks {marks : Vector Mark graph.size} {frame : Frame graph.size}
    {node : Fin graph.size} (h : Checked marks frame) (hsound : SoundMarks marks)
    (hawaits : Awaits frame node) : graph.Asks frame.node node := by
  obtain ⟨met, hsplit, hmet⟩ := h
  obtain ⟨hyes, condition, rest, hremaining, hnode⟩ := hawaits
  refine ⟨hyes, met, condition, rest, hremaining ▸ hsplit, hnode, ?_⟩
  intro c hc
  exact hsound c.node c.wanted (hmet c hc)

/-- What is marked as settled stays so. -/
theorem Checked.mono {marks marks' : Vector Mark graph.size} {frame : Frame graph.size}
    (h : Checked marks frame)
    (hkeep : ∀ (i : Fin graph.size) (value : Bool), marks.get i = .settled value →
      marks'.get i = .settled value) :
    Checked marks' frame := by
  obtain ⟨met, hsplit, hmet⟩ := h
  refine ⟨met, hsplit, ?_⟩
  intro c hc
  exact hkeep c.node c.wanted (hmet c hc)

/-! ## The invariant -/

/-- The path from its innermost node outwards. -/
def frames (visit : Visit graph) : List (Frame graph.size) := visit.top :: visit.below

theorem path_eq (visit : Visit graph) : visit.path = (visit.frames.map (·.node)).reverse := by
  simp [path, frames]

/-- How marks, path and frames of a visit of `root` belong together. -/
structure Valid (root : Fin graph.size) (visit : Visit graph) : Prop where
  sound : SoundMarks visit.marks
  pending_iff : ∀ i : Fin graph.size, visit.marks.get i = .pending ↔ i ∈ visit.path
  nodup : visit.path.Nodup
  checked : ∀ frame ∈ visit.frames, Checked visit.marks frame
  awaits : visit.frames.IsChain fun inner outer => Awaits outer inner.node
  head : visit.path.head? = some root

/-- A new mark on a node that has no value yet leaves the values of the others. -/
theorem keeps_settled {marks : Vector Mark graph.size} {i : Fin graph.size} (mark : Mark)
    (h : ∀ value, marks.get i ≠ .settled value) (j : Fin graph.size) (value : Bool)
    (hj : marks.get j = .settled value) : (marks.set i mark i.isLt).get j = .settled value := by
  rw [get_set_mark]
  by_cases hij : i = j
  · subst hij
    exact absurd hj (h value)
  · rw [if_neg hij, hj]

theorem valid_start {marks : Vector Mark graph.size} (h : RestingMarks marks)
    (root : Fin graph.size) : (start marks root).Valid root where
  sound := by
    intro i value hi
    simp only [start, get_set_mark] at hi
    split at hi
    · cases hi
    · exact h.sound i value hi
  pending_iff := by
    intro i
    simp only [start, get_set_mark, path, List.map_nil, List.reverse_nil, List.nil_append,
      List.mem_singleton]
    by_cases hi : root = i
    · simp [hi]
    · rw [if_neg hi]
      exact iff_of_false (h.not_pending i) (Ne.symm hi)
  nodup := by simp [start, path]
  checked := by
    intro frame hframe
    rw [frames, start, List.mem_singleton] at hframe
    subst hframe
    exact ⟨[], rfl, by simp⟩
  awaits := List.isChain_singleton _
  head := rfl

namespace Valid

variable {root : Fin graph.size} {visit next : Visit graph}

theorem top_pending (h : visit.Valid root) : visit.marks.get visit.top.node = .pending :=
  (h.pending_iff _).mpr (by simp [path])

/-- Along the path each node asks for the next. -/
theorem asks (h : visit.Valid root) : visit.path.IsChain graph.Asks := by
  rw [path_eq, List.isChain_reverse, List.isChain_map]
  apply h.awaits.imp_of_mem_imp
  intro inner outer _ houter hawaits
  exact (h.checked outer houter).asks h.sound hawaits

theorem asks_snoc (h : visit.Valid root) {node : Fin graph.size}
    (hasks : graph.Asks visit.top.node node) : (visit.path ++ [node]).IsChain graph.Asks := by
  rw [List.isChain_append]
  refine ⟨h.asks, List.isChain_singleton _, ?_⟩
  intro p hp q hq
  simp only [path, List.getLast?_append, List.getLast?_singleton, Option.some_or,
    Option.mem_def, Option.some.injEq] at hp
  simp only [List.head?_cons, Option.mem_def, Option.some.injEq] at hq
  rw [← hp, ← hq]
  exact hasks

/-! ## One lemma for each kind of step -/

theorem advance (h : visit.Valid root) {condition : Condition graph.size}
    {rest : List (Condition graph.size)} (hremaining : visit.top.remaining = condition :: rest)
    (hmark : visit.marks.get condition.node = .settled condition.wanted) :
    (visit.advance rest).Valid root where
  sound := h.sound
  pending_iff := h.pending_iff
  nodup := h.nodup
  checked := by
    intro frame hframe
    rcases List.mem_cons.mp hframe with rfl | hbelow
    · obtain ⟨met, hsplit, hmet⟩ := h.checked visit.top List.mem_cons_self
      refine ⟨met ++ [condition], ?_, ?_⟩
      · show (graph.node visit.top.node).conditions = met ++ [condition] ++ rest
        rw [hsplit, hremaining, List.append_assoc]
        rfl
      · intro c hc
        rcases List.mem_append.mp hc with hc | hc
        · exact hmet c hc
        · rw [List.mem_singleton.mp hc]
          exact hmark
    · exact h.checked frame (List.mem_cons_of_mem _ hbelow)
  awaits := by
    have := h.awaits
    rw [frames, List.isChain_cons] at this
    exact List.isChain_cons.mpr this
  head := h.head

theorem descend (h : visit.Valid root) {node : Fin graph.size}
    (hawaits : Awaits visit.top node) (hmark : visit.marks.get node = .unseen) :
    (visit.descend node).Valid root := by
  have hnew : node ∉ visit.path := by
    rw [← h.pending_iff, hmark]
    simp
  have hpath : (visit.descend node).path = visit.path ++ [node] := by
    simp [Visit.descend, path]
  have hunsettled : ∀ value, visit.marks.get node ≠ .settled value := by
    intro value
    rw [hmark]
    exact Mark.noConfusion
  constructor
  · intro i value hi
    simp only [Visit.descend, get_set_mark] at hi
    split at hi
    · cases hi
    · exact h.sound i value hi
  · intro i
    rw [hpath, List.mem_append, List.mem_singleton, ← h.pending_iff]
    simp only [Visit.descend, get_set_mark]
    by_cases hi : node = i
    · simp [hi]
    · simp [hi, Ne.symm hi]
  · rw [hpath]
    exact List.nodup_append.mpr ⟨h.nodup, List.pairwise_singleton _ _, by
      rintro p hp q hq rfl
      exact hnew (List.mem_singleton.mp hq ▸ hp)⟩
  · intro frame hframe
    rcases List.mem_cons.mp hframe with rfl | hbelow
    · exact ⟨[], rfl, by simp⟩
    · exact (h.checked frame hbelow).mono (keeps_settled .pending hunsettled)
  · exact List.isChain_cons_cons.mpr ⟨hawaits, h.awaits⟩
  · rw [hpath, List.head?_append, h.head]
    rfl

theorem sound_settle (h : visit.Valid root) {value : Bool}
    (hsettles : graph.Settles visit.top.node value) :
    SoundMarks (visit.marks.set visit.top.node (.settled value) visit.top.node.isLt) := by
  intro i other hi
  rw [get_set_mark] at hi
  split at hi
  · next htop =>
      cases hi
      exact htop ▸ hsettles
  · exact h.sound i other hi

/-- The root is settled: nothing is left on the path. -/
theorem resting_settle (h : visit.Valid root) {value : Bool}
    (hsettles : graph.Settles visit.top.node value) (hbelow : visit.below = []) :
    visit.top.node = root ∧
      RestingMarks (visit.marks.set visit.top.node (.settled value) visit.top.node.isLt) := by
  have hpath : visit.path = [visit.top.node] := by simp [path, hbelow]
  have hhead := h.head
  rw [hpath, List.head?_cons, Option.some.injEq] at hhead
  refine ⟨hhead, h.sound_settle hsettles, ?_⟩
  intro i hi
  rw [get_set_mark] at hi
  split at hi
  · cases hi
  · next htop =>
      rw [h.pending_iff, hpath, List.mem_singleton] at hi
      exact htop hi.symm

/-- The innermost node is settled: the visit is back at the node that waits for it. -/
theorem settle (h : visit.Valid root) {value : Bool}
    (hsettles : graph.Settles visit.top.node value) {asking : Frame graph.size}
    {below : List (Frame graph.size)} (hbelow : visit.below = asking :: below) :
    (⟨visit.marks.set visit.top.node (.settled value) visit.top.node.isLt, asking, below⟩ :
      Visit graph).Valid root := by
  set back : Visit graph := ⟨visit.marks.set visit.top.node (.settled value), asking, below⟩
    with hback
  have hpath : visit.path = back.path ++ [visit.top.node] := by simp [path, hbelow, hback]
  have hnodup := List.nodup_append.mp (hpath ▸ h.nodup)
  have htop : visit.top.node ∉ back.path := by
    intro hmem
    exact hnodup.2.2 _ hmem _ (List.mem_singleton_self _) rfl
  have hawaits := h.awaits
  rw [frames, hbelow] at hawaits
  refine ⟨h.sound_settle hsettles, ?_, hnodup.1, ?_, hawaits.tail, ?_⟩
  · -- The settled node leaves the path, on which it was only once.
    intro i
    rw [hback, get_set_mark]
    by_cases hi : visit.top.node = i
    · rw [if_pos hi]
      exact iff_of_false (by simp) (hi ▸ htop)
    · rw [if_neg hi, h.pending_iff, hpath, List.mem_append, List.mem_singleton]
      exact or_iff_left (Ne.symm hi)
  · intro frame hframe
    have hmem : frame ∈ visit.frames := by
      rw [frames, hbelow]
      exact List.mem_cons_of_mem _ hframe
    apply (h.checked frame hmem).mono
    apply keeps_settled
    intro other
    rw [h.top_pending]
    exact Mark.noConfusion
  · have hhead := h.head
    rw [hpath, List.head?_append] at hhead
    have hne : back.path ≠ [] := by simp [path]
    rw [List.head?_eq_some_head hne] at hhead ⊢
    exact hhead

/-- The path came back to one of its nodes. -/
theorem returns (h : visit.Valid root) {node : Fin graph.size} (hawaits : Awaits visit.top node)
    (hmark : visit.marks.get node = .pending) : graph.Returns visit.path node where
  nodup := h.nodup
  mem := (h.pending_iff node).mp hmark
  asks := h.asks_snoc ((h.checked visit.top List.mem_cons_self).asks h.sound hawaits)

theorem resting_forget (h : visit.Valid root) :
    RestingMarks (forget visit.marks visit.path) where
  sound := by
    intro i value hi
    rw [get_forget] at hi
    split at hi
    · cases hi
    · exact h.sound i value hi
  not_pending := by
    intro i hi
    rw [get_forget] at hi
    split at hi
    · cases hi
    · next hnot => exact hnot ((h.pending_iff i).mp hi)

end Valid

/-! ## Whole runs -/

/-- What a step of a visit of `root` may lead to. -/
def Keeps (root : Fin graph.size) : Progress graph → Prop
  | .running next => next.Valid root
  | .finished value marks => graph.Answers root (.ok value) ∧ RestingMarks marks
  | .cycle chain marks => graph.Answers root (.error chain) ∧ RestingMarks marks

namespace Valid

variable {root : Fin graph.size} {visit : Visit graph}

theorem keeps_settle (h : visit.Valid root) {value : Bool}
    (hsettles : graph.Settles visit.top.node value) : Keeps root (visit.settle value) := by
  cases hbelow : visit.below with
  | nil =>
      obtain ⟨htop, hresting⟩ := h.resting_settle hsettles hbelow
      simp only [Visit.settle, hbelow]
      exact ⟨.settled (htop ▸ hsettles), hresting⟩
  | cons asking below =>
      simp only [Visit.settle, hbelow]
      exact h.settle hsettles hbelow

theorem keeps_close (h : visit.Valid root) {node : Fin graph.size}
    (hawaits : Awaits visit.top node) (hmark : visit.marks.get node = .pending) :
    Keeps root (visit.close node) := by
  obtain ⟨path, hpath⟩ : ∃ path, visit.path = root :: path := by
    have hhead := h.head
    cases hp : visit.path with
    | nil => simp [hp] at hhead
    | cons first path =>
        rw [hp, List.head?_cons, Option.some.injEq] at hhead
        exact ⟨path, by rw [hhead]⟩
  have hreturns := h.returns hawaits hmark
  rw [hpath] at hreturns
  -- A cycle leaves no mark on the path, so that a later visit starts afresh there.
  refine ⟨?_, h.resting_forget⟩
  have hanswer := Answers.returned hreturns
  rwa [← hpath] at hanswer

/-- The conditions of the innermost node settle it once they all hold. -/
theorem settles_true (h : visit.Valid root)
    (hyes : (graph.node visit.top.node).default = .yes) (hremaining : visit.top.remaining = []) :
    graph.Settles visit.top.node true := by
  obtain ⟨met, hsplit, hmet⟩ := h.checked visit.top List.mem_cons_self
  rw [hremaining, List.append_nil] at hsplit
  apply Settles.on hyes
  intro c hc
  rw [hsplit] at hc
  exact h.sound c.node c.wanted (hmet c hc)

/-- The first condition of the innermost node that does not hold settles it. -/
theorem settles_false (h : visit.Valid root)
    (hyes : (graph.node visit.top.node).default = .yes) {condition : Condition graph.size}
    {rest : List (Condition graph.size)} (hremaining : visit.top.remaining = condition :: rest)
    {value : Bool} (hmark : visit.marks.get condition.node = .settled value)
    (hvalue : value ≠ condition.wanted) : graph.Settles visit.top.node false := by
  obtain ⟨met, hsplit, hmet⟩ := h.checked visit.top List.mem_cons_self
  rw [hremaining] at hsplit
  have hunmet := h.sound condition.node value hmark
  rw [Bool.eq_not_of_ne hvalue] at hunmet
  refine .unmet hyes hsplit ?_ hunmet
  intro c hc
  exact h.sound c.node c.wanted (hmet c hc)

theorem keeps_step (h : visit.Valid root) : Keeps root visit.step := by
  unfold Visit.step
  split
  · next hno => exact h.keeps_settle (.off hno)
  · next hno =>
      have hyes : (graph.node visit.top.node).default = .yes := by
        cases hdefault : (graph.node visit.top.node).default with
        | yes => rfl
        | no => exact absurd hdefault hno
      split
      · next hremaining => exact h.keeps_settle (h.settles_true hyes hremaining)
      · next condition rest hremaining =>
          have hawaits : Awaits visit.top condition.node :=
            ⟨hyes, condition, rest, hremaining, rfl⟩
          split
          · next value hmark =>
              split
              · next hvalue => exact h.advance hremaining (hvalue ▸ hmark)
              · next hvalue => exact h.keeps_settle (h.settles_false hyes hremaining hmark hvalue)
          · next hmark => exact h.keeps_close hawaits hmark
          · next hmark => exact h.descend hawaits hmark

/-- A visit answers as the path evaluator does, and leaves sound marks and no path. -/
theorem run_spec (h : visit.Valid root) :
    graph.Answers root visit.run.1 ∧ RestingMarks visit.run.2 := by
  fun_induction Visit.run visit with
  | case1 visit next hstep ih =>
      have hkeeps := h.keeps_step
      rw [hstep] at hkeeps
      exact ih hkeeps
  | case2 visit value marks hstep =>
      have hkeeps := h.keeps_step
      rw [hstep] at hkeeps
      exact hkeeps
  | case3 visit chain marks hstep =>
      have hkeeps := h.keeps_step
      rw [hstep] at hkeeps
      exact hkeeps

end Valid

end Visit

end FeatureFlags
