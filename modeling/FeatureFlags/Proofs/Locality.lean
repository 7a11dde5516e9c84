import FeatureFlags.Proofs.Contents
import FeatureFlags.Proofs.Histories

/-!
# What a value depends on

The value of a name depends on the entries that it mentions, directly or through others, and on
nothing else in the table. A graph in which these entries say the same has nodes for them under
other numbers; derivations and returning paths carry over from node to node (`Embeds`), and so
does the answer, be it a value or a cycle (`answers_agree_on_mentioned`).
-/

namespace FeatureFlags

open Relation

namespace Graph

/-! ## Graphs inside others -/

/--
The nodes of `graph` that are `inside` are found in `other` at the places that `place` gives: with
their names, defaults and conditions. What they depend on is inside too.
-/
structure Embeds (graph other : Graph) (inside : Fin graph.size → Prop)
    (place : Fin graph.size → Fin other.size) : Prop where
  closed : ∀ i, inside i → ∀ c ∈ (graph.node i).conditions, inside c.node
  name : ∀ i, inside i → (other.node (place i)).name = (graph.node i).name
  default : ∀ i, inside i → (other.node (place i)).default = (graph.node i).default
  conditions : ∀ i, inside i → (other.node (place i)).conditions =
    (graph.node i).conditions.map fun c => ⟨place c.node, c.wanted⟩
  injective : ∀ i j, inside i → inside j → place i = place j → i = j

namespace Embeds

variable {graph other : Graph} {inside : Fin graph.size → Prop}
  {place : Fin graph.size → Fin other.size} {node next : Fin graph.size}

theorem settles (h : graph.Embeds other inside place) {value : Bool}
    (hsettles : graph.Settles node value) (hinside : inside node) :
    other.Settles (place node) value := by
  induction hsettles with
  | @off node hno => exact .off ((h.default node hinside).trans hno)
  | @unmet node met rest condition hyes hsplit hmet hunmet ihmet ihunmet =>
      have hclosed := h.closed node hinside
      rw [hsplit] at hclosed
      have hsplit' := h.conditions node hinside
      rw [hsplit, List.map_append, List.map_cons] at hsplit'
      refine .unmet ((h.default node hinside).trans hyes) hsplit' ?_ ?_
      · rw [List.forall_mem_map]
        intro c hc
        exact ihmet c hc (hclosed c (List.mem_append_left _ hc))
      · exact ihunmet (hclosed condition List.mem_append_cons_self)
  | @on node hyes hmet ihmet =>
      apply Settles.on ((h.default node hinside).trans hyes)
      rw [h.conditions node hinside, List.forall_mem_map]
      intro c hc
      exact ihmet c hc (h.closed node hinside c hc)

theorem asks (h : graph.Embeds other inside place) (hasks : graph.Asks node next)
    (hinside : inside node) : other.Asks (place node) (place next) := by
  obtain ⟨hyes, met, condition, rest, hsplit, rfl, hmet⟩ := hasks
  have hclosed := h.closed node hinside
  rw [hsplit] at hclosed
  have hsplit' := h.conditions node hinside
  rw [hsplit, List.map_append, List.map_cons] at hsplit'
  refine ⟨(h.default node hinside).trans hyes, _, _, _, hsplit', rfl, ?_⟩
  rw [List.forall_mem_map]
  intro c hc
  exact h.settles (hmet c hc) (hclosed c (List.mem_append_left _ hc))

theorem inside_of_asks (h : graph.Embeds other inside place) (hasks : graph.Asks node next)
    (hinside : inside node) : inside next := by
  obtain ⟨-, met, condition, rest, hsplit, rfl, -⟩ := hasks
  exact h.closed node hinside condition (hsplit ▸ List.mem_append_cons_self)

/-- A path of nodes that ask for one another stays inside. -/
theorem inside_of_isChain (h : graph.Embeds other inside place) {path : List (Fin graph.size)}
    (hchain : (node :: path).IsChain graph.Asks) (hinside : inside node) :
    ∀ p ∈ node :: path, inside p := by
  induction path generalizing node with
  | nil =>
      intro p hp
      rwa [List.mem_singleton.mp hp]
  | cons next path ih =>
      obtain ⟨hasks, hrest⟩ := List.isChain_cons_cons.mp hchain
      rw [List.forall_mem_cons]
      exact ⟨hinside, ih hrest (h.inside_of_asks hasks hinside)⟩

variable {path : List (Fin graph.size)} {back : Fin graph.size}

theorem returns (h : graph.Embeds other inside place) (hreturns : graph.Returns path back)
    (hinside : ∀ p ∈ path, inside p) : other.Returns (path.map place) (place back) where
  nodup := hreturns.nodup.map_on fun i hi j hj => h.injective i j (hinside i hi) (hinside j hj)
  mem := List.mem_map_of_mem hreturns.mem
  asks := by
    rw [← List.map_singleton, ← List.map_append, List.isChain_map]
    have hall : ∀ p ∈ path ++ [back], inside p := by
      intro p hp
      rcases List.mem_append.mp hp with hp | hp
      · exact hinside p hp
      · rw [List.mem_singleton.mp hp]
        exact hinside back hreturns.mem
    exact hreturns.asks.imp_of_mem_imp fun i j hi _ hasks => h.asks hasks (hall i hi)

theorem cycleOf_map (h : graph.Embeds other inside place) (hback : inside back)
    (hinside : ∀ p ∈ path, inside p) :
    cycleOf (path.map place) (place back) = (cycleOf path back).map place := by
  have hdrop : (path.map place).dropWhile (· ≠ place back) =
      (path.dropWhile (· ≠ back)).map place := by
    induction path with
    | nil => rfl
    | cons p path ih =>
        obtain ⟨hp, hpath⟩ := List.forall_mem_cons.mp hinside
        by_cases heq : p = back
        · subst heq
          simp
        · have hne : place p ≠ place back := by
            intro hplaces
            exact heq (h.injective p back hp hback hplaces)
          simpa [heq, hne] using ih hpath
  unfold cycleOf
  rw [hdrop, List.map_append, List.map_singleton]

theorem cycleError_map (h : graph.Embeds other inside place) {cycle : List (Fin graph.size)}
    (hinside : ∀ p ∈ cycle, inside p) :
    Evaluator.cycleError (cycle.map place) = Evaluator.cycleError cycle := by
  unfold Evaluator.cycleError
  rw [List.map_map]
  congr 1
  apply List.map_congr_left
  intro p hp
  exact h.name p (hinside p hp)

/-- A node has the same answer in both graphs: a value, or a cycle of the same names. -/
theorem reference_eq (h : graph.Embeds other inside place) (hinside : inside node) :
    other.reference (place node) = graph.reference node := by
  have hanswers := graph.answers_valueAlong node
  unfold reference
  cases hvalue : graph.valueAlong [] node with
  | ok value =>
      rw [hvalue] at hanswers
      cases hanswers with
      | settled hsettles => rw [valueAlong_of_settles (h.settles hsettles hinside) (by simp)]
  | error cycle =>
      rw [hvalue] at hanswers
      cases hanswers with
      | @returned path back hreturns =>
          have hpath := h.inside_of_isChain hreturns.asks.left_of_append hinside
          have hback := hpath back hreturns.mem
          have hanswer := (Answers.returned (h.returns hreturns hpath)).eq_valueAlong
          have hcycle : ∀ p ∈ cycleOf (node :: path) back, inside p := by
            intro p hp
            rcases List.mem_append.mp hp with hp | hp
            · exact hpath p ((List.dropWhile_sublist _).mem hp)
            · rwa [List.mem_singleton.mp hp]
          rw [← List.map_cons, h.cycleOf_map hback hpath] at hanswer
          rw [← hanswer]
          exact congrArg Except.error (h.cycleError_map hcycle)

end Embeds

end Graph

/-! ## What a name mentions -/

namespace Table

/-- One of the dependencies of `name` is on `next`, be it negated or not. -/
def Mentions (table : Table) (name next : String) : Prop :=
  ∃ entry, table.get? name = some entry ∧
    ∃ dependency ∈ entry.dependencies, dependency.name = next

/-- Both tables declare `name`, with the same default and the same dependencies. -/
def AgreeOn (table other : Table) (name : String) : Prop :=
  ∃ entry entry', table.get? name = some entry ∧ other.get? name = some entry' ∧
    entry.default = entry'.default ∧ entry.dependencies = entry'.dependencies

end Table

namespace Graph

variable {table other : Table} {graph graph' : Graph}

theorem represents_of_get? (hlink : link table = .ok graph) {i : Fin graph.size} {entry : Entry}
    (hentry : table.get? (graph.node i).name = some entry) : graph.Represents i entry := by
  obtain ⟨found, hfound, hrepresents⟩ := represents_of_link hlink i
  have hget := Table.get?_eq_some_iff.mpr ⟨List.mem_of_getElem? hfound, rfl⟩
  rw [← hrepresents.name, hentry, Option.some.injEq] at hget
  rwa [hget]

/-- The conditions of a node by name: what its entry requires, then what it conflicts with. -/
theorem Represents.map_conditions {i : Fin graph.size} {entry : Entry}
    (h : graph.Represents i entry) :
    (graph.node i).conditions.map (fun c => ((graph.node c.node).name, c.wanted)) =
      entry.positive.map (·, true) ++ entry.negative.map (·, false) := by
  rw [← h.requires, ← h.conflicts, Node.conditions]
  simp only [List.map_append, List.map_map]
  rfl

theorem mentions_of_mem_conditions (hlink : link table = .ok graph) {i : Fin graph.size}
    {c : Condition graph.size} (hc : c ∈ (graph.node i).conditions) :
    table.Mentions (graph.node i).name (graph.node c.node).name := by
  obtain ⟨entry, hentry, hrepresents⟩ := represents_of_link hlink i
  have hmem := List.mem_map_of_mem (f := fun c => ((graph.node c.node).name, c.wanted)) hc
  rw [hrepresents.map_conditions] at hmem
  refine ⟨entry, Table.get?_eq_some_iff.mpr ⟨List.mem_of_getElem? hentry, hrepresents.name.symm⟩, ?_⟩
  simp only [Entry.positive, Entry.negative, List.mem_append, List.mem_map, List.mem_filter] at hmem
  rcases hmem with ⟨_, ⟨dependency, ⟨hmem, -⟩, rfl⟩, hname⟩ | ⟨_, ⟨dependency, ⟨hmem, -⟩, rfl⟩, hname⟩
  · exact ⟨dependency, hmem, (Prod.mk.inj hname).1⟩
  · exact ⟨dependency, hmem, (Prod.mk.inj hname).1⟩

theorem condition_injective (hlink : link table = .ok graph) :
    Function.Injective fun c : Condition graph.size => ((graph.node c.node).name, c.wanted) := by
  rintro ⟨node, wanted⟩ ⟨node', wanted'⟩ h
  obtain ⟨hname, rfl⟩ := Prod.mk.inj h
  obtain rfl := name_injective hlink hname
  rfl

/-- The graph of a table has the nodes for all that `name` mentions, if the tables agree on it. -/
theorem exists_embeds (hlink : link table = .ok graph) (hlink' : link other = .ok graph')
    {name : String} (hagree : ∀ x, ReflTransGen table.Mentions name x → table.AgreeOn other x) :
    ∃ place, graph.Embeds graph'
      (fun i => ReflTransGen table.Mentions name (graph.node i).name) place := by
  have hnode : ∀ x, ReflTransGen table.Mentions name x → ∃ j, (graph'.node j).name = x := by
    intro x hx
    obtain ⟨-, entry', -, hentry', -⟩ := hagree x hx
    obtain ⟨hmem, hname⟩ := Table.get?_eq_some_iff.mp hentry'
    obtain ⟨j, hrepresents⟩ := exists_represents hlink' hmem
    exact ⟨j, hrepresents.name.trans hname⟩
  obtain ⟨first, -⟩ := hnode name .refl
  have : Nonempty (Fin graph'.size) := ⟨first⟩
  choose! found hfound using hnode
  have hclosed : ∀ i, ReflTransGen table.Mentions name (graph.node i).name →
      ∀ c ∈ (graph.node i).conditions,
        ReflTransGen table.Mentions name (graph.node c.node).name := by
    intro i hi c hc
    exact hi.tail (mentions_of_mem_conditions hlink hc)
  refine ⟨fun i => found (graph.node i).name, hclosed, fun i hi => hfound _ hi, ?_, ?_, ?_⟩
  · intro i hi
    obtain ⟨entry, entry', hentry, hentry', hdefault, -⟩ := hagree _ hi
    rw [← hfound _ hi] at hentry'
    rw [(represents_of_get? hlink' hentry').default, ← hdefault,
      (represents_of_get? hlink hentry).default]
  · intro i hi
    obtain ⟨entry, entry', hentry, hentry', -, hdependencies⟩ := hagree _ hi
    rw [← hfound _ hi] at hentry'
    apply List.map_injective_iff.mpr (condition_injective hlink')
    have hpositive : entry'.positive = entry.positive := by
      unfold Entry.positive
      rw [hdependencies]
    have hnegative : entry'.negative = entry.negative := by
      unfold Entry.negative
      rw [hdependencies]
    rw [(represents_of_get? hlink' hentry').map_conditions, hpositive, hnegative,
      ← (represents_of_get? hlink hentry).map_conditions, List.map_map]
    apply List.map_congr_left
    intro c hc
    exact congrArg (·, c.wanted) (hfound _ (hclosed i hi c hc)).symm
  · intro i j hi hj hplaces
    apply name_injective hlink
    show (graph.node i).name = (graph.node j).name
    rw [← hfound _ hi, ← hfound _ hj, hplaces]

theorem exists_id?_of_get? (hlink : link table = .ok graph) {name : String} {entry : Entry}
    (hentry : table.get? name = some entry) :
    ∃ i, graph.id? name = some i ∧ (graph.node i).name = name := by
  obtain ⟨hmem, hname⟩ := Table.get?_eq_some_iff.mp hentry
  obtain ⟨i, hrepresents⟩ := exists_represents hlink hmem
  have hi := hrepresents.name.trans hname
  exact ⟨i, (id?_eq_some_iff hlink).mpr hi, hi⟩

end Graph

/-! ## Changes to a table -/

/-- A change to what a table says of one name. -/
inductive Edit where
  /-- A new declaration, in the place of any earlier one. -/
  | declare (entry : Entry)
  | override (name : String) (value : Toggle)
  | remove (name : String)

/-- The name that an edit is about. -/
def Edit.name : Edit → String
  | declare entry => entry.name
  | override name _ => name
  | remove name => name

namespace Table

def edit (table : Table) : Edit → Table
  | .declare entry => table.insert entry
  | .override name value => table.setDefault name value
  | .remove name => ⟨table.definitions.erase name⟩

variable {table : Table} {name : String}

theorem get?_edit_of_ne {edit : Edit} (h : edit.name ≠ name) :
    (table.edit edit).get? name = table.get? name := by
  cases edit with
  | declare entry => exact (table.get?_insert entry name).trans (if_neg h)
  | override found value =>
      have hne : found ≠ name := h
      show (table.setDefault found value).get? name = table.get? name
      unfold setDefault
      split
      · simp only [get?, Std.TreeMap.getElem?_insert, Std.LawfulEqCmp.compare_eq_iff_eq, if_neg hne]
      · rfl
  | remove found =>
      have hne : found ≠ name := h
      simp only [Table.edit, get?, Std.TreeMap.getElem?_erase, Std.LawfulEqCmp.compare_eq_iff_eq,
        if_neg hne]

theorem get?_foldl_edit {edits : List Edit} (h : ∀ edit ∈ edits, edit.name ≠ name) :
    (edits.foldl edit table).get? name = table.get? name := by
  induction edits generalizing table with
  | nil => rfl
  | cons first rest ih =>
      obtain ⟨hfirst, hrest⟩ := List.forall_mem_cons.mp h
      rw [List.foldl_cons, ih hrest, get?_edit_of_ne hfirst]

/-- All that a name of a linked table mentions is declared. -/
theorem exists_get?_of_mentions {graph : Graph} (hlink : Graph.link table = .ok graph) {x : String}
    (hdeclared : table.contains name = true) (hx : ReflTransGen table.Mentions name x) :
    ∃ entry, table.get? x = some entry := by
  obtain ⟨hknown, -⟩ := Graph.link_eq_ok_iff.mp hlink
  induction hx with
  | refl =>
      obtain ⟨entry, hentry, rfl⟩ := contains_iff.mp hdeclared
      exact ⟨entry, mem_entries_iff.mp hentry⟩
  | tail _ hmentions _ =>
      obtain ⟨entry, hentry, dependency, hdependency, rfl⟩ := hmentions
      obtain ⟨declared, hmem, hname⟩ := unknownDependency?_eq_none_iff.mp hknown entry
        (get?_eq_some_iff.mp hentry).1 dependency hdependency
      exact ⟨declared, get?_eq_some_iff.mpr ⟨hmem, hname⟩⟩

end Table

open FeatureFlags.Graph Evaluator

/-- Tables that agree on all that `name` mentions give it one answer. -/
theorem Evaluator.reference_agrees {table other : Table} {graph graph' : Graph}
    (hlink : link table = .ok graph) (hlink' : link other = .ok graph') {name : String}
    (hagree : ∀ x, ReflTransGen table.Mentions name x → table.AgreeOn other x) :
    (graph'.id? name).map graph'.reference = (graph.id? name).map graph.reference := by
  obtain ⟨entry, entry', hentry, hentry', -⟩ := hagree name .refl
  obtain ⟨i, hid, hi⟩ := exists_id?_of_get? hlink hentry
  obtain ⟨place, hembeds⟩ := exists_embeds hlink hlink' hagree
  have hinside : ReflTransGen table.Mentions name (graph.node i).name := hi ▸ .refl
  have hid' := (id?_eq_some_iff hlink').mpr ((hembeds.name i hinside).trans hi)
  rw [hid, hid', Option.map_some, Option.map_some, hembeds.reference_eq hinside]

/--
**A value depends on what its name mentions.** A declared name of a linked table has an answer, a
value or a cycle. It has the same one in every table that agrees on all that it mentions in the
first, directly or through others, and whatever is declared, removed or given another default
otherwise. The numbers of the nodes may differ, and so may the calls made before.
-/
theorem answers_agree_on_mentioned {table : Table} {graph : Graph}
    (hlink : link table = .ok graph) {name : String} (hdeclared : table.contains name = true)
    (calls calls' : List Call) :
    ∃ answer, ((afterCalls graph calls).valueOf? name).1 = some answer ∧
      (∀ other graph', link other = .ok graph' →
        (∀ x, ReflTransGen table.Mentions name x → table.AgreeOn other x) →
          ((afterCalls graph' calls').valueOf? name).1 = some answer) ∧
      ∀ (edits : List Edit) graph', link (edits.foldl Table.edit table) = .ok graph' →
        (∀ edit ∈ edits, ¬ ReflTransGen table.Mentions name edit.name) →
          ((afterCalls graph' calls').valueOf? name).1 = some answer := by
  obtain ⟨entry, hentry⟩ := Table.exists_get?_of_mentions hlink hdeclared .refl
  obtain ⟨i, hid, -⟩ := exists_id?_of_get? hlink hentry
  have hanswer : (graph.id? name).map graph.reference = some (graph.reference i) := by
    rw [hid, Option.map_some]
  refine ⟨graph.reference i, ?_, ?_, ?_⟩
  · rw [(valueOf?_spec (resting_afterCalls graph calls) name).1, hanswer]
  · intro other graph' hlink' hagree
    rw [(valueOf?_spec (resting_afterCalls graph' calls') name).1,
      reference_agrees hlink hlink' hagree, hanswer]
  · intro edits graph' hlink' hapart
    have hagree : ∀ x, ReflTransGen table.Mentions name x →
        table.AgreeOn (edits.foldl Table.edit table) x := by
      intro x hx
      obtain ⟨found, hfound⟩ := Table.exists_get?_of_mentions hlink hdeclared hx
      have hsame : (edits.foldl Table.edit table).get? x = table.get? x := by
        apply Table.get?_foldl_edit
        rintro edit hedit rfl
        exact hapart edit hedit hx
      exact ⟨found, found, hfound, hsame.trans hfound, rfl, rfl⟩
    rw [(valueOf?_spec (resting_afterCalls graph' calls') name).1,
      reference_agrees hlink hlink' hagree, hanswer]

/-- `A` mentions `B` and `C`, which are on a cycle, and does not mention `D`. -/
def knot : Table :=
  (((Table.empty.insert ⟨"A", .yes, [⟨"B", false⟩], ⟨⟨"main"⟩, 1⟩⟩).insert
    ⟨"B", .yes, [⟨"C", true⟩], ⟨⟨"main"⟩, 2⟩⟩).insert
    ⟨"C", .yes, [⟨"B", false⟩], ⟨⟨"main"⟩, 3⟩⟩).insert
    ⟨"D", .yes, [⟨"A", false⟩], ⟨⟨"main"⟩, 4⟩⟩

/-- Says the same of `A`, `B` and `C`, with other numbers and lines. -/
def shiftedKnot : Table :=
  ((((Table.empty.insert ⟨"C", .yes, [⟨"B", false⟩], ⟨⟨"other"⟩, 1⟩⟩).insert
    ⟨"AA", .no, [⟨"D", true⟩], ⟨⟨"other"⟩, 2⟩⟩).insert
    ⟨"B", .yes, [⟨"C", true⟩], ⟨⟨"other"⟩, 3⟩⟩).insert
    ⟨"A", .yes, [⟨"B", false⟩], ⟨⟨"other"⟩, 4⟩⟩).insert
    ⟨"D", .no, [], ⟨⟨"other"⟩, 5⟩⟩

/-- `D` goes, and a name before `A` comes. -/
def looseEnds : List Edit := [.remove "D", .declare ⟨"0", .yes, [⟨"A", true⟩], ⟨⟨"main"⟩, 5⟩⟩]

theorem mentions_knot {x : String} (hx : ReflTransGen knot.Mentions "A" x) :
    x = "A" ∨ x = "B" ∨ x = "C" := by
  have hget : knot.get? "A" = some ⟨"A", .yes, [⟨"B", false⟩], ⟨⟨"main"⟩, 1⟩⟩ ∧
      knot.get? "B" = some ⟨"B", .yes, [⟨"C", true⟩], ⟨⟨"main"⟩, 2⟩⟩ ∧
      knot.get? "C" = some ⟨"C", .yes, [⟨"B", false⟩], ⟨⟨"main"⟩, 3⟩⟩ := by
    simp [knot, Table.get?_insert]
  obtain ⟨hA, hB, hC⟩ := hget
  induction hx with
  | refl => exact .inl rfl
  | tail _ hmentions ih =>
      obtain ⟨entry, hentry, dependency, hdependency, rfl⟩ := hmentions
      rcases ih with rfl | rfl | rfl
      · cases hA.symm.trans hentry
        simp_all
      · cases hB.symm.trans hentry
        simp_all
      · cases hC.symm.trans hentry
        simp_all

theorem answers_agree_on_mentioned_knot :
    link knot = .ok (ofEntries knot.entries.toArray) ∧
    link shiftedKnot = .ok (ofEntries shiftedKnot.entries.toArray) ∧
    ((afterCalls (ofEntries knot.entries.toArray) []).valueOf? "A").1 =
      some (.error (.circularDependency ["B", "C", "B"])) ∧
    ((afterCalls (ofEntries shiftedKnot.entries.toArray) [.all]).valueOf? "A").1 =
      some (.error (.circularDependency ["B", "C", "B"])) ∧
    ((afterCalls (ofEntries (looseEnds.foldl Table.edit knot).entries.toArray) [.all]).valueOf?
      "A").1 = some (.error (.circularDependency ["B", "C", "B"])) := by
  have hlink : link knot = .ok (ofEntries knot.entries.toArray) :=
    link_eq_ok_iff.mpr ⟨by cbv, rfl⟩
  have hlink' : link shiftedKnot = .ok (ofEntries shiftedKnot.entries.toArray) :=
    link_eq_ok_iff.mpr ⟨by cbv, rfl⟩
  have hedited : link (looseEnds.foldl Table.edit knot) =
      .ok (ofEntries (looseEnds.foldl Table.edit knot).entries.toArray) :=
    link_eq_ok_iff.mpr ⟨by cbv, rfl⟩
  have hagree : ∀ x, ReflTransGen knot.Mentions "A" x → knot.AgreeOn shiftedKnot x := by
    intro x hx
    rcases mentions_knot hx with rfl | rfl | rfl <;>
      simp [Table.AgreeOn, knot, shiftedKnot, Table.get?_insert]
  have hapart : ∀ edit ∈ looseEnds, ¬ ReflTransGen knot.Mentions "A" edit.name := by
    intro edit hedit hreach
    have hname := mentions_knot hreach
    simp only [looseEnds, List.mem_cons, List.not_mem_nil, or_false] at hedit
    rcases hedit with rfl | rfl <;> simp [Edit.name] at hname
  have hvalue : ((afterCalls (ofEntries knot.entries.toArray) []).valueOf? "A").1 =
      some (.error (.circularDependency ["B", "C", "B"])) := by
    have hid : (ofEntries knot.entries.toArray).id? "A" = some ⟨0, by decide⟩ := rfl
    rw [(valueOf?_spec (resting_afterCalls _ _) "A").1, hid]
    exact congrArg some (by cbv)
  have hname : knot.contains "A" = true := by cbv
  obtain ⟨answer, hanswer, hother, hedits⟩ := answers_agree_on_mentioned hlink hname [] [.all]
  rw [hvalue, Option.some.injEq] at hanswer
  subst hanswer
  exact ⟨hlink, hlink', hvalue, hother shiftedKnot _ hlink' hagree,
    hedits looseEnds _ hedited hapart⟩

end FeatureFlags
