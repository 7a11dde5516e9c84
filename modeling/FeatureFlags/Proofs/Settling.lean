import FeatureFlags.Evaluator
import Mathlib.Logic.Relation

/-!
# What settles a node

The value of a node said without any path or cache: a finite derivation that looks at the same
conditions, in the same order, as a visit does. A node has at most one such value
(`Settles.unique`), and it has none if the nodes it asks for lead back to it
(`Settles.not_transGen_asks`): that is why a value found under one path may be used under another.
-/

namespace FeatureFlags.Graph

open Relation

variable {graph : Graph}

/-! ## Derivations of values -/

/-- `graph.Settles node value`: checking the conditions of `node` in order ends with `value`. -/
inductive Settles (graph : Graph) : Fin graph.size → Bool → Prop where
  | off {node : Fin graph.size} (hno : (graph.node node).default = .no) : Settles graph node false
  /-- The conditions `met` hold and the one after them does not; `rest` is not looked at. -/
  | unmet {node : Fin graph.size} {met rest : List (Condition graph.size)}
      {condition : Condition graph.size} (hyes : (graph.node node).default = .yes)
      (hsplit : (graph.node node).conditions = met ++ condition :: rest)
      (hmet : ∀ c ∈ met, Settles graph c.node c.wanted)
      (hunmet : Settles graph condition.node (!condition.wanted)) : Settles graph node false
  | on {node : Fin graph.size} (hyes : (graph.node node).default = .yes)
      (hmet : ∀ c ∈ (graph.node node).conditions, Settles graph c.node c.wanted) :
      Settles graph node true

/-- `graph.Asks node next`: `node` comes to check a condition on `next`, all earlier ones holding. -/
def Asks (graph : Graph) (node next : Fin graph.size) : Prop :=
  (graph.node node).default = .yes ∧
    ∃ met condition rest, (graph.node node).conditions = met ++ condition :: rest ∧
      condition.node = next ∧ ∀ c ∈ met, graph.Settles c.node c.wanted

/-- While its conditions hold, a node asks for each of them. -/
theorem Asks.of_mem {node : Fin graph.size} {met rest : List (Condition graph.size)}
    {condition : Condition graph.size} (hyes : (graph.node node).default = .yes)
    (hsplit : (graph.node node).conditions = met ++ rest)
    (hmet : ∀ c ∈ met, graph.Settles c.node c.wanted) (hmem : condition ∈ met) :
    graph.Asks node condition.node := by
  obtain ⟨before, after, rfl⟩ := List.append_of_mem hmem
  rw [List.append_assoc] at hsplit
  refine ⟨hyes, before, condition, after ++ rest, hsplit, rfl, ?_⟩
  intro c hc
  exact hmet c (List.mem_append_left _ hc)

/-- Of two conditions of one list, they are at the same place, or one stands before the other. -/
theorem split_cases {α : Type*} {met met' rest rest' : List α} {c c' : α}
    (h : met ++ c :: rest = met' ++ c' :: rest') :
    c ∈ met' ∨ (met = met' ∧ c = c') ∨ c' ∈ met := by
  induction met generalizing met' with
  | nil =>
      cases met' with
      | nil => exact .inr (.inl ⟨rfl, (List.cons.inj h).1⟩)
      | cons d met' =>
          obtain ⟨rfl, -⟩ := List.cons.inj h
          exact .inl List.mem_cons_self
  | cons d met ih =>
      cases met' with
      | nil =>
          obtain ⟨rfl, -⟩ := List.cons.inj h
          exact .inr (.inr List.mem_cons_self)
      | cons d' met' =>
          obtain ⟨rfl, htail⟩ := List.cons.inj h
          rcases ih htail with h | ⟨rfl, rfl⟩ | h
          · exact .inl (List.mem_cons_of_mem _ h)
          · exact .inr (.inl ⟨rfl, rfl⟩)
          · exact .inr (.inr (List.mem_cons_of_mem _ h))

theorem Settles.unique {node : Fin graph.size} {value other : Bool}
    (h : graph.Settles node value) (h' : graph.Settles node other) : value = other := by
  -- Two derivations of different values part at a condition, on which both cannot be right.
  induction h generalizing other with
  | off hno =>
      cases h' with
      | off => rfl
      | unmet => rfl
      | on hyes => cases hno.symm.trans hyes
  | @unmet node met rest c hyes hsplit hmet hunmet ihmet ihunmet =>
      cases h' with
      | off => rfl
      | unmet => rfl
      | on hyes' hmet' =>
          have hc : c ∈ (graph.node node).conditions := hsplit ▸ List.mem_append_cons_self
          have := ihunmet (hmet' c hc)
          simp at this
  | @on node hyes hmet ihmet =>
      cases h' with
      | off hno => cases hno.symm.trans hyes
      | @unmet _ met rest c _ hsplit _ hunmet =>
          have hc : c ∈ (graph.node node).conditions := hsplit ▸ List.mem_append_cons_self
          have := ihmet c hc hunmet
          simp at this
      | on => rfl

/-! ## What a settled node asks for -/

theorem not_asks_of_off {node next : Fin graph.size} (hno : (graph.node node).default = .no) :
    ¬ graph.Asks node next := by
  rintro ⟨hyes, -⟩
  cases hno.symm.trans hyes

/-- A node asks for nothing after its first condition that does not hold. -/
theorem Asks.mem_of_unmet {node next : Fin graph.size} {met rest : List (Condition graph.size)}
    {condition : Condition graph.size}
    (hsplit : (graph.node node).conditions = met ++ condition :: rest)
    (hunmet : graph.Settles condition.node (!condition.wanted)) (h : graph.Asks node next) :
    ∃ c ∈ met ++ [condition], c.node = next := by
  obtain ⟨-, met', c, rest', hsplit', rfl, hmet'⟩ := h
  rcases split_cases (hsplit'.symm.trans hsplit) with hc | ⟨rfl, rfl⟩ | hc
  · exact ⟨c, List.mem_append_left _ hc, rfl⟩
  · exact ⟨c, List.mem_append_right _ (List.mem_singleton_self c), rfl⟩
  · have := (hmet' condition hc).unique hunmet
    simp at this

/-- What a settled node asks for can be followed inwards only finitely often. -/
theorem Settles.acc {node : Fin graph.size} {value : Bool} (h : graph.Settles node value) :
    Acc (fun next node => graph.Asks node next) node := by
  induction h with
  | off hno =>
      apply Acc.intro
      intro next hasks
      exact absurd hasks (not_asks_of_off hno)
  | unmet hyes hsplit hmet hunmet ihmet ihunmet =>
      apply Acc.intro
      intro next hasks
      obtain ⟨c, hc, rfl⟩ := hasks.mem_of_unmet hsplit hunmet
      rcases List.mem_append.mp hc with hc | hc
      · exact ihmet c hc
      · rw [List.mem_singleton.mp hc]
        exact ihunmet
  | on hyes hmet ihmet =>
      apply Acc.intro
      intro next hasks
      obtain ⟨-, met, c, rest, hsplit, rfl, -⟩ := hasks
      exact ihmet c (hsplit ▸ List.mem_append_cons_self)

theorem Settles.exists_of_asks {node next : Fin graph.size} {value : Bool}
    (h : graph.Settles node value) (hasks : graph.Asks node next) :
    ∃ value, graph.Settles next value := by
  cases h with
  | off hno => exact absurd hasks (not_asks_of_off hno)
  | unmet hyes hsplit hmet hunmet =>
      obtain ⟨c, hc, rfl⟩ := hasks.mem_of_unmet hsplit hunmet
      rcases List.mem_append.mp hc with hc | hc
      · exact ⟨_, hmet c hc⟩
      · rw [List.mem_singleton.mp hc]
        exact ⟨_, hunmet⟩
  | on hyes hmet =>
      obtain ⟨-, met, c, rest, hsplit, rfl, -⟩ := hasks
      exact ⟨_, hmet c (hsplit ▸ List.mem_append_cons_self)⟩

theorem Settles.exists_of_reflTransGen {node next : Fin graph.size} {value : Bool}
    (h : graph.Settles node value) (hasks : ReflTransGen graph.Asks node next) :
    ∃ value, graph.Settles next value := by
  induction hasks with
  | refl => exact ⟨value, h⟩
  | tail _ hstep ih =>
      obtain ⟨_, hsettles⟩ := ih
      exact hsettles.exists_of_asks hstep

/-- A settled node does not ask for itself, directly or through others. -/
theorem Settles.not_transGen_asks {node : Fin graph.size} {value : Bool}
    (h : graph.Settles node value) : ¬ TransGen graph.Asks node node := by
  -- Along a cycle one could go on asking for ever.
  have hacc := h.acc.transGen
  induction hacc with
  | intro x _ ih =>
      intro hcycle
      exact ih x (transGen_swap.mpr hcycle) h hcycle

/--
What a node on the way to a settled node cannot be: something that this node asks for. This is
what makes a value known from an earlier path safe on the present one.
-/
theorem Settles.not_reflTransGen_of_transGen {outer node : Fin graph.size} {value : Bool}
    (h : graph.Settles node value) (hway : TransGen graph.Asks outer node) :
    ¬ ReflTransGen graph.Asks node outer := by
  intro hback
  obtain ⟨_, hsettles⟩ := h.exists_of_reflTransGen hback
  exact hsettles.not_transGen_asks (hway.trans_left hback)

/-- The path grows by `node`, which asking for `next` keeps out of reach of `next`. -/
theorem Settles.not_reflTransGen_snoc {path : List (Fin graph.size)} {node next : Fin graph.size}
    {value : Bool} (h : graph.Settles next value) (hasks : graph.Asks node next)
    (hfree : ∀ p ∈ path, ¬ ReflTransGen graph.Asks node p) :
    ∀ p ∈ path ++ [node], ¬ ReflTransGen graph.Asks next p := by
  intro p hp hreach
  rcases List.mem_append.mp hp with hp | hp
  · exact hfree p hp (.head hasks hreach)
  · rw [List.mem_singleton.mp hp] at hreach
    exact h.not_reflTransGen_of_transGen (.single hasks) hreach

end FeatureFlags.Graph
